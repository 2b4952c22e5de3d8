import GraphQLSyntax.Parsing
import GraphQLSyntax.Proofs.Parsing.Run
import GraphQLSyntax.Proofs.Recognition.Executable
import GraphQLSyntax.Proofs.Yield.Ordinary

/-!
# Parsing undoes writing

A source is parsed as an executable document exactly if its tokens are those that
the document is written with, and a document is determined by what it is written
with.  What the parser recognizes are the words of the lax degree; a source has no
terminals but plain ones, which makes the document strictly well formed.
-/

namespace GraphQLSyntax

open GraphQLSyntax.Parser

theorem document_returnsAtEnd (n : Nat) : ReturnsAtEnd n (document n) :=
  (untilEnd_returnsAtEnd (recognizes_definition (Nat.le_refl n))).marked Document.mk

/-- A plain word of the language is what a strictly well-formed document is written
with. -/
theorem document_language_wordOf {ts : List Token} {d : Document Unit} :
    Document.language (wordOf ts) d ↔ d.WellFormed .strict ∧ d.yield = ts.map Token.lexeme :=
  ofTree_wordOf Document.wellFormed_strict_iff

theorem Document.WellFormed.isStream {d : Document Unit} {degree : Degree}
    (h : d.WellFormed degree) :
    IsStream ((tokensOf d.yield).map .ok ++ [.ok ⟨.bare .eof, 0, 0⟩]) := by
  refine isStream_tokensOf fun l hl => ?_
  obtain ⟨t, ht, rfl⟩ := List.mem_map.1 hl
  exact ⟨(h.isProper t ht).lexeme_isProper, (h.isProper t ht).not_eof⟩

/-- Two well-formed documents that are written the same way are the same. -/
theorem Document.eq_of_yield_eq {d d' : Document Unit} (hd : d.WellFormed .strict)
    (hd' : d'.WellFormed .strict) (h : d'.yield = d.yield) : d' = d :=
  eq_of_spell_eq Document.wellFormed_strict_iff (fun _ => recognizes_document)
    document_returnsAtEnd hd hd'
    (fun t ht => ⟨(hd.isProper t ht).lexeme_isProper, (hd.isProper t ht).not_eof⟩) h

namespace Source

variable {source : Source} {ts : List Token} {last : Reading}

/-- What is parsed from a stream is well formed and written with the tokens of the
stream. -/
theorem run_document_eq_ok_iff (source : Source) (options : ParseOptions)
    (hs : IsStream (ts.map .ok ++ [last])) (d : Document Unit) :
    (∃ x, run document source options (ts.map .ok ++ [last]) = .ok x ∧ x.map untag = d) ↔
      (d.WellFormed .strict ∧ d.yield = ts.map Token.lexeme) ∧
        ∃ token, last = .ok token ∧ token.kind = .eof := by
  rw [← document_language_wordOf]
  exact run_eq_ok_iff (fun _ => recognizes_document) document_returnsAtEnd hs d

/-- What is parsed is well formed and written with the tokens read. -/
theorem parse_sound (hs : IsStream source.tokens) {options : ParseOptions} {t : Document Tag}
    (h : source.parse options = .ok t) :
    t.WellFormed .strict ∧ ∃ (ts : List Token) (token : Token),
      source.tokens = ts.map .ok ++ [.ok token] ∧ token.kind = .eof ∧
        t.yield = ts.map Token.lexeme := by
  obtain ⟨ts, last, heq, -, -⟩ := hs.exists_eq
  unfold Source.parse at h
  cases hrun : run document source options source.tokens with
  | error fault => simp [hrun] at h
  | ok x =>
    obtain rfl : x = t := by simpa [hrun] using h
    rw [heq] at hs hrun
    obtain ⟨⟨hform, hyield⟩, token, rfl, hkind⟩ :=
      (run_document_eq_ok_iff source options hs _).1 ⟨x, hrun, rfl⟩
    simp only [Document.wellFormed_map, Document.yield_map] at hform hyield
    exact ⟨hform, ts, token, heq, hkind, hyield⟩

/-- A well-formed document that is written with the tokens read is parsed. -/
theorem parse_complete (hs : IsStream source.tokens) (options : ParseOptions) {d : Document Unit}
    (hform : d.WellFormed .strict) {token : Token}
    (heq : source.tokens = ts.map .ok ++ [.ok token]) (hkind : token.kind = .eof)
    (hyield : d.yield = ts.map Token.lexeme) :
    ∃ t, source.parse options = .ok t ∧ t.map untag = d := by
  rw [heq] at hs
  obtain ⟨x, hrun, hx⟩ :=
    (run_document_eq_ok_iff source options hs d).2 ⟨⟨hform, hyield⟩, token, rfl, hkind⟩
  exact ⟨x, by simp [Source.parse, heq, hrun], hx⟩

/-- Parsing is the inverse of writing: a source is parsed as a document if and only if
it can be read up to its end and the document is a well-formed one that is written with
the tokens read; and there is only one such document. -/
theorem parse_eq_ok_iff (hfits : source.byteCount < UInt32.size) (options : ParseOptions)
    (d : Document Unit) :
    ((source.parse options).map (Document.map untag) = .ok d ↔
      d.WellFormed .strict ∧ ∃ (ts : List Token) (token : Token),
        source.tokens = ts.map .ok ++ [.ok token] ∧ token.kind = .eof ∧
          d.yield = ts.map Token.lexeme) ∧
      ∀ d' : Document Unit, d.WellFormed .strict → d'.WellFormed .strict → d'.yield = d.yield →
        d' = d := by
  have hs := tokens_isStream hfits
  refine ⟨⟨fun h => ?_, ?_⟩, fun d' => Document.eq_of_yield_eq⟩
  · cases hparse : source.parse options with
    | error error => simp [hparse, Except.map] at h
    | ok t =>
      obtain rfl : t.map untag = d := by simpa [hparse, Except.map] using h
      simpa using parse_sound hs hparse
  · rintro ⟨hform, ts, token, heq, hkind, hyield⟩
    obtain ⟨t, hparse, rfl⟩ := parse_complete hs options hform heq hkind hyield
    simp [hparse, Except.map]

/-- The shortest kind of document, a field in braces, is read as such. -/
theorem parse_eq_ok_field :
    (Source.mk "\x7ba\x7d" "").byteCount < UInt32.size ∧
      ((Source.mk "\x7ba\x7d" "").parse {}).map (Document.map untag) =
        .ok ⟨[.operation ⟨.query, none, [], [],
          ⟨[.field ⟨none, ⟨"a", ()⟩, [], [], none, ()⟩], ()⟩, ()⟩], ()⟩ := by
  refine ⟨by decide, (parse_eq_ok_iff (by decide) {} _).1.2 ⟨?_, ?_⟩⟩
  · have hname : isName "a" = true := by decide
    simp [Document.WellFormed, Definition.WellFormed, OperationDefinition.WellFormed,
      SelectionSet.WellFormed, Selection.AllWellFormed, Selection.WellFormed, Field.WellFormed,
      SelectionSet.OptionWellFormed, Name.WellFormed, hname]
  · exact ⟨[⟨.bare .braceOpen, 0, 1⟩, ⟨.ofName "a", 1, 2⟩, ⟨.bare .braceClose, 2, 3⟩],
      ⟨.bare .eof, 3, 3⟩, rfl, rfl, rfl⟩

end Source

end GraphQLSyntax
