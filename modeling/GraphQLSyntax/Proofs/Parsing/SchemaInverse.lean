import GraphQLSyntax.Parsing
import GraphQLSyntax.Proofs.Parsing.Run
import GraphQLSyntax.Proofs.Recognition.Schema
import GraphQLSyntax.Proofs.Yield.Ordinary

/-!
# Parsing undoes writing, for schemas

A source is parsed as a schema document exactly if its tokens are those that the
document is written with, and there is one such document only.  Keywords are names like
others and neither a list of interfaces nor a union has an end of its own, so that
nothing of this can be seen from single productions.
-/

namespace GraphQLSyntax

open GraphQLSyntax.Parser

theorem schemaDocument_returnsAtEnd (n : Nat) : ReturnsAtEnd n (schemaDocument n) :=
  (untilEnd_returnsAtEnd (recognizes_schemaDefinition (Nat.le_refl n))).marked SchemaDocument.mk

/-- Two well-formed schema documents that are written the same way are the same. -/
theorem SchemaDocument.eq_of_yield_eq {d d' : SchemaDocument Unit} (hd : d.WellFormed .strict)
    (hd' : d'.WellFormed .strict) (h : d'.yield = d.yield) : d' = d :=
  eq_of_spell_eq SchemaDocument.wellFormed_strict_iff (fun _ => recognizes_schemaDocument)
    schemaDocument_returnsAtEnd hd hd'
    (fun t ht => ⟨(hd.ordinary t ht).lexeme_isProper, (hd.ordinary t ht).not_eof⟩) h

namespace Source

variable {source : Source} {ts : List Token} {last : Reading}

/-- What is parsed from a stream is well formed and written with the tokens of the
stream. -/
theorem run_schemaDocument_eq_ok_iff (source : Source) (options : ParseOptions)
    (hs : IsStream (ts.map .ok ++ [last])) (d : SchemaDocument Unit) :
    (∃ x, run schemaDocument source options (ts.map .ok ++ [last]) = .ok x ∧ x.map untag = d) ↔
      (d.WellFormed .strict ∧ d.yield = ts.map Token.lexeme) ∧
        ∃ token, last = .ok token ∧ token.kind = .eof := by
  have hword : SchemaDocument.language (wordOf ts) d ↔
      d.WellFormed .strict ∧ d.yield = ts.map Token.lexeme :=
    ofTree_wordOf SchemaDocument.wellFormed_strict_iff
  rw [← hword]
  exact run_eq_ok_iff (fun _ => recognizes_schemaDocument) schemaDocument_returnsAtEnd hs d

/-- What is parsed is well formed and written with the tokens read. -/
theorem parseSchema_sound (hs : IsStream source.tokens) {options : ParseOptions}
    {t : SchemaDocument Tag} (h : source.parseSchema options = .ok t) :
    t.WellFormed .strict ∧ ∃ (ts : List Token) (token : Token),
      source.tokens = ts.map .ok ++ [.ok token] ∧ token.kind = .eof ∧
        t.yield = ts.map Token.lexeme := by
  obtain ⟨ts, last, heq, -, -⟩ := hs.exists_eq
  unfold Source.parseSchema at h
  cases hrun : run schemaDocument source options source.tokens with
  | error fault => simp [hrun] at h
  | ok x =>
    obtain rfl : x = t := by simpa [hrun] using h
    rw [heq] at hs hrun
    obtain ⟨⟨hform, hyield⟩, token, rfl, hkind⟩ :=
      (run_schemaDocument_eq_ok_iff source options hs _).1 ⟨x, hrun, rfl⟩
    simp only [SchemaDocument.wellFormed_map, SchemaDocument.yield_map] at hform hyield
    exact ⟨hform, ts, token, heq, hkind, hyield⟩

/-- A well-formed schema document that is written with the tokens read is parsed. -/
theorem parseSchema_complete (hs : IsStream source.tokens) (options : ParseOptions)
    {d : SchemaDocument Unit} (hform : d.WellFormed .strict) {token : Token}
    (heq : source.tokens = ts.map .ok ++ [.ok token]) (hkind : token.kind = .eof)
    (hyield : d.yield = ts.map Token.lexeme) :
    ∃ t, source.parseSchema options = .ok t ∧ t.map untag = d := by
  rw [heq] at hs
  obtain ⟨x, hrun, hx⟩ :=
    (run_schemaDocument_eq_ok_iff source options hs d).2 ⟨⟨hform, hyield⟩, token, rfl, hkind⟩
  exact ⟨x, by simp [Source.parseSchema, heq, hrun], hx⟩

/-- Parsing a schema is the inverse of writing it: a source is parsed as a schema document
if and only if it can be read up to its end and the document is a well-formed one that is
written with the tokens read; and there is only one such document. -/
theorem parseSchema_eq_ok_iff (hfits : source.byteCount < UInt32.size) (options : ParseOptions)
    (d : SchemaDocument Unit) :
    ((source.parseSchema options).map (SchemaDocument.map untag) = .ok d ↔
      d.WellFormed .strict ∧ ∃ (ts : List Token) (token : Token),
        source.tokens = ts.map .ok ++ [.ok token] ∧ token.kind = .eof ∧
          d.yield = ts.map Token.lexeme) ∧
      ∀ d' : SchemaDocument Unit, d.WellFormed .strict → d'.WellFormed .strict →
        d'.yield = d.yield → d' = d := by
  have hs := tokens_isStream hfits
  refine ⟨⟨fun h => ?_, ?_⟩, fun d' => SchemaDocument.eq_of_yield_eq⟩
  · cases hparse : source.parseSchema options with
    | error error => simp [hparse, Except.map] at h
    | ok t =>
      obtain rfl : t.map untag = d := by simpa [hparse, Except.map] using h
      simpa using parseSchema_sound hs hparse
  · rintro ⟨hform, ts, token, heq, hkind, hyield⟩
    obtain ⟨t, hparse, rfl⟩ := parseSchema_complete hs options hform heq hkind hyield
    simp [hparse, Except.map]

/-- Where every name is the word that interfaces come after, the first one is the type's
own and the third one an interface's. -/
theorem parseSchema_eq_ok_implements :
    (Source.mk "type implements implements implements\x7b\x7d" "").byteCount < UInt32.size ∧
      ((Source.mk "type implements implements implements\x7b\x7d" "").parseSchema {}).map
          (SchemaDocument.map untag) =
        .ok ⟨[.type ⟨⟨"implements", ()⟩, [⟨⟨"implements", ()⟩, ()⟩], [], ()⟩], ()⟩ := by
  refine ⟨by decide, (parseSchema_eq_ok_iff (by decide) {} _).1.2 ⟨?_, ?_⟩⟩
  · have hname : isName "implements" = true := by decide
    simp [SchemaDocument.WellFormed, SchemaDefinition.WellFormed, TypeDefinition.WellFormed,
      NamedType.WellFormed, Name.WellFormed, hname]
  · exact ⟨[⟨.ofName "type", 0, 4⟩, ⟨.ofName "implements", 5, 15⟩, ⟨.ofName "implements", 16, 26⟩,
      ⟨.ofName "implements", 27, 37⟩, ⟨.bare .braceOpen, 37, 38⟩, ⟨.bare .braceClose, 38, 39⟩],
      ⟨.bare .eof, 39, 39⟩, rfl, rfl, rfl⟩

end Source

end GraphQLSyntax
