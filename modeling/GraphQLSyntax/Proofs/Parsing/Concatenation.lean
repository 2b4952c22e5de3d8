import GraphQLSyntax.Proofs.Lexical.Filler
import GraphQLSyntax.Proofs.Parsing.Inverse
import GraphQLSyntax.Proofs.Parsing.SchemaInverse

/-!
# One text below the other

Two texts with a line feed between them have the tokens of the first and then those of the
second.  The line feed keeps the last token of the first text apart from the first one of the
second, and it ends a comment that the first text may end in.

So the definitions of the first text are followed by those of the second.  That no definition
goes on across the line feed need not be looked at production by production: what is written
with certain tokens is determined by them, and these definitions are written with those.
-/

namespace GraphQLSyntax

variable {α : Type}

/-- Behind the end of a line, a filler goes on with a filler. -/
theorem IsFiller.tail_of_endsLine {c : Char} {cs : List Char} (h : IsFiller (c :: cs))
    (hc : EndsLine c) : IsFiller cs := by
  generalize htext : c :: cs = text at h
  cases h with
  | nil => cases htext
  | spacing _ hcs =>
    obtain ⟨-, rfl⟩ := List.cons.inj htext
    exact hcs
  | comment =>
    obtain ⟨rfl, -⟩ := List.cons.inj htext
    exact absurd hc (by simp [EndsLine])

/-- A line feed behind ignored text ends the comment that the text may end in. -/
theorem Ignored.isFiller_lineFeed {gap : List Char} (h : Ignored [] gap) :
    IsFiller (gap ++ ['\n']) := by
  have hline : EndsLine '\n' := by simp [EndsLine]
  induction h with
  | nil => exact .spacing (isSpacing_of_endsLine hline) .nil
  | spacing hc _ ih => exact .spacing hc ih
  | @comment text cs htext hend _ ih =>
    rw [List.append_assoc]
    cases cs with
    | nil => exact .comment htext hline .nil
    | cons c cs =>
      have hc : EndsLine c := hend c rfl
      exact .comment htext hc (ih.tail_of_endsLine hc)

/-! ## The tokens -/

namespace Source

variable {first second whole : Source} {ts us : List Token} {last last' : Token}

/-- The tokens of both texts are read one after the other, those of the second moved behind the
line feed. -/
theorem tokens_below (hbody : whole.body = first.body ++ "\n" ++ second.body)
    (hfits : whole.byteCount < UInt32.size) (hfirst : first.tokens = ts.map .ok ++ [.ok last])
    (hlast : last.kind = .eof) (hsecond : second.tokens = us.map .ok ++ [.ok last'])
    (hlast' : last'.kind = .eof) :
    whole.tokens =
      (ts ++ us.map (Token.shift (.ofNat (byteLength (first.chars ++ ['\n']))))).map .ok ++
        [.ok whole.endToken] := by
  have hchars : whole.chars = first.chars ++ ['\n'] ++ second.chars := by simp [chars, hbody]
  have hsize := whole.byteCount_eq
  rw [hchars, byteLength_append, byteLength_append, ← byteCount_eq, ← byteCount_eq] at hsize
  obtain ⟨-, -, segment, gap, hsegment, hts, hgap⟩ := reads_of_tokens (by omega) hfirst hlast
  obtain ⟨-, -, segment', gap', hsegment', hus, hgap'⟩ :=
    reads_of_tokens (by omega) hsecond hlast'
  have hfiller := hgap.isFiller_lineFeed
  have hts' : Reads 0 segment ts (gap ++ ['\n'] ++ second.chars) := by
    refine hts.mono ?_
    cases gap with
    | nil => exact .of_not_isInk (fun c hc => by
        obtain rfl := Option.some.inj hc
        exact fun hink => hink.not_endsLine (by simp [EndsLine])) []
    | cons => exact .of_head? rfl
  have hoffset : 0 + byteLength (first.chars ++ ['\n']) =
      0 + byteLength segment + byteLength (gap ++ ['\n']) := by
    rw [hsegment, List.append_assoc, byteLength_append, Nat.add_assoc]
  by_cases hnone : us = []
  · -- Nothing of the second text is read, and all of it is ignored.
    subst hnone
    cases hus with
    | nil =>
      rw [List.map_nil, List.append_nil]
      refine tokens_of_reads hfits ?_ hts' ?_
      · rw [hchars, hsegment]
        simp
      · rw [hsegment']
        exact hfiller.ignored_append hgap'
  · have hmoved := hus.shift (byteLength (first.chars ++ ['\n']))
    rw [hoffset] at hmoved
    have hfilled := hmoved.fill hfiller (by simpa using hnone)
    rw [hsegment', ← List.append_assoc] at hts'
    refine tokens_of_reads hfits ?_ (hts'.append hfilled) hgap'
    rw [hchars, hsegment, hsegment']
    simp

/-- What is written below the other text is read there. -/
theorem map_lexeme_below (n : UInt32) :
    (ts ++ us.map (Token.shift n)).map Token.lexeme =
      ts.map Token.lexeme ++ us.map Token.lexeme := by
  simp [Token.shift]

end Source

/-! ## The definitions -/

/-- The definitions of two documents, one after the other. -/
def Document.below (d e : Document α) : Document Unit :=
  ⟨(d.definitions ++ e.definitions).map (Definition.map untag), ()⟩

theorem Document.WellFormed.below {d e : Document α} {degree : Degree} (hd : d.WellFormed degree)
    (he : e.WellFormed degree) : (d.below e).WellFormed degree := by
  refine ⟨by simp [Document.below, hd.1], fun y hy => ?_⟩
  obtain ⟨x, hx, rfl⟩ := List.mem_map.1 hy
  rw [Definition.wellFormed_map]
  exact (List.mem_append.1 hx).elim (hd.2 x) (he.2 x)

theorem Document.yield_below (d e : Document α) : (d.below e).yield = d.yield ++ e.yield := by
  simp [Document.below, yield, terminals, List.flatMap_map]

/-- The definitions of two schemas, one after the other. -/
def SchemaDocument.below (d e : SchemaDocument α) : SchemaDocument Unit :=
  ⟨(d.definitions ++ e.definitions).map (SchemaDefinition.map untag), ()⟩

theorem SchemaDocument.WellFormed.below {d e : SchemaDocument α} {degree : Degree}
    (hd : d.WellFormed degree) (he : e.WellFormed degree) : (d.below e).WellFormed degree := by
  refine ⟨by simp [SchemaDocument.below, hd.1], fun y hy => ?_⟩
  obtain ⟨x, hx, rfl⟩ := List.mem_map.1 hy
  rw [SchemaDefinition.wellFormed_map]
  exact (List.mem_append.1 hx).elim (hd.2 x) (he.2 x)

theorem SchemaDocument.yield_below (d e : SchemaDocument α) :
    (d.below e).yield = d.yield ++ e.yield := by
  simp [SchemaDocument.below, yield, terminals, List.flatMap_map]

namespace Source

variable {first second whole : Source} {options options' : ParseOptions}

/-- Two texts that are documents are a document together. -/
theorem parse_below (hbody : whole.body = first.body ++ "\n" ++ second.body)
    (hfits : whole.byteCount < UInt32.size) {d e : Document Tag}
    (hfirst : first.parse options = .ok d) (hsecond : second.parse options' = .ok e)
    (options'' : ParseOptions) :
    ∃ t, whole.parse options'' = .ok t ∧ t.map untag = d.below e := by
  have hsize : first.byteCount < UInt32.size ∧ second.byteCount < UInt32.size := by
    simp only [byteCount, hbody, String.utf8ByteSize_append] at hfits ⊢
    omega
  obtain ⟨hd, ts, last, hts, hlast, hyield⟩ := parse_sound (tokens_isStream hsize.1) hfirst
  obtain ⟨he, us, last', hus, hlast', hyield'⟩ := parse_sound (tokens_isStream hsize.2) hsecond
  refine parse_complete (tokens_isStream hfits) options'' (hd.below he)
    (tokens_below hbody hfits hts hlast hus hlast') rfl ?_
  rw [Document.yield_below, map_lexeme_below, hyield, hyield']

/-- Two texts that are schemas are a schema together. -/
theorem parseSchema_below (hbody : whole.body = first.body ++ "\n" ++ second.body)
    (hfits : whole.byteCount < UInt32.size) {d e : SchemaDocument Tag}
    (hfirst : first.parseSchema options = .ok d) (hsecond : second.parseSchema options' = .ok e)
    (options'' : ParseOptions) :
    ∃ t, whole.parseSchema options'' = .ok t ∧ t.map untag = d.below e := by
  have hsize : first.byteCount < UInt32.size ∧ second.byteCount < UInt32.size := by
    simp only [byteCount, hbody, String.utf8ByteSize_append] at hfits ⊢
    omega
  obtain ⟨hd, ts, last, hts, hlast, hyield⟩ := parseSchema_sound (tokens_isStream hsize.1) hfirst
  obtain ⟨he, us, last', hus, hlast', hyield'⟩ :=
    parseSchema_sound (tokens_isStream hsize.2) hsecond
  refine parseSchema_complete (tokens_isStream hfits) options'' (hd.below he)
    (tokens_below hbody hfits hts hlast hus hlast') rfl ?_
  rw [SchemaDocument.yield_below, map_lexeme_below, hyield, hyield']

/-- Parsing respects that texts are put together: if each of two texts is accepted, then so is
the first one with a line feed and the second one behind it, and its definitions are those of the
first text, followed by those of the second. -/
theorem parsing_respects_concatenation (first second : Source) (name : String)
    (hfits : (Source.mk (first.body ++ "\n" ++ second.body) name).byteCount < UInt32.size)
    (options options' options'' : ParseOptions) :
    (∀ d e, first.parse options = .ok d → second.parse options' = .ok e →
        ∃ t, (Source.mk (first.body ++ "\n" ++ second.body) name).parse options'' = .ok t ∧
          t.definitions.map (Definition.map untag) =
            d.definitions.map (Definition.map untag) ++ e.definitions.map (Definition.map untag)) ∧
      ∀ d e, first.parseSchema options = .ok d → second.parseSchema options' = .ok e →
        ∃ t, (Source.mk (first.body ++ "\n" ++ second.body) name).parseSchema options'' = .ok t ∧
          t.definitions.map (SchemaDefinition.map untag) =
            d.definitions.map (SchemaDefinition.map untag) ++
              e.definitions.map (SchemaDefinition.map untag) := by
  constructor
  · intro d e hfirst hsecond
    obtain ⟨t, hparse, ht⟩ := parse_below rfl hfits hfirst hsecond options''
    refine ⟨t, hparse, ?_⟩
    rw [← List.map_append]
    exact congrArg Document.definitions ht
  · intro d e hfirst hsecond
    obtain ⟨t, hparse, ht⟩ := parseSchema_below rfl hfits hfirst hsecond options''
    refine ⟨t, hparse, ?_⟩
    rw [← List.map_append]
    exact congrArg SchemaDocument.definitions ht

/-- A result that is not an error is the success of something. -/
private theorem exists_eq_ok {ε β : Type} {x : Except ε β} (h : x.toBool = true) :
    ∃ b, x = .ok b := by
  cases x with
  | ok b => exact ⟨b, rfl⟩
  | error e => cases h

/-- A text that ends in a comment, above one that begins with a bare selection; and a union, which
nothing marks the end of, above a definition that begins with a name. -/
theorem parsing_respects_concatenation_comment :
    let query := Source.mk "\x7ba\x7d #b" ""
    let union := Source.mk "union A=B" ""
    let scalar := Source.mk "scalar C" ""
    (∃ d t, query.parse {} = .ok d ∧ (Source.mk "\x7ba\x7d #b\n\x7ba\x7d #b" "").parse {} = .ok t ∧
        t.definitions.map (Definition.map untag) =
          d.definitions.map (Definition.map untag) ++ d.definitions.map (Definition.map untag)) ∧
      ∃ d e t, union.parseSchema {} = .ok d ∧ scalar.parseSchema {} = .ok e ∧
        (Source.mk "union A=B\nscalar C" "").parseSchema {} = .ok t ∧
          t.definitions.map (SchemaDefinition.map untag) =
            d.definitions.map (SchemaDefinition.map untag) ++
              e.definitions.map (SchemaDefinition.map untag) := by
  intro query union scalar
  obtain ⟨d, hd⟩ := exists_eq_ok (x := query.parse {}) (by decide +kernel)
  obtain ⟨e, he⟩ := exists_eq_ok (x := union.parseSchema {}) (by decide +kernel)
  obtain ⟨e', he'⟩ := exists_eq_ok (x := scalar.parseSchema {}) (by decide +kernel)
  obtain ⟨t, ht⟩ := (parsing_respects_concatenation query query "" (by decide) {} {} {}).1 d d hd hd
  obtain ⟨t', ht'⟩ :=
    (parsing_respects_concatenation union scalar "" (by decide) {} {} {}).2 e e' he he'
  exact ⟨⟨d, t, hd, ht⟩, e, e', t', he, he', ht'⟩

end Source

end GraphQLSyntax
