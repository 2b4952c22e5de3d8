import Mathlib.Data.List.Basic
import GraphQLSyntax.Proofs.Lexical.Cursor
import GraphQLSyntax.Proofs.Lexical.Division
import GraphQLSyntax.Proofs.Lexical.Segment

/-!
# Tokens tile a source

The tokens of a source and what is ignored between them make up its text, piece by piece,
up to the end or to the first fault.  So no character is lost, and none is read twice.
-/

namespace GraphQLSyntax

/-- From the offset on, the text is made up of the texts of the tokens, each with what is
ignored before it; after them there is nothing but ignored text before the end, or there is
a fault. -/
inductive TilesText : Nat → List Char → List Token → Reading → Prop
  | eof {offset : Nat} {gap : List Char} {token : Token} (hlexeme : token.lexeme = .bare .eof)
      (hgap : Ignored [] gap) (hstart : token.start.toNat = offset + byteLength gap)
      (hstop : token.stop = token.start) : TilesText offset gap [] (.ok token)
  | fault (offset : Nat) (cs : List Char) {fault : Fault}
      (hlexical : fault.cause.category = .lexical) : TilesText offset cs [] (.error fault)
  | token {offset : Nat} {gap text rest : List Char} {token : Token} {ts : List Token}
      {last : Reading} (hgap : Ignored (text ++ rest) gap)
      (htext : token.lexeme.HasText text rest)
      (hstart : token.start.toNat = offset + byteLength gap)
      (hstop : token.stop.toNat = offset + byteLength (gap ++ text))
      (hrest : TilesText token.stop.toNat rest ts last) :
      TilesText offset (gap ++ text ++ rest) (token :: ts) last

namespace TilesText

variable {offset : Nat} {cs : List Char} {ts : List Token} {last : Reading} {token : Token}

/-- Every token takes up at least one byte. -/
theorem length_le (h : TilesText offset cs ts last) : ts.length ≤ byteLength cs := by
  induction h with
  | eof | fault => exact Nat.zero_le _
  | token _ htext _ _ _ ih =>
    have := byteLength_pos htext.ne_nil
    rw [byteLength_append, byteLength_append, List.length_cons]
    omega

/-- The end stands behind the last byte. -/
theorem start_of_last (h : TilesText offset cs ts last) (hlast : last = .ok token) :
    token.lexeme = .bare .eof ∧ token.start.toNat = offset + byteLength cs ∧
      token.stop = token.start := by
  induction h with
  | eof hlexeme _ hstart hstop =>
    obtain rfl := Except.ok.inj hlast
    exact ⟨hlexeme, hstart, hstop⟩
  | fault => cases hlast
  | token _ _ _ hstop _ ih =>
    obtain ⟨hlexeme, hend, heq⟩ := ih hlast
    refine ⟨hlexeme, ?_, heq⟩
    rw [hend, hstop, byteLength_append (_ ++ _), Nat.add_assoc]

theorem last_lexical (h : TilesText offset cs ts last) {fault : Fault}
    (hlast : last = .error fault) : fault.cause.category = .lexical := by
  induction h with
  | eof => cases hlast
  | fault _ _ hlexical =>
    obtain rfl := Except.error.inj hlast
    exact hlexical
  | token _ _ _ _ _ ih => exact ih hlast

/-- The tokens come one after the other. -/
theorem inOrder (h : TilesText offset cs ts last) :
    Token.InOrder ts ∧ ∀ t ∈ ts, offset ≤ t.start.toNat := by
  induction h with
  | eof | fault => exact ⟨⟨List.forall_mem_nil _, .nil⟩, List.forall_mem_nil _⟩
  | token _ htext hstart hstop _ ih =>
    obtain ⟨hts, hafter⟩ := ih
    have hsize := byteLength_pos htext.ne_nil
    rw [byteLength_append] at hstop
    refine ⟨⟨List.forall_mem_cons.2 ⟨?_, hts.nonempty⟩, .cons (fun t ht => ?_) hts.apart⟩,
      List.forall_mem_cons.2 ⟨by omega, fun t ht => ?_⟩⟩
    · rw [UInt32.lt_iff_toNat_lt]
      omega
    · exact UInt32.le_iff_toNat_le.2 (hafter t ht)
    · have := hafter t ht
      omega

/-- Every token has a text of its own, at the place that it says. -/
theorem exists_text (h : TilesText offset cs ts last) (htoken : token ∈ ts) :
    ∃ before text after, cs = before ++ text ++ after ∧ token.lexeme.HasText text after ∧
      token.start.toNat = offset + byteLength before ∧
      token.stop.toNat = offset + byteLength (before ++ text) := by
  induction h with
  | eof | fault => cases htoken
  | @token _ gap text rest _ _ _ _ htext hstart hstop _ ih =>
    cases htoken with
    | head => exact ⟨gap, text, rest, rfl, htext, hstart, hstop⟩
    | tail _ htoken =>
      obtain ⟨before, text', after, rfl, htext', hstart', hstop'⟩ := ih htoken
      refine ⟨gap ++ text ++ before, text', after, by simp, htext', ?_, ?_⟩
      · rw [hstart', hstop, byteLength_append (gap ++ text), Nat.add_assoc]
      · rw [hstop', hstop, List.append_assoc (gap ++ text), byteLength_append (gap ++ text),
          Nat.add_assoc]

end TilesText

/-! ## Reading tiles -/

/-- Reading on from any place yields tokens that tile what is left of the text. -/
theorem Source.exists_tilesText {source : Source} (hfits : source.byteCount < UInt32.size)
    {offset : Nat} {cs : List Char} (hoffset : offset + byteLength cs = source.byteCount) :
    ∃ (ts : List Token) (last : Reading), TilesText offset cs ts last ∧
      ∀ limit, source.readOn limit (scan offset cs) = (ts.map Except.ok ++ [last]).take limit := by
  induction hsize : byteLength cs using Nat.strongRecOn generalizing offset cs with
  | ind size ih =>
    have htoNat : ∀ {n : Nat}, n ≤ source.byteCount → (UInt32.ofNat n).toNat = n :=
      fun hn => UInt32.toNat_ofNat_of_lt' (Nat.lt_of_le_of_lt hn hfits)
    cases hscan : scan offset cs with
    | error fault =>
      refine ⟨[], .error fault, .fault _ _ (scan_lexical hscan), fun limit => ?_⟩
      cases limit with
      | zero => rfl
      | succ limit => simp [readOn]
    | ok scanned =>
      obtain ⟨heof, -, -, hread⟩ | ⟨hkind, -, hrest, hless, hread⟩ :=
        readOn_step hfits hoffset hscan
      · obtain ⟨hgap, hend⟩ := ignored_of_scan hscan (congrArg Lexeme.kind heof)
        refine ⟨[], .ok scanned.token, .eof heof hgap ?_ ?_, fun limit => ?_⟩
        · rw [hend]
          exact htoNat (Nat.le_of_eq hoffset)
        · rw [hend]
          rfl
        · cases limit with
          | zero => rfl
          | succ limit =>
            rw [← hscan, hread]
            simp
      · obtain ⟨gap, text, rfl, hgap, htext, hstart, hstop⟩ := divides_of_scan hscan hkind
        obtain ⟨ts, last, htiles, hreads⟩ := ih _ (by omega) hrest rfl
        have hstop' : scanned.token.stop.toNat = scanned.stop := htoNat (by omega)
        refine ⟨scanned.token :: ts, last, .token hgap htext ?_ (hstop'.trans hstop) ?_,
          fun limit => ?_⟩
        · rw [← hstart]
          simp only [byteLength_append] at hoffset hstop
          exact htoNat (by omega)
        · rwa [hstop']
        · cases limit with
          | zero => rfl
          | succ limit =>
            rw [← hscan, hread, hreads]
            rfl

/-- The tokens and the last reading are how the source divides.  Besides the tiling itself:
there are no more tokens than bytes, they span something and do not overlap, each has its
text between characters of the source, and the last reading is the end, behind the last
byte, or a fault of the lexer. -/
structure Source.TiledBy (source : Source) (ts : List Token) (last : Reading) : Prop where
  tiles : TilesText 0 source.chars ts last
  length_le : (ts.map Except.ok ++ [last]).length ≤ source.byteCount + 1
  inOrder : Token.InOrder ts
  exists_text : ∀ t ∈ ts, ∃ before text after, source.chars = before ++ text ++ after ∧
    t.lexeme.HasText text after ∧ t.start.toNat = byteLength before ∧
    t.stop.toNat = byteLength (before ++ text)
  last_eq : (∃ token, last = .ok token ∧ token.lexeme = .bare .eof ∧
      token.start.toNat = source.byteCount ∧ token.stop.toNat = source.byteCount) ∨
    ∃ fault, last = .error fault ∧ fault.cause.category = .lexical

theorem Source.tiledBy_of_tilesText {source : Source} {ts : List Token} {last : Reading}
    (h : TilesText 0 source.chars ts last) : source.TiledBy ts last where
  tiles := h
  length_le := by
    have := h.length_le
    rw [← source.byteCount_eq] at this
    simpa using this
  inOrder := h.inOrder.1
  exists_text t ht := by simpa using h.exists_text ht
  last_eq := by
    cases hlast : last with
    | ok token =>
      obtain ⟨hlexeme, hstart, hstop⟩ := h.start_of_last hlast
      rw [Nat.zero_add, ← source.byteCount_eq] at hstart
      exact .inl ⟨token, rfl, hlexeme, hstart, hstop ▸ hstart⟩
    | error fault => exact .inr ⟨fault, rfl, h.last_lexical hlast⟩

/-- The tokens that iterating a cursor yields tile the source that it was put on, and then
iteration has come to its end. -/
theorem TokenCursor.take_tiles {source : Source} (hfits : source.byteCount < UInt32.size) :
    ∃ (ts : List Token) (last : Reading), source.TiledBy ts last ∧
      ∀ limit, (take { source } limit).1 = (ts.map Except.ok ++ [last]).take limit := by
  have hoffset : 0 + byteLength source.chars = source.byteCount := by
    rw [Nat.zero_add, source.byteCount_eq]
  obtain ⟨ts, last, htiles, hreads⟩ := Source.exists_tilesText hfits hoffset
  refine ⟨ts, last, Source.tiledBy_of_tilesText htiles, fun limit => ?_⟩
  have hstart : source.scanAt 0 = scan 0 source.chars :=
    Source.scanAt_byteLength (List.nil_append source.chars).symm
  rw [take_eq_readOn rfl, ← hreads, ← hstart]
  rfl

/-- A name and a brace with a comment between them. -/
theorem TokenCursor.take_tiles_comment :
    (Source.mk "a #b\n\x7b" "").byteCount < UInt32.size ∧
      ∃ (ts : List Token) (last : Reading), (Source.mk "a #b\n\x7b" "").TiledBy ts last ∧
        ts.map Except.ok ++ [last] =
          [.ok ⟨.ofName "a", 0, 1⟩, .ok ⟨.bare .braceOpen, 5, 6⟩, .ok ⟨.bare .eof, 6, 6⟩] := by
  have hfits : (Source.mk "a #b\n\x7b" "").byteCount < UInt32.size := by decide
  obtain ⟨ts, last, htiled, htake⟩ := take_tiles hfits
  refine ⟨hfits, ts, last, htiled, ?_⟩
  have hall := htake ((Source.mk "a #b\n\x7b" "").byteCount + 1)
  rw [List.take_of_length_le htiled.length_le] at hall
  rw [← hall]
  decide +kernel

end GraphQLSyntax
