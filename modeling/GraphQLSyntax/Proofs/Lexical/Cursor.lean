import GraphQLSyntax.Proofs.Lexical.Stream

/-!
# Iterating a cursor

A cursor remembers an offset and no text, and looks the offset up each time.  What it finds
there is the text behind the last token, as long as offsets do not wrap around.  So
iteration yields the same, in bodies of any length, as reading on with the text at hand.
-/

namespace GraphQLSyntax

theorem exists_append_of_dropBytes? {n : Nat} {cs rest : List Char}
    (h : dropBytes? n cs = some rest) (hn : n ≤ byteLength cs) :
    ∃ before, cs = before ++ rest ∧ byteLength before = n := by
  induction cs generalizing n with
  | nil =>
    obtain rfl : n = 0 := Nat.le_zero.1 hn
    obtain rfl := Option.some.inj h
    exact ⟨[], rfl, rfl⟩
  | cons c cs ih =>
    cases n with
    | zero =>
      obtain rfl := Option.some.inj h
      exact ⟨[], rfl, rfl⟩
    | succ n =>
      rw [byteLength_cons] at hn
      rw [dropBytes?] at h
      split at h
      case isTrue hsize =>
        obtain ⟨before, rfl, hbefore⟩ := ih h (by omega)
        exact ⟨c :: before, rfl, by rw [byteLength_cons]; omega⟩
      case isFalse => cases h

namespace Source

variable {source : Source} {offset : Nat} {scanned : Scanned}

/-- What is scanned at an offset is what the text that begins there begins with. -/
theorem scanAt_byteLength {before rest : List Char} (hchars : source.chars = before ++ rest) :
    source.scanAt (byteLength before) = scan (byteLength before) rest := by
  have hcount := source.byteCount_eq
  rw [hchars, byteLength_append] at hcount
  rw [scanAt]
  by_cases hrest : rest = []
  · subst hrest
    rw [if_pos (by rw [hcount]; exact Nat.le_refl _)]
    rfl
  · have := byteLength_pos hrest
    rw [if_neg (by omega), hchars, dropBytes?_byteLength_append]

theorem exists_scan_of_scanAt (h : source.scanAt offset = .ok scanned)
    (hkind : scanned.lexeme.kind ≠ .eof) :
    ∃ before rest, source.chars = before ++ rest ∧ byteLength before = offset ∧
      scan offset rest = .ok scanned := by
  rw [scanAt] at h
  split at h
  case isTrue =>
    obtain rfl := Except.ok.inj h
    exact absurd rfl hkind
  case isFalse hinside =>
    rw [byteCount_eq] at hinside
    split at h
    case h_1 rest hrest =>
      obtain ⟨before, hchars, hbefore⟩ := exists_append_of_dropBytes? hrest (by omega)
      exact ⟨before, rest, hchars, hbefore, h⟩
    case h_2 => cases h

/-- Behind a token, the text at hand is the text that is looked up. -/
theorem scan_rest (h : source.scanAt offset = .ok scanned) (hkind : scanned.lexeme.kind ≠ .eof) :
    scan scanned.stop scanned.rest = source.scanAt scanned.stop := by
  obtain ⟨before, rest, hchars, rfl, hscan⟩ := exists_scan_of_scanAt h hkind
  obtain ⟨ignored, after, rfl, hcovers⟩ := scan_covers hscan
  obtain ⟨text, rfl, hstop, -⟩ := hcovers.exists_text
  have hlength : scanned.stop = byteLength (before ++ ignored ++ text) := by
    rw [hstop, byteLength_append, byteLength_append]
  rw [hlength]
  refine (scanAt_byteLength ?_).symm
  rw [hchars, List.append_assoc, List.append_assoc]

/-- Reading on goes from the end of a token, as far as 32 bits count. -/
theorem readOn_succ (limit : Nat) (h : source.scanAt offset = .ok scanned)
    (hkind : scanned.lexeme.kind ≠ .eof) :
    source.readOn (limit + 1) (source.scanAt offset) =
      .ok scanned.token :: source.readOn limit (source.scanAt scanned.token.stop.toNat) := by
  rw [h, readOn, if_neg (by simpa [Scanned.token, Token.kind] using hkind)]
  split
  case isTrue hstop => rw [scan_rest h hkind, hstop]
  case isFalse => rfl

theorem tokens_eq_readOn_scanAt (source : Source) :
    source.tokens = source.readOn (source.byteCount + 1) (source.scanAt 0) := by
  have hstart : source.scanAt 0 = scan 0 source.chars :=
    scanAt_byteLength (List.nil_append source.chars).symm
  rw [tokens, hstart]

end Source

namespace TokenCursor

variable {cursor : TokenCursor}

theorem take_of_finished (h : cursor.finished = true) (limit : Nat) :
    cursor.take limit = ([], cursor) := by
  cases limit with
  | zero => rfl
  | succ limit => rw [take, next?, if_pos h]

/-- A step of iteration yields what is read where the cursor is. -/
theorem take_succ (hgoes : cursor.finished = false) (limit : Nat) :
    (cursor.take (limit + 1)).1 = cursor.read.1 ::
      (take { cursor.read.2 with finished := cursor.read.1.isLast } limit).1 := by
  rw [take, next?, if_neg (by rw [hgoes]; exact Bool.false_ne_true)]

theorem read_of_ok {scanned : Scanned}
    (h : cursor.source.scanAt cursor.position.toNat = .ok scanned) :
    cursor.read = (.ok scanned.token, { cursor with position := scanned.token.stop }) := by
  rw [read, Source.readToken, h]
  rfl

theorem read_of_error {fault : Fault}
    (h : cursor.source.scanAt cursor.position.toNat = .error fault) :
    cursor.read = (.error fault, cursor) := by
  rw [read, Source.readToken, h]
  rfl

/-- Iterating a cursor yields what is yielded by reading on from where it is. -/
theorem take_eq_readOn (hgoes : cursor.finished = false) (limit : Nat) :
    (cursor.take limit).1 =
      cursor.source.readOn limit (cursor.source.scanAt cursor.position.toNat) := by
  induction limit generalizing cursor with
  | zero => rfl
  | succ limit ih =>
    rw [take_succ hgoes]
    cases hscan : cursor.source.scanAt cursor.position.toNat with
    | error fault =>
      rw [read_of_error hscan, take_of_finished rfl]
      rfl
    | ok scanned =>
      rw [read_of_ok hscan]
      by_cases hkind : scanned.lexeme.kind = .eof
      · have hlast : (scanned.token.kind == .eof) = true := beq_iff_eq.2 hkind
        rw [Source.readOn, if_pos hlast, take_of_finished hlast]
      · rw [← hscan, Source.readOn_succ limit hscan hkind, ih (beq_eq_false_iff_ne.2 hkind)]

/-- Iterating a cursor at the start of a source yields the tokens of the source. -/
theorem take_eq_tokens (source : Source) :
    (take { source } (source.byteCount + 1)).1 = source.tokens := by
  rw [take_eq_readOn rfl, source.tokens_eq_readOn_scanAt]
  rfl

end TokenCursor

end GraphQLSyntax
