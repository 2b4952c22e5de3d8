import GraphQLSyntax.Proofs.Bounds.Strings

/-!
# Tokens byte by byte

From any offset, the steps of reading come to what reading comes to: at or behind the end there
is the end, inside a character there is a fault, and anywhere else the next token is read.
-/

namespace GraphQLSyntax

namespace ByteReader

variable {reader : ByteReader} {offset start : Nat} {c : Char} {cs rest : List Char}

/-! ## Between characters -/

theorem unexpectedCharacter_eq (h : RestAt reader.chars start (c :: rest)) :
    reader.unexpectedCharacter start = .atOffset start (.unexpectedCharacter c) := by
  rw [unexpectedCharacter, h.textFrom_eq]
  rfl

theorem seesDots_iff :
    [0x2E, 0x2E].isPrefixOf (encodeChars cs) = true ↔ cs.take 2 = ['.', '.'] := by
  have hascii : ∀ a ∈ ['.', '.'], a.toNat < 0x80 :=
    List.forall_mem_cons.2 ⟨by decide, List.forall_mem_cons.2 ⟨by decide, nofun⟩⟩
  rw [List.isPrefixOf_iff_prefix]
  refine (prefix_encodeChars_iff hascii).trans ?_
  rw [List.prefix_iff_eq_take]
  exact eq_comm

theorem isAsciiTest_isNameStart : IsAsciiTest isNameStart :=
  fun c hc => isAsciiTest_isNameRest c (isNameRest_of_isNameStart hc)

theorem ofPunctuator?_eq_none {c : Char} (h : 0x80 ≤ c.toNat) :
    TokenKind.ofPunctuator? c = none := by
  rw [Option.eq_none_iff_forall_ne_some]
  intro kind hkind
  have hsize := Char.utf8Size_eq_one_iff.1 (ofPunctuator?_hasValue hkind).1
  exact Nat.not_lt.2 h (Nat.lt_succ_of_le (UInt32.le_iff_toNat_le.1 hsize))

/-- Where no ignored text comes next, the steps come to the token that is scanned. -/
theorem readAt_eq (h : RestAt reader.chars start cs) :
    reader.readAt start = answer (scanToken start cs) Scanned.token := by
  cases cs with
  | nil =>
    have hnone : reader.bytes[start]? = none := h.getElem?_eq 0
    rw [readAt, hnone]
    rfl
  | cons c cs =>
    obtain ⟨b, hb, hlead⟩ := exists_lead h
    have hkind : TokenKind.ofPunctuator? (Char.ofUInt8 b) = TokenKind.ofPunctuator? c :=
      hlead.apply_eq fun _ => ofPunctuator?_eq_none
    rw [readAt, hb, scanToken]
    simp only [hkind, hlead.test_eq isAsciiTest_isNameStart, hlead.test_eq isAsciiTest_isDigit,
      hlead.eq_iff (show '.'.toNat < 0x80 by decide),
      hlead.eq_iff (show '-'.toNat < 0x80 by decide),
      hlead.eq_iff (show '"'.toNat < 0x80 by decide), unexpectedCharacter_eq h]
    cases TokenKind.ofPunctuator? c with
    | some kind => rfl
    | none =>
      simp only []
      by_cases hdot : c = '.'
      · subst hdot
        have hnext : RestAt reader.chars (start + 1) cs := h.cons
        simp only [if_true, hnext.bytesFrom_eq, liftM_some, pure_bind, seesDots_iff]
        by_cases hdots : cs.take 2 = ['.', '.']
        · rw [if_pos hdots, if_pos (by simpa using hdots)]
          rfl
        · rw [if_neg hdots, if_neg (by simpa using hdots), if_neg (by decide), if_neg (by decide),
            if_neg (by decide), answer_error]
      rw [if_neg hdot, if_neg fun htest => hdot (beq_iff_eq.1 (Bool.and_eq_true_iff.1 htest).1)]
      by_cases hstarts : isNameStart c = true
      · rw [if_pos hstarts, if_pos hstarts, readName_eq h hstarts]
        rfl
      rw [if_neg hstarts, if_neg hstarts]
      have hiff : (c == '-' || c.isDigit) = true ↔ c = '-' ∨ c.isDigit = true := by
        rw [Bool.or_eq_true, beq_iff_eq]
      by_cases hnumber : c = '-' ∨ c.isDigit = true
      · rw [if_pos hnumber, if_pos (hiff.2 hnumber), readNumber_eq h]
      rw [if_neg hnumber, if_neg (mt hiff.1 hnumber)]
      by_cases hquote : c = '"'
      · subst hquote
        rw [if_pos rfl, readString_eq h]
        rfl
      · rw [if_neg hquote, if_neg (mt beq_iff_eq.1 hquote), answer_error]

/-- From a place between characters, the steps come to the first token that is scanned. -/
theorem read_eq_of_restAt (hsearch : reader.search.FindsFirst) (h : RestAt reader.chars offset cs) :
    reader.read offset = answer (scan offset cs) Scanned.token := by
  cases hskip : skipIgnored false offset cs with
  | mk start rest =>
    obtain ⟨hpass, hrest⟩ := passIgnored_eq hsearch h hskip
    rw [read, hpass, scan, hskip, liftM_some, pure_bind, readAt_eq hrest]

/-! ## From other offsets -/

theorem passIgnored_of_none (h : reader.bytes[offset]? = none) :
    reader.passIgnored offset = some offset := by
  have hlast : reader.ignoredStep offset = some (.inr offset) := by
    rw [ignoredStep, h]
  exact Ends.loop_eq (.last hlast) (Nat.le_add_left _ _)

section Continuation

variable {b : UInt8} (hb : reader.bytes[offset]? = some b) (hcontinues : isContinuation b = true)
include hb hcontinues

/-- A byte inside a character is not ignored. -/
theorem passIgnored_of_continuation : reader.passIgnored offset = some offset := by
  have hbeyond := toNat_of_isContinuation hcontinues
  have hne : ∀ lead, isContinuation lead = false → b ≠ lead := by
    rintro lead hlead rfl
    rw [hcontinues] at hlead
    cases hlead
  have hlast : reader.ignoredStep offset = some (.inr offset) := by
    rw [ignoredStep, hb]
    simp only [isAsciiTest_isShortBlank.ofUInt8_eq_false hbeyond, hne 0xC2 (by decide),
      seesSeparator, if_neg (hne 0xE2 (by decide)), Bool.false_eq_true, false_and, if_false,
      ofUInt8_ne (show '#'.toNat < 0x80 by decide) hbeyond]
    rfl
  exact Ends.loop_eq (.last hlast) (Nat.le_add_left _ _)

/-- No token begins inside a character. -/
theorem readAt_of_continuation :
    reader.readAt offset = throw (reader.unexpectedCharacter offset) := by
  have hbeyond := toNat_of_isContinuation hcontinues
  rw [readAt, hb]
  simp only [apply_ofUInt8 (fun _ => ofPunctuator?_eq_none) hbeyond,
    isAsciiTest_isNameStart.ofUInt8_eq_false hbeyond, isAsciiTest_isDigit.ofUInt8_eq_false hbeyond,
    ofUInt8_ne (show '.'.toNat < 0x80 by decide) hbeyond,
    ofUInt8_ne (show '-'.toNat < 0x80 by decide) hbeyond,
    ofUInt8_ne (show '"'.toNat < 0x80 by decide) hbeyond, Bool.false_eq_true, or_self, if_false]

end Continuation

/-- From any offset, the steps of reading come to what is read there. -/
theorem read_eq (source : Source) {search : ByteSearch} (hsearch : search.FindsFirst)
    (offset : Nat) :
    (ByteReader.mk search source.body).read offset =
      answer (source.scanAt offset) Scanned.token := by
  generalize hreader : ByteReader.mk search source.body = reader
  have hchars : reader.chars = source.chars := by rw [← hreader]; rfl
  have hsearch : reader.search.FindsFirst := by rwa [← hreader]
  have hcount : source.byteCount = byteLength reader.chars := hchars ▸ source.byteCount_eq
  rw [Source.scanAt]
  by_cases hend : source.byteCount ≤ offset
  · have hnone : reader.bytes[offset]? = none :=
      List.getElem?_eq_none (by rwa [length_encodeChars, ← hcount])
    rw [if_pos hend, read, passIgnored_of_none hnone, liftM_some, pure_bind, readAt, hnone]
    rfl
  rw [if_neg hend]
  obtain ⟨c, rest, h⟩ | ⟨hdrop, htake, b, hb, hcontinues⟩ :=
    exists_restAt_or reader.chars (by omega : offset < byteLength reader.chars)
  · rw [← hchars, h.dropBytes?_eq, read_eq_of_restAt hsearch h]
  · have hcut : textFrom reader.chars offset = none := by rw [textFrom, htake, Option.map_none]
    rw [← hchars, hdrop, read, passIgnored_of_continuation hb hcontinues, liftM_some, pure_bind,
      readAt_of_continuation hb hcontinues, unexpectedCharacter, hcut]
    rfl

end ByteReader

end GraphQLSyntax
