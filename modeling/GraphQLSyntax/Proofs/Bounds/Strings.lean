import GraphQLSyntax.Proofs.Bounds.Escapes

/-!
# Strings byte by byte

The contents of a string are passed byte by byte, which leads through the inside of characters.
Texts are cut out where they begin, behind the opening quotation mark and behind escape
sequences, and where they end, at backslashes and at the closing quotation mark.  None of these
places is inside a character, because none of these bytes is.
-/

namespace GraphQLSyntax

namespace ByteReader

variable {reader : ByteReader} {cursor : StringCursor} {c : Char} {cs rest : List Char}

/-! ## One step -/

/-- Between characters, a step goes by the next character. -/
theorem stringStep_eq (h : RestAt reader.chars cursor.offset (c :: rest)) :
    reader.stringStep cursor =
      if c = '"' then some (.inr (.ok cursor))
      else if isLineTerminator c then
        some (.inr (.error (.atOffset cursor.offset .unterminatedString)))
      else if c = '\\' then reader.escapeStep cursor
      else some (.inl { cursor with offset := cursor.offset + 1 }) := by
  obtain ⟨b, hb, hlead⟩ := exists_lead h
  rw [stringStep, hb]
  simp only [seesSeparator_eq h hb, hlead.eq_iff (show '"'.toNat < 0x80 by decide),
    hlead.eq_iff (show '\n'.toNat < 0x80 by decide),
    hlead.eq_iff (show '\r'.toNat < 0x80 by decide),
    hlead.eq_iff (show '\\'.toNat < 0x80 by decide)]
  by_cases hquote : c = '"'
  · rw [if_pos hquote, if_pos hquote]
  rw [if_neg hquote, if_neg hquote]
  by_cases hshort : c = '\n' ∨ c = '\r'
  · have hline : isLineTerminator c = true := by
      obtain rfl | rfl := hshort <;> rfl
    rw [if_pos hshort, if_pos hline]
  rw [if_neg hshort]
  by_cases hseparator : c = '\u2028' ∨ c = '\u2029'
  · have hline : isLineTerminator c = true := by
      obtain rfl | rfl := hseparator <;> rfl
    rw [if_pos hline, decide_eq_true hseparator]
    rfl
  · have hline : ¬ isLineTerminator c = true := by
      rw [isLineTerminator_iff]
      simp only [EndsLine, List.mem_cons, List.not_mem_nil, or_false]
      exact fun hc => (or_assoc.2 hc).elim hshort hseparator
    rw [if_neg hline, decide_eq_false hseparator]
    rfl

/-- At a backslash, a step goes by the escape sequence behind it. -/
theorem stringStep_backslash (h : RestAt reader.chars cursor.offset ('\\' :: rest)) :
    reader.stringStep cursor = reader.escapeStep cursor := by
  rw [stringStep_eq h, if_neg (by decide), if_neg (by decide), if_pos rfl]

/-- Inside a character, a step goes on by one byte. -/
theorem stringStep_continuation {b : UInt8} (hb : reader.bytes[cursor.offset]? = some b)
    (hcontinues : isContinuation b = true) :
    reader.stringStep cursor = some (.inl { cursor with offset := cursor.offset + 1 }) := by
  have hbeyond := toNat_of_isContinuation hcontinues
  have hne : b ≠ 0xE2 := by
    rintro rfl
    cases hcontinues
  rw [stringStep, hb]
  simp only [ofUInt8_ne (show '"'.toNat < 0x80 by decide) hbeyond,
    ofUInt8_ne (show '\n'.toNat < 0x80 by decide) hbeyond,
    ofUInt8_ne (show '\r'.toNat < 0x80 by decide) hbeyond,
    ofUInt8_ne (show '\\'.toNat < 0x80 by decide) hbeyond, seesSeparator, if_neg hne, or_self,
    if_false]
  rfl

/-! ## Whole characters -/

section

variable {limit n : Nat} {result : Except Fault StringCursor}

theorem stringStep_continuations
    (hbytes : ∀ k < n, ∃ b, reader.bytes[cursor.offset + k]? = some b ∧ isContinuation b = true)
    (hends : Ends reader.stringStep limit { cursor with offset := cursor.offset + n } result) :
    Ends reader.stringStep (limit + n) cursor result := by
  induction n generalizing cursor with
  | zero => exact hends
  | succ n ih =>
    obtain ⟨b, hb, hcontinues⟩ := hbytes 0 (Nat.succ_pos n)
    refine .next (stringStep_continuation hb hcontinues) (ih (fun k hk => ?_) ?_)
    · have := hbytes (k + 1) (Nat.succ_lt_succ hk)
      rwa [Nat.add_comm k, ← Nat.add_assoc] at this
    · rwa [Nat.add_comm n, ← Nat.add_assoc] at hends

/-- A character that is nothing but itself is passed in as many steps as it has bytes. -/
theorem stringStep_char (h : RestAt reader.chars cursor.offset (c :: rest)) (hquote : c ≠ '"')
    (hbackslash : c ≠ '\\') (hline : ¬ isLineTerminator c = true)
    (hends : Ends reader.stringStep limit { cursor with offset := cursor.offset + c.utf8Size }
      result) :
    Ends reader.stringStep (limit + c.utf8Size) cursor result := by
  obtain ⟨b, bs, heq, -, hbs⟩ := (isEncoding_utf8EncodeChar c).exists_cons
  have hsize : c.utf8Size = 1 + bs.length := by
    rw [← String.length_utf8EncodeChar, heq, List.length_cons, Nat.add_comm]
  have hstep := stringStep_eq h
  rw [if_neg hquote, if_neg hline, if_neg hbackslash] at hstep
  rw [hsize, ← Nat.add_assoc] at hends
  rw [hsize, Nat.add_comm 1, ← Nat.add_assoc]
  refine .next hstep (stringStep_continuations (fun k hk => ?_) hends)
  refine ⟨bs[k], ?_, hbs _ (List.getElem_mem hk)⟩
  rw [Nat.add_assoc, h.getElem?_eq, encodeChars_cons, heq, List.cons_append, Nat.add_comm 1,
    List.getElem?_cons_succ, List.getElem?_append_left hk, List.getElem?_eq_getElem hk]

end

/-! ## Contents -/

/-- What scanning the contents of a string comes to and where the steps come to are the same: a
fault, or a closing quotation mark with a text that is still to be taken over. -/
inductive StringAgrees (reader : ByteReader) :
    Except Fault (List Char × Nat × List Char) → Except Fault StringCursor → Prop
  | error (fault : Fault) : StringAgrees reader (.error fault) (.error fault)
  | ok {cursor : StringCursor} {chunk : List Char} (rest : List Char)
      (hchunk : textBetween reader.chars cursor.chunkStart cursor.offset = some chunk) :
      StringAgrees reader (.ok (cursor.decoded.getD [] ++ chunk, cursor.offset + 1, rest))
        (.ok cursor)

/-- The cursor has what scanning has decoded, the last part of it as a text that is still to be
taken over. -/
def Holds (reader : ByteReader) (cursor : StringCursor) (decoded cs : List Char) : Prop :=
  ∃ chunk, RestAt reader.chars cursor.chunkStart (chunk ++ cs) ∧
    cursor.offset = cursor.chunkStart + byteLength chunk ∧
      decoded.reverse = cursor.decoded.getD [] ++ chunk

namespace Holds

variable {decoded : List Char}

theorem restAt (h : reader.Holds cursor decoded cs) : RestAt reader.chars cursor.offset cs := by
  obtain ⟨chunk, hstart, hstop, -⟩ := h
  exact hstop ▸ hstart.append

theorem exists_chunk (h : reader.Holds cursor decoded cs) :
    ∃ chunk, textBetween reader.chars cursor.chunkStart cursor.offset = some chunk ∧
      decoded.reverse = cursor.decoded.getD [] ++ chunk := by
  obtain ⟨chunk, hstart, hstop, hdecoded⟩ := h
  exact ⟨chunk, hstop ▸ hstart.textBetween_eq, hdecoded⟩

theorem char (h : reader.Holds cursor decoded (c :: cs)) :
    reader.Holds { cursor with offset := cursor.offset + c.utf8Size } (c :: decoded) cs := by
  obtain ⟨chunk, hstart, hstop, hdecoded⟩ := h
  refine ⟨chunk ++ [c], by simpa using hstart, ?_, ?_⟩
  · simp [hstop, Nat.add_assoc]
  · simp [hdecoded]

/-- Behind an escape sequence, nothing is still to be taken over. -/
theorem escape {offset : Nat} {taken : List Char} (hrest : RestAt reader.chars offset cs)
    (htaken : decoded.reverse = taken) : reader.Holds ⟨offset, offset, some taken⟩ decoded cs :=
  ⟨[], hrest, rfl, by simpa using htaken⟩

end Holds

/-! ## Escape sequences -/

section

variable {decoded : List Char}

theorem stringStep_of_throw (h : reader.Holds cursor decoded ('\\' :: cs)) {fault : Fault}
    (hescape : reader.readEscape (cursor.offset + 1) = throw fault) :
    reader.stringStep cursor = some (.inr (.error fault)) := by
  obtain ⟨chunk, hchunk, -⟩ := h.exists_chunk
  rw [stringStep_backslash h.restAt, escapeStep, hchunk, hescape]
  rfl

theorem stringStep_unterminated (h : reader.Holds cursor decoded ['\\']) :
    reader.stringStep cursor =
      some (.inr (.error (.atOffset (cursor.offset + 1) .unterminatedString))) := by
  have hnone : reader.bytes[cursor.offset + 1]? = none := h.restAt.cons.getElem?_eq 0
  refine stringStep_of_throw h ?_
  rw [readEscape, hnone]

theorem stringStep_badEscape (h : reader.Holds cursor decoded ('\\' :: cs)) (hcs : cs ≠ [])
    (hescape : escape? cs = none) :
    reader.stringStep cursor = some (.inr (.error (.atOffset (cursor.offset + 1) .badEscape))) := by
  obtain ⟨d, cs, rfl⟩ := List.exists_cons_of_ne_nil hcs
  have hbehind : RestAt reader.chars (cursor.offset + 1) (d :: cs) := h.restAt.cons
  refine stringStep_of_throw h ?_
  rw [readEscape_eq hbehind, hescape]

/-- An escape sequence is passed in a single step, and what it means is decoded then. -/
theorem exists_stringStep_escape (h : reader.Holds cursor decoded ('\\' :: cs)) {n : Nat}
    (hescape : escape? cs = some (c, n)) :
    ∃ next, reader.stringStep cursor = some (.inl next) ∧ next.offset = cursor.offset + 1 + n ∧
      reader.Holds next (c :: decoded) (cs.drop n) := by
  obtain ⟨chunk, hchunk, hdecoded⟩ := h.exists_chunk
  obtain ⟨text, rest, rfl, rfl, hascii, -⟩ := escape?_readsAscii hescape
  have hbehind : RestAt reader.chars (cursor.offset + 1) (text ++ rest) := h.restAt.cons
  have hread : reader.readEscape (cursor.offset + 1) =
      pure (c, cursor.offset + 1 + text.length - 1) := by
    obtain ⟨d, cs, heq⟩ : ∃ d cs, text ++ rest = d :: cs := by
      refine List.exists_cons_of_ne_nil fun hnil => ?_
      rw [hnil] at hescape
      cases hescape
    rw [heq] at hbehind hescape
    rw [readEscape_eq hbehind, hescape]
  have hlast : cursor.offset + 1 + text.length - 1 + 1 = cursor.offset + 1 + text.length := by
    omega
  let last := cursor.offset + 1 + text.length - 1
  refine ⟨⟨last + 1, last + 1, some (cursor.decoded.getD [] ++ chunk ++ [c])⟩, ?_, hlast, ?_⟩
  · rw [stringStep_backslash h.restAt, escapeStep, hchunk, hread]
    rfl
  · rw [hlast, List.drop_left]
    exact .escape (hbehind.append_ascii hascii) (by rw [List.reverse_cons, hdecoded])

end

/-! ## The whole contents -/

/-- From where the cursor stands, the steps come to what scanning comes to. -/
theorem stringStep_ends {offset : Nat} {decoded : List Char} {cursor : StringCursor}
    (hoffset : cursor.offset = offset) (h : reader.Holds cursor decoded cs) {limit : Nat}
    (hlimit : byteLength cs < limit) :
    ∃ result, StringAgrees reader (scanContents offset decoded cs) result ∧
      Ends reader.stringStep limit cursor result := by
  obtain ⟨limit, rfl⟩ := Nat.exists_eq_add_of_lt hlimit
  clear hlimit
  fun_induction scanContents offset decoded cs generalizing cursor limit with
  | case1 offset decoded =>
    have hnone : reader.bytes[cursor.offset]? = none := h.restAt.getElem?_eq 0
    subst hoffset
    refine ⟨_, .error _, .last ?_⟩
    rw [stringStep, hnone]
  | case2 offset decoded c cs hquote =>
    obtain ⟨chunk, hchunk, hdecoded⟩ := h.exists_chunk
    subst hoffset
    rw [hdecoded]
    refine ⟨_, .ok cs hchunk, .last ?_⟩
    rw [stringStep_eq h.restAt, if_pos (beq_iff_eq.1 hquote)]
  | case3 offset decoded c cs hquote hline =>
    subst hoffset
    refine ⟨_, .error _, .last ?_⟩
    rw [stringStep_eq h.restAt, if_neg (mt beq_iff_eq.2 hquote), if_pos hline]
  | case4 offset decoded c cs hquote hline hbackslash hempty =>
    subst hoffset
    obtain rfl := beq_iff_eq.1 hbackslash
    obtain rfl := List.isEmpty_iff.1 hempty
    exact ⟨_, .error _, .last (stringStep_unterminated h)⟩
  | case5 offset decoded c cs hquote hline hbackslash hempty meant n hescape ih =>
    subst hoffset
    obtain rfl := beq_iff_eq.1 hbackslash
    obtain ⟨next, hstep, hnext, hholds⟩ := exists_stringStep_escape h hescape
    obtain ⟨result, hagrees, hends⟩ := ih hnext hholds (byteLength (cs.take n) + limit)
    refine ⟨result, hagrees, ?_⟩
    have hcs : byteLength (cs.take n) + byteLength (cs.drop n) = byteLength cs := by
      rw [← byteLength_append, List.take_append_drop]
    have hlimit : byteLength ('\\' :: cs) + limit + 1 =
        byteLength (cs.drop n) + (byteLength (cs.take n) + limit) + 1 + 1 := by
      rw [byteLength_cons, ← hcs, show '\\'.utf8Size = 1 by decide]
      omega
    rw [hlimit]
    exact .next hstep hends
  | case6 offset decoded c cs hquote hline hbackslash hempty hescape =>
    subst hoffset
    obtain rfl := beq_iff_eq.1 hbackslash
    exact ⟨_, .error _, .last (stringStep_badEscape h (mt List.isEmpty_iff.2 hempty) hescape)⟩
  | case7 offset decoded c cs hquote hline hbackslash ih =>
    subst hoffset
    obtain ⟨result, hagrees, hends⟩ := ih rfl h.char limit
    refine ⟨result, hagrees, ?_⟩
    have hlimit : byteLength (c :: cs) + limit + 1 = byteLength cs + limit + 1 + c.utf8Size := by
      rw [byteLength_cons]
      omega
    rw [hlimit]
    exact stringStep_char h.restAt (mt beq_iff_eq.2 hquote) (mt beq_iff_eq.2 hbackslash) hline hends

/-- The steps of reading a string come to what scanning it comes to. -/
theorem readString_eq {start : Nat} (h : RestAt reader.chars start ('"' :: cs)) :
    reader.readString start = answer (scanString start cs) Scanned.token := by
  have hnext : RestAt reader.chars (start + 1) cs := h.cons
  have hholds : reader.Holds ⟨start + 1, start + 1, none⟩ [] cs := ⟨[], hnext, rfl, rfl⟩
  obtain ⟨result, hagrees, hends⟩ := stringStep_ends rfl hholds (lt_limit hnext)
  rw [readString, hends.loop_eq (Nat.le_refl _), scanString]
  generalize scanContents (start + 1) [] cs = scanned at hagrees
  cases hagrees with
  | error fault => rfl
  | ok rest hchunk =>
    simp only [ok_bind, mk_some_ok, pure_bind, hchunk, liftM_some]
    rfl

end ByteReader

end GraphQLSyntax
