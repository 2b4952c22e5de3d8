import GraphQLSyntax.Proofs.Bounds.Words
import GraphQLSyntax.Proofs.Lexical.Decoding

/-!
# Escape sequences byte by byte

Escape sequences are looked at in windows of bytes, which may reach beyond the end or into a
character that does not belong to them.  A window that holds ASCII only is a window of as many
characters, and all that is looked for is ASCII.
-/

namespace GraphQLSyntax

/-! ## Windows of ASCII -/

/-- ASCII characters come first in the bytes if they come first in the text. -/
theorem prefix_encodeChars_iff {as cs : List Char} (has : ∀ a ∈ as, a.toNat < 0x80) :
    as.map Char.toUInt8 <+: encodeChars cs ↔ as <+: cs := by
  induction as generalizing cs with
  | nil => simp
  | cons a as ih =>
    obtain ⟨ha, has⟩ := List.forall_mem_cons.1 has
    cases cs with
    | nil => simp [encodeChars]
    | cons c cs =>
      obtain ⟨b, hb, hlead⟩ := exists_isLead c cs
      by_cases hc : a = c
      · subst hc
        rw [encodeChars_cons, String.utf8EncodeChar_eq_singleton (utf8Size_of_toNat ha)]
        simpa using ih has
      · have hne : b ≠ a.toUInt8 := by
          rintro rfl
          exact hc ((hlead.eq_iff ha).1 (ofUInt8_toUInt8 ha)).symm
        rw [← List.head?_eq_getElem?, List.head?_eq_some_iff] at hb
        obtain ⟨bs, hbs⟩ := hb
        rw [hbs, List.map_cons, List.cons_prefix_cons, List.cons_prefix_cons]
        exact iff_of_false (fun h => hne h.1.symm) fun h => hc h.1

theorem bytesBetween_zero_eq_some_iff {bytes window : List UInt8} {n : Nat} :
    bytesBetween bytes 0 n = some window ↔ window.length = n ∧ window <+: bytes := by
  rw [bytesBetween, Option.ite_none_right_eq_some, Option.some.injEq, List.drop_zero]
  constructor
  · rintro ⟨⟨-, hn⟩, rfl⟩
    exact ⟨List.length_take_of_le hn, List.take_prefix n bytes⟩
  · rintro ⟨rfl, hwindow⟩
    exact ⟨⟨Nat.zero_le _, hwindow.length_le⟩, (List.prefix_iff_eq_take.1 hwindow).symm⟩

/-! ## Hexadecimal digits -/

/-- The code that the first characters write in so many hexadecimal digits, which go on with a
code. -/
def hexRun? : Nat → Nat → List Char → Option Nat
  | 0, code, _ => some code
  | _ + 1, _, [] => none
  | n + 1, code, c :: cs => (hexDigit? c).bind fun d => hexRun? n (code * 16 + d) cs

theorem hexCode?_eq_hexRun? (cs : List Char) : hexCode? cs = hexRun? 4 0 cs := by
  rcases cs with _ | ⟨a, _ | ⟨b, _ | ⟨c, _ | ⟨d, cs⟩⟩⟩⟩
  all_goals simp [hexCode?, hexRun?]

theorem toNat_of_hexDigit? {c : Char} {d : Nat} (h : hexDigit? c = some d) : c.toNat < 0x80 :=
  have hsize := Char.utf8Size_eq_one_iff.1 (utf8Size_of_hexDigit? h)
  Nat.lt_succ_of_le (UInt32.le_iff_toNat_le.1 hsize)

theorem hexDigit?_eq_none {c : Char} (h : 0x80 ≤ c.toNat) : hexDigit? c = none :=
  Option.eq_none_iff_forall_ne_some.2 fun _ hd => Nat.not_lt.2 h (toNat_of_hexDigit? hd)

/-- A window of bytes writes the code that the first characters write. -/
theorem bind_bytesBetween_hex (n code : Nat) (cs : List Char) :
    ((bytesBetween (encodeChars cs) 0 n).bind fun bytes =>
      bytes.foldlM (fun n b => (hexDigit? (Char.ofUInt8 b)).map (n * 16 + ·)) code) =
        hexRun? n code cs := by
  induction n generalizing code cs with
  | zero => rfl
  | succ n ih =>
    cases cs with
    | nil => rfl
    | cons c cs =>
      obtain ⟨b, hb, hlead⟩ := exists_isLead c cs
      rw [← List.head?_eq_getElem?, List.head?_eq_some_iff] at hb
      obtain ⟨bs, hbs⟩ := hb
      have hdigit : hexDigit? (Char.ofUInt8 b) = hexDigit? c :=
        hlead.apply_eq fun _ => hexDigit?_eq_none
      have hwindow : bytesBetween (b :: bs) 0 (n + 1) = (bytesBetween bs 0 n).map (b :: ·) := by
        simp only [bytesBetween, List.length_cons, List.drop_zero, List.take_succ_cons]
        by_cases hn : n ≤ bs.length
        · simp [hn]
        · simp [hn]
      rw [hbs, hwindow, hexRun?, Option.bind_map]
      cases hd : hexDigit? c with
      | none =>
        simp [hdigit, hd]
      | some d =>
        have hascii := toNat_of_hexDigit? hd
        rw [encodeChars_cons, String.utf8EncodeChar_eq_singleton (utf8Size_of_toNat hascii),
          List.singleton_append] at hbs
        rw [Option.bind_some, ← ih, (List.cons.inj hbs).2]
        simp [hdigit, hd]

theorem hexDigit?_lt {c : Char} {d : Nat} (h : hexDigit? c = some d) : d < 16 := by
  have hall : ∀ p ∈ hexDigits, p.2 < 16 := by decide
  exact hall _ (hexDigit?_eq_some_iff.1 h)

theorem hexRun?_lt {n code value : Nat} {cs : List Char} (h : hexRun? n code cs = some value) :
    value < (code + 1) * 16 ^ n := by
  induction n generalizing code cs with
  | zero =>
    obtain rfl := Option.some.inj h
    simp
  | succ n ih =>
    cases cs with
    | nil => cases h
    | cons c cs =>
      obtain ⟨d, hd, h⟩ := Option.bind_eq_some_iff.1 h
      have hless := hexDigit?_lt hd
      calc value < (code * 16 + d + 1) * 16 ^ n := ih h
        _ ≤ ((code + 1) * 16) * 16 ^ n := Nat.mul_le_mul_right _ (by omega)
        _ = (code + 1) * 16 ^ (n + 1) := by rw [Nat.mul_assoc, Nat.pow_succ']

theorem hexCode?_lt {cs : List Char} {code : Nat} (h : hexCode? cs = some code) :
    code < 0x10000 := by
  rw [hexCode?_eq_hexRun?] at h
  calc code < (0 + 1) * 16 ^ 4 := hexRun?_lt h
    _ = 0x10000 := by decide

namespace ByteReader

variable {reader : ByteReader} {offset : Nat} {cs : List Char}

theorem hexValue?_eq (h : RestAt reader.chars offset cs) :
    (bytesBetween reader.bytes offset (offset + 4)).bind hexValue? = hexCode? cs := by
  have hwindow : bytesBetween reader.bytes offset (offset + 4) = _ := h.bytesBetween_eq 0 4
  rw [hwindow, hexCode?_eq_hexRun?]
  exact bind_bytesBetween_hex 4 0 cs

theorem seesEscape_iff (h : RestAt reader.chars offset cs) :
    bytesBetween reader.bytes offset (offset + 2) = some [0x5C, 0x75] ↔
      ∃ rest, cs = '\\' :: 'u' :: rest := by
  have hwindow : bytesBetween reader.bytes offset (offset + 2) = _ := h.bytesBetween_eq 0 2
  have hascii : ∀ a ∈ ['\\', 'u'], a.toNat < 0x80 :=
    List.forall_mem_cons.2 ⟨by decide, List.forall_mem_cons.2 ⟨by decide, nofun⟩⟩
  rw [hwindow, bytesBetween_zero_eq_some_iff]
  refine (and_iff_right rfl).trans ((prefix_encodeChars_iff hascii).trans ?_)
  exact ⟨fun ⟨rest, hrest⟩ => ⟨rest, hrest.symm⟩, fun ⟨rest, hrest⟩ => ⟨rest, hrest.symm⟩⟩

/-- Of the codes with four digits, those of surrogates are not codes of characters. -/
theorem isValidChar_iff {code : Nat} (hless : code < 0x10000) :
    code.isValidChar ↔ isHighSurrogate code = false ∧ isLowSurrogate code = false := by
  rw [not_surrogate_iff, Nat.isValidChar]
  omega

/-- A surrogate pair is the code of a character. -/
theorem isValidChar_pair {high low : Nat} (hhigh : isHighSurrogate high = true)
    (hlow : isLowSurrogate low = true) :
    (0x10000 + (high - 0xD800) * 0x400 + (low - 0xDC00)).isValidChar := by
  rw [isHighSurrogate_iff] at hhigh
  rw [isLowSurrogate_iff] at hlow
  rw [Nat.isValidChar]
  omega

/-- What follows the first half of a surrogate pair is read as it is scanned. -/
theorem readUnicodeEscape_high {digits rest : List Char} {code : Nat}
    (h : RestAt reader.chars offset ('u' :: (digits ++ rest))) (hlength : digits.length = 4)
    (hascii : IsAscii digits) (hcode : hexCode? (digits ++ rest) = some code)
    (hhigh : isHighSurrogate code = true) :
    reader.readUnicodeEscape offset =
      match unicodeEscape? (digits ++ rest) with
      | some (c, n) => pure (c, offset + 1 + n)
      | none => throw (.atOffset offset .badEscape) := by
  have hnext : RestAt reader.chars (offset + 1) (digits ++ rest) := h.cons
  have hthen := hnext.append_ascii hascii
  rw [hlength] at hthen
  have hfirst : (bytesBetween reader.bytes (offset + 1) (offset + 5)).bind hexValue? = _ :=
    hexValue?_eq hnext
  have hinvalid : ¬ code.isValidChar := by
    rw [isValidChar_iff (hexCode?_lt hcode), hhigh]
    exact fun h => absurd h.1 (by decide)
  rw [readUnicodeEscape, hfirst, hcode, unicodeEscape?, hcode]
  simp only [Option.bind_eq_bind, Option.bind_some, List.drop_left' hlength, if_neg hinvalid, hhigh,
    if_true, true_and]
  by_cases hwindow : ∃ others, rest = '\\' :: 'u' :: others
  · have hsees := (seesEscape_iff hthen).2 hwindow
    obtain ⟨others, rfl⟩ := hwindow
    have hlast : RestAt reader.chars (offset + 7) others := hthen.cons.cons
    have hsecond : (bytesBetween reader.bytes (offset + 7) (offset + 11)).bind hexValue? = _ :=
      hexValue?_eq hlast
    simp only [if_pos hsees, hsecond]
    cases hlow : hexCode? others with
    | none => rfl
    | some low =>
      cases hpair : isLowSurrogate low with
      | false => simp [hpair]
      | true =>
        have hminus := minus_eq (isHighSurrogate_iff.1 hhigh).1
        have hminus' := minus_eq (isLowSurrogate_iff.1 hpair).1
        simp only [hpair, if_true, Option.bind_some, hminus, hminus', liftM_some, pure_bind,
          if_pos (isValidChar_pair hhigh hpair), ofSurrogates]
  · have hsees := mt (seesEscape_iff hthen).1 hwindow
    rw [if_neg hsees]
    split
    case h_1 c n hsome =>
      split at hsome
      case h_1 others => exact absurd ⟨others, rfl⟩ hwindow
      case h_2 => cases hsome
    case h_2 => rfl

/-- The letter u of an escape sequence and what follows it are read as they are scanned. -/
theorem readUnicodeEscape_eq (h : RestAt reader.chars offset ('u' :: cs)) :
    reader.readUnicodeEscape offset =
      match unicodeEscape? cs with
      | some (c, n) => pure (c, offset + 1 + n)
      | none => throw (.atOffset offset .badEscape) := by
  have hfirst : (bytesBetween reader.bytes (offset + 1) (offset + 5)).bind hexValue? = _ :=
    hexValue?_eq h.cons
  cases hcode : hexCode? cs with
  | none =>
    rw [readUnicodeEscape, hfirst, unicodeEscape?, hcode]
    rfl
  | some code =>
    obtain ⟨digits, rest, rfl, hlength, hascii, -⟩ := hexCode?_readsAscii hcode
    cases hhigh : isHighSurrogate code with
    | true => exact readUnicodeEscape_high h hlength hascii hcode hhigh
    | false =>
      have hless := hexCode?_lt hcode
      rw [readUnicodeEscape, hfirst, hcode, unicodeEscape?, hcode]
      simp only [Option.bind_eq_bind, Option.bind_some, hhigh, Bool.false_eq_true, if_false,
        false_and]
      cases hlow : isLowSurrogate code with
      | true =>
        have hinvalid : ¬ code.isValidChar := by
          rw [isValidChar_iff hless, hlow]
          exact fun h => absurd h.2 (by decide)
        rw [if_neg hinvalid]
        rfl
      | false =>
        rw [if_pos ((isValidChar_iff hless).2 ⟨hhigh, hlow⟩)]
        rfl

/-- An escape sequence goes by its first character. -/
theorem escape?_cons (c : Char) (cs : List Char) :
    escape? (c :: cs) =
      match escapeLetters.lookup c with
      | some meant => some (meant, 1)
      | none =>
        if c = 'u' then (unicodeEscape? cs).map fun (meant, n) => (meant, n + 1) else none := by
  unfold escape?
  split
  case h_10 hquote hslash hbackslash hb hf hn hr ht hu =>
    have hne : ∀ {a : Char}, (∀ tail, c :: cs = a :: tail → False) → c ≠ a :=
      fun hnone hc => hnone cs (congrArg (· :: cs) hc)
    have hnone : escapeLetters.lookup c = none := by
      rw [List.lookup_eq_none_iff]
      simp only [escapeLetters, List.forall_mem_cons, bne_iff_ne]
      exact ⟨hne hquote, hne hbackslash, hne hslash, hne hb, hne hf, hne hn, hne hr, hne ht, nofun⟩
    rw [hnone, if_neg (hne hu)]
  all_goals
    rename_i heq
    obtain ⟨rfl, rfl⟩ := List.cons.inj heq
    rfl

/-- What follows a backslash is read as it is scanned. -/
theorem readEscape_eq {c : Char} (h : RestAt reader.chars offset (c :: cs)) :
    reader.readEscape offset =
      match escape? (c :: cs) with
      | some (meant, n) => pure (meant, offset + n - 1)
      | none => throw (.atOffset offset .badEscape) := by
  obtain ⟨b, hb, hlead⟩ := exists_lead h
  have hascii : ∀ p ∈ escapeLetters, p.1.toNat < 0x80 := by decide
  have hnone : ∀ d : Char, 0x80 ≤ d.toNat → escapeLetters.lookup d = none := fun d hd =>
    List.lookup_eq_none_iff.2 fun p hp => bne_iff_ne.2 fun hdp =>
      Nat.not_lt.2 hd (hdp ▸ hascii p hp)
  have hletter : escapeLetters.lookup (Char.ofUInt8 b) = escapeLetters.lookup c :=
    @IsLead.apply_eq _ (fun c => escapeLetters.lookup c) none b c hlead hnone
  rw [readEscape, hb, escape?_cons]
  simp only [hletter, hlead.eq_iff (show 'u'.toNat < 0x80 by decide)]
  cases escapeLetters.lookup c with
  | some meant => rfl
  | none =>
    by_cases hc : c = 'u'
    · subst hc
      simp only [if_true, readUnicodeEscape_eq h]
      cases unicodeEscape? cs with
      | none => rfl
      | some result =>
        obtain ⟨meant, n⟩ := result
        have hpos : 1 ≤ offset + 1 + n := by omega
        have hlast : offset + 1 + n - 1 = offset + (n + 1) - 1 := by omega
        simp only [pure_bind, minus_eq hpos, liftM_some, hlast]
        rfl
    · simp only [if_neg hc]

end ByteReader

end GraphQLSyntax
