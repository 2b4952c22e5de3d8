import GraphQLSyntax.Proofs.Lexical.Division
import GraphQLSyntax.Proofs.Text.Lines

/-!
# Where scanning breaks off

If no token can be scanned, then the text begins with a part of a token, or with nothing that a
token could begin with, and the fault is reported right behind that part.  Of numbers and of
strings it is said here how they break off.  None of these places is inside a line end.
-/

namespace GraphQLSyntax

theorem bind_eq_error_iff {ε α β : Type} {x : Except ε α} {f : α → Except ε β} {e : ε} :
    x >>= f = .error e ↔ x = .error e ∨ ∃ a, x = .ok a ∧ f a = .error e := by
  cases x with
  | error e' => simp [bind, Except.bind]
  | ok a => simp [bind, Except.bind]

/-! ## Numbers -/

/-- A number breaks off: what there is of it, and the text that it cannot go on with. -/
inductive BrokenNumber : List Char → List Char → Prop
  | sign {rest : List Char} (hrest : NoHead Char.isDigit rest) : BrokenNumber ['-'] rest
  | zero {sign rest : List Char} (hsign : IsSign sign)
      (hrest : ∃ c, rest.head? = some c ∧ c.isDigit = true) : BrokenNumber (sign ++ ['0']) rest
  | point {integer rest : List Char} (hinteger : IsInteger integer)
      (hrest : NoHead Char.isDigit rest) : BrokenNumber (integer ++ ['.']) rest
  | exponent {integer digits sign rest : List Char} (hinteger : IsInteger integer)
      (hdigits : IsDigits digits) (hsign : IsSign sign) (hrest : NoHead Char.isDigit rest)
      (hlong : sign = [] → rest.head? ≠ some '-') :
      BrokenNumber (integer ++ '.' :: digits ++ 'e' :: sign) rest

variable {offset : Nat} {cs : List Char} {fault : Fault}

theorem scanDigits_eq_error (h : scanDigits offset cs = .error fault) :
    NoHead Char.isDigit cs ∧ fault = .atOffset offset .invalidNumber := by
  rw [scanDigits] at h
  split at h
  case h_1 htake =>
    obtain rfl := Except.error.inj h
    obtain ⟨-, hcs, hrest⟩ := takeWhile_dropWhile_eq_iff.1 ⟨htake, rfl⟩
    rw [List.nil_append] at hcs
    exact ⟨hcs ▸ hrest, rfl⟩
  case h_2 => cases h

theorem scanIntegerPart_eq_error (h : scanIntegerPart offset cs = .error fault) :
    (NoHead Char.isDigit cs ∧ fault = .atOffset offset .invalidNumber) ∨
      ∃ rest, cs = '0' :: rest ∧ (∃ c, rest.head? = some c ∧ c.isDigit = true) ∧
        fault = .atOffset (offset + 1) .invalidNumber := by
  unfold scanIntegerPart at h
  split at h
  case h_1 rest =>
    split at h
    case h_1 c hhead =>
      split at h
      case isTrue hdigit =>
        obtain rfl := Except.error.inj h
        exact .inr ⟨rest, rfl, ⟨c, hhead, hdigit⟩, rfl⟩
      case isFalse => cases h
    case h_2 => cases h
  case h_2 => exact .inl (scanDigits_eq_error h)

theorem scanExponent_eq_error (h : scanExponent offset cs = .error fault) :
    ∃ sign rest, cs = 'e' :: sign ++ rest ∧ IsSign sign ∧ NoHead Char.isDigit rest ∧
      (sign = [] → rest.head? ≠ some '-') ∧
      fault = .atOffset (offset + ('e' :: sign).length) .invalidNumber := by
  unfold scanExponent at h
  split at h
  case h_1 afterLetter =>
    cases hscan : scanSign afterLetter with
    | mk sign rest =>
      obtain ⟨hsign, rfl, hlong⟩ := scanSign_eq_iff.1 hscan
      simp only [hscan] at h
      obtain h | ⟨_, _, h⟩ := bind_eq_error_iff.1 h
      · obtain ⟨hrest, rfl⟩ := scanDigits_eq_error h
        refine ⟨sign, rest, rfl, hsign, hrest, ?_, ?_⟩
        · rintro rfl
          exact hlong rfl
        · rw [List.length_cons, Nat.add_right_comm]
          rfl
      · cases h
  case h_2 => cases h

theorem scanFraction_eq_error (h : scanFraction offset cs = .error fault) :
    (∃ rest, cs = '.' :: rest ∧ NoHead Char.isDigit rest ∧
        fault = .atOffset (offset + 1) .invalidNumber) ∨
      ∃ digits sign rest, cs = '.' :: digits ++ 'e' :: sign ++ rest ∧ IsDigits digits ∧
        IsSign sign ∧ NoHead Char.isDigit rest ∧ (sign = [] → rest.head? ≠ some '-') ∧
        fault = .atOffset (offset + ('.' :: digits ++ 'e' :: sign).length) .invalidNumber := by
  unfold scanFraction at h
  split at h
  case h_1 afterPoint =>
    obtain hfails | ⟨⟨digits, afterDigits⟩, hscan, hfails⟩ := bind_eq_error_iff.1 h
    · obtain ⟨hrest, rfl⟩ := scanDigits_eq_error hfails
      exact .inl ⟨afterPoint, rfl, hrest, rfl⟩
    · obtain ⟨hdigits, rfl, -⟩ := scanDigits_eq_ok_iff.1 hscan
      obtain hfails | ⟨_, _, hnot⟩ := bind_eq_error_iff.1 hfails
      · obtain ⟨sign, rest, rfl, hsign, hrest, hlong, rfl⟩ := scanExponent_eq_error hfails
        refine .inr ⟨digits, sign, rest, by simp, hdigits, hsign, hrest, hlong, ?_⟩
        congr 1
        simp only [List.length_append, List.length_cons]
        omega
      · cases hnot
  case h_2 => cases h

theorem isAscii_cons {c : Char} (hc : c.utf8Size = 1) (hcs : IsAscii cs) : IsAscii (c :: cs) :=
  List.forall_mem_cons.2 ⟨hc, hcs⟩

namespace BrokenNumber

variable {before after : List Char}

theorem isAscii (h : BrokenNumber before after) : IsAscii before := by
  cases h with
  | sign => exact isAscii_cons (by decide) (List.forall_mem_nil _)
  | zero hsign =>
    exact isAscii_append hsign.isAscii (isAscii_cons (by decide) (List.forall_mem_nil _))
  | point hinteger =>
    exact isAscii_append hinteger.isAscii (isAscii_cons (by decide) (List.forall_mem_nil _))
  | exponent hinteger hdigits hsign =>
    have hfraction := isAscii_cons (by decide : '.'.utf8Size = 1) (isAscii_of_isDigits hdigits.2)
    exact isAscii_append (isAscii_append hinteger.isAscii hfraction)
      (isAscii_cons (by decide) hsign.isAscii)

end BrokenNumber

/-- What begins like a number and is none is a number that breaks off, and the fault is
right behind what there is of it. -/
theorem scanNumber_eq_error {start : Nat} {c : Char} (hc : c = '-' ∨ c.isDigit = true)
    (h : scanNumber start (c :: cs) = .error fault) :
    ∃ before after, c :: cs = before ++ after ∧ BrokenNumber before after ∧
      fault = .atOffset (start + byteLength before) .invalidNumber := by
  suffices ∃ before after, c :: cs = before ++ after ∧ BrokenNumber before after ∧
      fault = .atOffset (start + before.length) .invalidNumber by
    obtain ⟨before, after, hcs, hbroken, rfl⟩ := this
    exact ⟨before, after, hcs, hbroken, by rw [hbroken.isAscii.byteLength_eq]⟩
  cases hscan : scanSign (c :: cs) with
  | mk sign afterSign =>
    obtain ⟨hsign, hcs, hlong⟩ := scanSign_eq_iff.1 hscan
    rw [hcs]
    simp only [scanNumber, hscan] at h
    obtain hfails | ⟨⟨digits, afterDigits⟩, hdigits, hfails⟩ := bind_eq_error_iff.1 h
    · obtain ⟨hrest, rfl⟩ | ⟨rest, rfl, hrest, rfl⟩ := scanIntegerPart_eq_error hfails
      · refine ⟨sign, afterSign, rfl, ?_, rfl⟩
        obtain rfl | rfl := hsign
        · -- Without a sign there is a digit in front.
          obtain rfl : c :: cs = afterSign := hcs
          have hminus : c ≠ '-' := fun h => hlong rfl (congrArg some h)
          have hdigit := hc.resolve_left hminus
          rw [(noHead_cons ..).1 hrest] at hdigit
          cases hdigit
        · exact .sign hrest
      · exact ⟨sign ++ ['0'], rest, by simp, .zero hsign hrest, by simp [Nat.add_assoc]⟩
    · obtain ⟨hpart, rfl, hafter⟩ := scanIntegerPart_eq_ok_iff.1 hdigits
      have hinteger : IsInteger (sign ++ digits) := ⟨sign, digits, hsign, hpart, rfl⟩
      obtain hfails | ⟨_, _, hnot⟩ := bind_eq_error_iff.1 hfails
      · obtain ⟨rest, rfl, hrest, rfl⟩ |
          ⟨digits', sign', rest, rfl, hdigits', hsign', hrest, hlong', rfl⟩ :=
            scanFraction_eq_error hfails
        · refine ⟨_, rest, ?_, .point hinteger hrest, ?_⟩
          · simp
          · simp [Nat.add_assoc]
        · refine ⟨_, rest, ?_, .exponent hinteger hdigits' hsign' hrest hlong', ?_⟩
          · simp
          · simp [Nat.add_assoc]
      · cases hnot

/-! ## Strings -/

/-- The contents of a string break off: what there is of them, and the text that they cannot
go on with. -/
inductive BrokenContents : List Char → List Char → Cause → Prop
  | ended {text meant rest : List Char} (hitems : StringItems text meant)
      (hrest : ∀ c, rest.head? = some c → EndsLine c) :
      BrokenContents text rest .unterminatedString
  | backslash {text meant : List Char} (hitems : StringItems text meant) :
      BrokenContents (text ++ ['\\']) [] .unterminatedString
  | escape {text meant rest : List Char} (hitems : StringItems text meant) (hne : rest ≠ [])
      (hescape : escape? rest = none) : BrokenContents (text ++ ['\\']) rest .badEscape

theorem BrokenContents.cons {item text rest : List Char} {c : Char} {cause : Cause}
    (hitem : StringItem item c) (h : BrokenContents text rest cause) :
    BrokenContents (item ++ text) rest cause := by
  cases h with
  | ended hitems hrest => exact .ended (.cons hitem hitems) hrest
  | backslash hitems =>
    rw [← List.append_assoc]
    exact .backslash (.cons hitem hitems)
  | escape hitems hne hescape =>
    rw [← List.append_assoc]
    exact .escape (.cons hitem hitems) hne hescape

theorem scanContents_eq_error {decoded : List Char}
    (h : scanContents offset decoded cs = .error fault) :
    ∃ before after cause, cs = before ++ after ∧ BrokenContents before after cause ∧
      fault = .atOffset (offset + byteLength before) cause := by
  fun_induction scanContents offset decoded cs with
  | case1 =>
    obtain rfl := Except.error.inj h
    exact ⟨[], [], _, rfl, .ended .nil (by simp), rfl⟩
  | case2 => cases h
  | case3 offset decoded c cs _ hline =>
    obtain rfl := Except.error.inj h
    refine ⟨[], c :: cs, _, rfl, .ended .nil ?_, rfl⟩
    rintro d hd
    obtain rfl := Option.some.inj hd
    exact isLineTerminator_iff.1 hline
  | case4 offset decoded c cs _ _ hbackslash hempty =>
    obtain rfl := Except.error.inj h
    obtain rfl := beq_iff_eq.1 hbackslash
    obtain rfl := List.isEmpty_iff.1 hempty
    exact ⟨['\\'], [], _, rfl, .backslash .nil, rfl⟩
  | case5 offset decoded c cs _ _ hbackslash _ meant n hescape ih =>
    obtain ⟨before, after, cause, hcs, hbroken, rfl⟩ := ih h
    obtain rfl := beq_iff_eq.1 hbackslash
    obtain ⟨escape, rest, rfl, rfl, hitem⟩ := stringItem_of_escape? hescape
    obtain ⟨escape', _, heq, hlength, hascii, -⟩ := escape?_readsAscii hescape
    obtain ⟨rfl, -⟩ := List.append_inj heq hlength.symm
    rw [List.drop_left] at hcs
    refine ⟨'\\' :: escape ++ before, after, cause, by simp [hcs], hbroken.cons hitem, ?_⟩
    rw [List.cons_append, byteLength_cons, byteLength_append, hascii.byteLength_eq, Nat.add_assoc,
      Nat.add_assoc]
    rfl
  | case6 offset decoded c cs _ _ hbackslash hempty hescape =>
    obtain rfl := Except.error.inj h
    obtain rfl := beq_iff_eq.1 hbackslash
    exact ⟨['\\'], cs, _, rfl, .escape .nil (by simpa using hempty) hescape, rfl⟩
  | case7 offset decoded c cs hquote hline hbackslash ih =>
    obtain ⟨before, after, cause, rfl, hbroken, rfl⟩ := ih h
    have hitem : StringItem [c] c :=
      .plain c (by simpa using hquote) (by simpa using hbackslash)
        (by rwa [← isLineTerminator_iff])
    refine ⟨c :: before, after, cause, rfl, hbroken.cons hitem, ?_⟩
    rw [byteLength_cons, Nat.add_assoc]

/-! ## Tokens -/

/-- The text of a token begins like a token. -/
theorem Lexeme.HasText.exists_cons {lexeme : Lexeme} {text rest : List Char}
    (h : lexeme.HasText text rest) :
    ∃ c cs, text = c :: cs ∧ IsInk c ∧ BeginsToken c (cs ++ rest) := by
  have hnumber : ∀ {cs : List Char}, IsInteger cs →
      ∃ c ds, cs = c :: ds ∧ IsInk c ∧ ∀ rest, BeginsToken c rest := by
    intro cs hcs
    obtain ⟨c, ds, rfl, hc⟩ := hcs.exists_cons
    exact ⟨c, ds, rfl, isInk_of_sign_or_digit hc, fun _ => .inr (.inr (.inr (.inl hc)))⟩
  cases h with
  | @punctuator kind _ hkind hvalue =>
    cases kind with
    | eof => exact absurd rfl hkind
    | name | int | float | string => cases hvalue
    | spread => exact ⟨_, _, rfl, ⟨by decide, by decide⟩, .inr (.inl ⟨rfl, rfl⟩)⟩
    | _ => exact ⟨_, _, rfl, ⟨by decide, by decide⟩, .inl ⟨_, rfl⟩⟩
  | name _ hc =>
    have hstart := isNameStart_iff_startsName.2 hc
    exact ⟨_, _, rfl, isInk_of_isNameRest (isNameRest_of_isNameStart hstart),
      .inr (.inr (.inl hstart))⟩
  | int _ h =>
    obtain ⟨c, ds, heq, hink, hbegins⟩ := hnumber h
    exact ⟨c, ds, heq, hink, hbegins _⟩
  | float _ h =>
    obtain ⟨integer, _, _, hinteger, -, -, heq⟩ := h
    obtain ⟨c, ds, rfl, hink, hbegins⟩ := hnumber hinteger
    rw [List.append_assoc, List.cons_append] at heq
    exact ⟨c, _, heq, hink, hbegins _⟩
  | string => exact ⟨'"', _, rfl, ⟨by decide, by decide⟩, .inr (.inr (.inr (.inr rfl)))⟩

/-- A token breaks off: what there is of it, the text that it cannot go on with, and the cause
that is told.  Where no token begins there is nothing of it. -/
inductive BrokenToken : List Char → List Char → Cause → Prop
  | character {c : Char} {cs : List Char} (hink : IsInk c) (hnone : ¬ BeginsToken c cs) :
      BrokenToken [] (c :: cs) (.unexpectedCharacter c)
  | number {before after : List Char} (h : BrokenNumber before after) :
      BrokenToken before after .invalidNumber
  | string {before after : List Char} {cause : Cause} (h : BrokenContents before after cause) :
      BrokenToken ('"' :: before) after cause

theorem scanToken_eq_error {start : Nat} (hink : ∀ c, cs.head? = some c → IsInk c)
    (h : scanToken start cs = .error fault) :
    ∃ before after cause, cs = before ++ after ∧ BrokenToken before after cause ∧
      fault = .atOffset (start + byteLength before) cause := by
  cases cs with
  | nil => cases h
  | cons c cs =>
    have hscans := scansToken start c cs
    generalize scanToken start (c :: cs) = result at h hscans
    cases hscans with
    | punctuator | spread | name => cases h
    | number _ hc =>
      obtain ⟨before, after, hcs, hbroken, rfl⟩ := scanNumber_eq_error hc h
      exact ⟨before, after, _, hcs, .number hbroken, rfl⟩
    | string =>
      obtain hfails | ⟨_, _, hnot⟩ := bind_eq_error_iff.1 h
      · obtain ⟨before, after, cause, rfl, hbroken, rfl⟩ := scanContents_eq_error hfails
        refine ⟨'"' :: before, after, cause, rfl, .string hbroken, ?_⟩
        rw [byteLength_cons, ← Nat.add_assoc]
        rfl
      · cases hnot
    | nothing hnone =>
      obtain rfl := Except.error.inj h
      exact ⟨[], c :: cs, _, rfl, .character (hink c rfl) hnone, rfl⟩

/-- A text of which no token is scanned begins, behind what is ignored, with a token that
breaks off, and the fault is right behind what there is of it. -/
theorem scan_eq_error (h : scan offset cs = .error fault) :
    ∃ gap before after cause, cs = gap ++ before ++ after ∧ Ignored (before ++ after) gap ∧
      BrokenToken before after cause ∧
      fault = .atOffset (offset + byteLength (gap ++ before)) cause := by
  obtain ⟨gap, rest, rfl, hgap, hink, hscan⟩ := exists_scan_eq offset cs
  rw [hscan] at h
  obtain ⟨before, after, cause, rfl, hbroken, rfl⟩ := scanToken_eq_error hink h
  refine ⟨gap, before, after, cause, by simp, hgap, hbroken, ?_⟩
  rw [byteLength_append gap, Nat.add_assoc]

/-! ## No fault inside a line end -/

/-- A place behind something else than a carriage return is not inside a line end. -/
theorem not_insideLineEnd_of_getLast? {before after : List Char} {c : Char}
    (h : before.getLast? = some c) (hc : c ≠ '\r') (front : List Char) :
    ¬ InsideLineEnd (front ++ before) after := by
  rintro ⟨hlast, -⟩
  rw [List.getLast?_append, h] at hlast
  exact hc (Option.some.inj hlast)

/-- A place before something that can be seen is not inside a line end. -/
theorem not_insideLineEnd_of_isInk {before after : List Char}
    (h : ∀ c, after.head? = some c → IsInk c) : ¬ InsideLineEnd before after := by
  rintro ⟨-, hhead⟩
  exact absurd (h _ hhead).1 (by decide)

theorem BrokenNumber.exists_getLast? {before after : List Char} (h : BrokenNumber before after) :
    ∃ c, before.getLast? = some c ∧ c ≠ '\r' := by
  cases h with
  | sign => exact ⟨'-', rfl, by decide⟩
  | zero => exact ⟨'0', List.getLast?_concat, by decide⟩
  | point => exact ⟨'.', List.getLast?_concat, by decide⟩
  | exponent _ _ hsign =>
    rw [List.getLast?_append]
    obtain rfl | rfl := hsign
    · exact ⟨'e', rfl, by decide⟩
    · exact ⟨'-', rfl, by decide⟩

theorem BrokenToken.not_insideLineEnd {before after : List Char} {cause : Cause}
    (h : BrokenToken before after cause) (front : List Char) :
    ¬ InsideLineEnd (front ++ before) after := by
  cases h with
  | character hink =>
    refine not_insideLineEnd_of_isInk fun c hc => ?_
    obtain rfl := Option.some.inj hc
    exact hink
  | number h =>
    obtain ⟨c, hlast, hc⟩ := h.exists_getLast?
    exact not_insideLineEnd_of_getLast? hlast hc front
  | @string text _ _ h =>
    cases h with
    | ended hitems =>
      have hall : ∀ d ∈ '"' :: text, ¬ EndsLine d :=
        List.forall_mem_cons.2 ⟨by simp [EndsLine], hitems.not_endsLine⟩
      have hne : '"' :: text ≠ [] := List.cons_ne_nil _ _
      refine not_insideLineEnd_of_getLast? (List.getLast?_eq_some_getLast hne) ?_ front
      intro hreturn
      have hlast := hall _ (List.getLast_mem hne)
      rw [hreturn] at hlast
      exact hlast (by simp [EndsLine])
    | backslash =>
      rintro ⟨-, hhead⟩
      cases hhead
    | @escape text =>
      rw [← List.cons_append]
      exact not_insideLineEnd_of_getLast? List.getLast?_concat (by decide) front

end GraphQLSyntax
