import Mathlib.Data.List.Basic
import GraphQLSyntax.Proofs.Lexical.Cursor
import GraphQLSyntax.Proofs.Lexical.Faults
import GraphQLSyntax.Proofs.Lexical.Segment

/-!
# Which numbers are read

A text that begins with a minus sign or a digit is read as a number unless a number breaks off
in front of it.  What is read is the longest number that the text begins with.  A number that
breaks off is told where no number goes on any more, which may be the end of the text.

Not every text that begins with a number is read: two digits of which the first is a zero break
off, although the zero alone is a number.
-/

namespace GraphQLSyntax

/-- An integer and perhaps a fraction. -/
def IsNumber (cs : List Char) : Prop :=
  ∃ integer fraction, IsInteger integer ∧ IsFraction fraction ∧ cs = integer ++ fraction

/-- Something may come after the text so that both are a number. -/
def BeginsNumber (cs : List Char) : Prop :=
  ∃ rest, IsNumber (cs ++ rest)

variable {start : Nat} {cs text before after p : List Char}

/-- A number is scanned to its end if nothing comes after it. -/
theorem IsNumber.scanNumber_eq (h : IsNumber cs) (start : Nat) :
    ∃ lexeme stop, scanNumber start cs = .ok ⟨lexeme, start, stop, []⟩ := by
  obtain ⟨integer, fraction, hinteger, hfraction, rfl⟩ := h
  have hscan := scanNumber_append start hinteger hfraction (noHead_nil _)
  rw [List.append_nil] at hscan
  exact ⟨_, _, hscan⟩

/-- No number that the text begins goes beyond a place where none goes on. -/
theorem length_le_of_beginsNumber (hpre : p <+: before ++ after) (hbegins : BeginsNumber p)
    (hends : ∀ c cs, after.head? = some c → ¬ IsNumber (before ++ c :: cs)) :
    p.length ≤ before.length := by
  refine Nat.le_of_not_lt fun hlonger => ?_
  obtain ⟨more, rfl⟩ : before <+: p :=
    List.prefix_of_prefix_length_le (List.prefix_append _ _) hpre (Nat.le_of_lt hlonger)
  have hmore : more <+: after := (List.prefix_append_right_inj before).1 hpre
  cases more with
  | nil => simp at hlonger
  | cons c more =>
    obtain ⟨rest, hnumber⟩ := hbegins
    rw [List.append_assoc, List.cons_append] at hnumber
    exact hends c _ (head?_of_isPrefix hmore rfl) hnumber

/-! ## Numbers that are read -/

/-- A fraction is taken with all the digits at its end. -/
theorem scanFraction_noDigit {offset : Nat} {fraction rest : List Char}
    (h : scanFraction offset cs = .ok (fraction, rest)) (hne : fraction ≠ []) :
    NoHead Char.isDigit rest := by
  unfold scanFraction at h
  split at h
  case h_1 =>
    obtain ⟨⟨digits, afterDigits⟩, hdigits, h⟩ := bind_eq_ok_iff.1 h
    obtain ⟨⟨exponent, rest'⟩, hexponent, h⟩ := bind_eq_ok_iff.1 h
    obtain ⟨rfl, rfl⟩ := Prod.mk.inj (Except.ok.inj h)
    obtain ⟨-, -, hafter⟩ := scanDigits_eq_ok_iff.1 hdigits
    obtain ⟨-, rfl, -, hlong⟩ := scanExponent_eq_ok_iff.1 hexponent
    by_cases hnil : exponent = []
    · rwa [hnil, List.nil_append] at hafter
    · exact hlong hnil
  case h_2 =>
    obtain ⟨rfl, -⟩ := Prod.mk.inj (Except.ok.inj h)
    exact absurd rfl hne

theorem IsInteger.point_not_mem {integer : List Char} (h : IsInteger integer) :
    '.' ∉ integer := by
  obtain ⟨sign, digits, hsign, hpart, rfl⟩ := h
  rw [List.mem_append]
  rintro (hpoint | hpoint)
  · obtain rfl | rfl := hsign <;> simp at hpoint
  · exact absurd (hpart.isDigits.2 '.' hpoint) (by decide)

/-- A number has a point exactly if it has a fraction. -/
theorem point_mem_iff {integer fraction : List Char} (hinteger : IsInteger integer)
    (hfraction : IsFraction fraction) : '.' ∈ integer ++ fraction ↔ fraction ≠ [] := by
  rw [List.mem_append, or_iff_right hinteger.point_not_mem]
  obtain rfl | ⟨digits, exponent, -, -, rfl⟩ := hfraction <;> simp

/-- The lexeme of a number, which is a float if there is a point in its text. -/
def Lexeme.ofNumber (text : List Char) : Lexeme :=
  ⟨if '.' ∈ text then .float else .int, some (String.ofList text)⟩

/-- A number that is scanned is the longest one that the text begins with, and no digit comes
after it. -/
theorem scanNumber_longest {c : Char} {scanned : Scanned}
    (h : scanNumber start (c :: cs) = .ok scanned) :
    ∃ text rest, c :: cs = text ++ rest ∧ IsNumber text ∧
      scanned = ⟨.ofNumber text, start, start + byteLength text, rest⟩ ∧
      NoHead Char.isDigit rest ∧
      ∀ p, p <+: c :: cs → BeginsNumber p → p.length ≤ text.length := by
  obtain ⟨text, hcs, htakes⟩ := scanNumber_takes h
  obtain ⟨integer, fraction, rest, _, hinteger, hform, hparts, hafter, hscan, rfl⟩ :=
    scanNumber_parts h
  have hascii := isAscii_append hinteger.isAscii hform.isAscii
  have hfirst : c :: text = integer ++ fraction := by
    rw [hcs, ← List.cons_append] at hparts
    exact List.append_cancel_right hparts
  obtain ⟨_, _, hsign, hc⟩ := hinteger.exists_cons
  rw [hsign, List.cons_append] at hfirst
  obtain ⟨rfl, -⟩ := List.cons.inj hfirst
  rw [← List.cons_append, ← hsign] at hfirst
  refine ⟨integer ++ fraction, rest, hparts, ⟨integer, fraction, hinteger, hform, rfl⟩, ?_, ?_,
    fun p hpre hbegins => ?_⟩
  · rw [Lexeme.ofNumber, hascii.byteLength_eq]
    simp only [point_mem_iff hinteger hform]
    cases fraction <;> rfl
  · by_cases hnil : fraction = []
    · rwa [hnil, List.nil_append] at hafter
    · exact scanFraction_noDigit hscan hnil
  · rw [hparts] at hpre
    refine length_le_of_beginsNumber hpre hbegins fun d ds hd hnumber => ?_
    -- Before the same character, less is taken than the whole number.
    obtain ⟨_, _, hwhole⟩ := hnumber.scanNumber_eq start
    have hless := htakes start (d :: ds) (.of_head? hd.symm)
    rw [List.cons_append, scanToken_of_sign_or_digit hc, ← List.cons_append, hfirst,
      hwhole] at hless
    cases hless

/-! ## Numbers that break off -/

theorem scanDigits_of_noHead {offset : Nat} (h : NoHead Char.isDigit cs) :
    scanDigits offset cs = .error (.atOffset offset .invalidNumber) := by
  obtain ⟨htake, -⟩ := takeWhile_dropWhile_eq_iff.2 ⟨List.forall_mem_nil _, rfl, h⟩
  rw [List.nil_append] at htake
  rw [scanDigits, htake]

theorem scanIntegerPart_of_noHead {offset : Nat} (h : NoHead Char.isDigit cs) :
    scanIntegerPart offset cs = .error (.atOffset offset .invalidNumber) := by
  unfold scanIntegerPart
  split
  case h_1 =>
    rw [noHead_cons] at h
    cases h
  case h_2 => exact scanDigits_of_noHead h

theorem scanIntegerPart_of_zero {offset : Nat} {d : Char} (hhead : cs.head? = some d)
    (hd : d.isDigit = true) :
    scanIntegerPart offset ('0' :: cs) = .error (.atOffset (offset + 1) .invalidNumber) := by
  simp [scanIntegerPart, hhead, hd]

theorem IsSign.scanSign_append {sign : List Char} (hsign : IsSign sign)
    (hlong : sign = [] → cs.head? ≠ some '-') : scanSign (sign ++ cs) = (sign, cs) := by
  refine scanSign_eq_iff.2 ⟨hsign, rfl, ?_⟩
  rintro rfl
  exact hlong rfl

/-- Behind an integer, a number breaks off where its fraction does. -/
theorem scanNumber_of_broken {integer : List Char} {n : Nat} (hinteger : IsInteger integer)
    (hafter : NoHead Char.isDigit cs)
    (hbroken : ∀ offset, scanFraction offset cs = .error (.atOffset (offset + n) .invalidNumber)) :
    scanNumber start (integer ++ cs) =
      .error (.atOffset (start + (integer.length + n)) .invalidNumber) := by
  obtain ⟨sign, digits, hsign, hpart, rfl⟩ := hinteger
  have hscanSign : scanSign (sign ++ (digits ++ cs)) = (sign, digits ++ cs) :=
    hsign.scanSign_append fun _ => hpart.isDigits.head?_append_ne cs
  rw [List.append_assoc]
  simp only [scanNumber, hscanSign]
  rw [scanIntegerPart_eq_ok_iff.2 ⟨hpart, rfl, hafter⟩]
  show Bind.bind (scanFraction _ _) _ = _
  rw [hbroken, List.length_append, ← Nat.add_assoc, ← Nat.add_assoc]
  rfl

namespace BrokenNumber

/-- A number that breaks off is not read, and the fault is right behind what there is of it. -/
theorem scanNumber_eq (h : BrokenNumber before after) (start : Nat) :
    scanNumber start (before ++ after) =
      .error (.atOffset (start + byteLength before) .invalidNumber) := by
  rw [h.isAscii.byteLength_eq]
  cases h with
  | sign hrest =>
    simp only [scanNumber, List.singleton_append, scanSign]
    rw [scanIntegerPart_of_noHead hrest]
    rfl
  | @zero sign _ hsign hrest =>
    obtain ⟨c, hhead, hc⟩ := hrest
    have hscanSign : scanSign (sign ++ '0' :: after) = (sign, '0' :: after) :=
      hsign.scanSign_append fun _ => by simp
    rw [List.append_assoc, List.singleton_append]
    simp only [scanNumber, hscanSign]
    rw [scanIntegerPart_of_zero hhead hc, List.length_append, Nat.add_assoc]
    rfl
  | @point integer _ hinteger hrest =>
    rw [List.append_assoc, List.singleton_append, List.length_append]
    refine scanNumber_of_broken hinteger (by simp) fun offset => ?_
    rw [scanFraction, scanDigits_of_noHead hrest]
    rfl
  | @exponent integer digits sign _ hinteger hdigits hsign hrest hlong =>
    have hafter : NoHead Char.isDigit ('e' :: (sign ++ after)) := by simp
    have hcs : integer ++ '.' :: digits ++ 'e' :: sign ++ after =
        integer ++ '.' :: (digits ++ 'e' :: (sign ++ after)) := by simp
    rw [hcs, List.append_assoc, List.length_append]
    refine scanNumber_of_broken hinteger (by simp) fun offset => ?_
    rw [scanFraction, scanDigits_eq_ok_iff.2 ⟨hdigits, rfl, hafter⟩]
    show Bind.bind (scanExponent _ _) _ = _
    simp only [scanExponent, hsign.scanSign_append hlong]
    rw [scanDigits_of_noHead hrest]
    simp only [List.length_append, List.length_cons]
    show Except.error (Fault.atOffset _ _) = _
    congr 2
    omega

/-- Of what a number cannot go on with, only the first character counts. -/
theorem of_head? (h : BrokenNumber before after) (hhead : cs.head? = after.head?) :
    BrokenNumber before cs := by
  have hnoDigit : NoHead Char.isDigit after → NoHead Char.isDigit cs := fun h c hc =>
    h c (hhead ▸ hc)
  cases h with
  | sign hrest => exact .sign (hnoDigit hrest)
  | zero hsign hrest => exact .zero hsign (hhead ▸ hrest)
  | point hinteger hrest => exact .point hinteger (hnoDigit hrest)
  | exponent hinteger hdigits hsign hrest hlong =>
    exact .exponent hinteger hdigits hsign (hnoDigit hrest) (hhead ▸ hlong)

/-- What there is of a number that breaks off could have gone on with a digit. -/
theorem beginsNumber (h : BrokenNumber before after) : BeginsNumber before := by
  have hzero : IsDigits ['0'] := ⟨by simp, by simp⟩
  cases h with
  | sign => exact ⟨['0'], ['-', '0'], [], ⟨['-'], ['0'], .inr rfl, .inl rfl, rfl⟩, .inl rfl, rfl⟩
  | zero hsign =>
    exact ⟨[], _, [], ⟨_, _, hsign, .inl rfl, rfl⟩, .inl rfl, rfl⟩
  | point hinteger =>
    exact ⟨['0'], _, ['.', '0'], hinteger, .inr ⟨['0'], [], hzero, .inl rfl, rfl⟩, by simp⟩
  | @exponent _ digits sign _ hinteger hdigits hsign =>
    have hexponent : IsExponent ('e' :: sign ++ ['0']) := .inr ⟨sign, ['0'], hsign, hzero, rfl⟩
    exact ⟨['0'], _, '.' :: digits ++ ('e' :: sign ++ ['0']), hinteger,
      .inr ⟨digits, _, hdigits, hexponent, rfl⟩, by simp⟩

/-- No number that the text begins goes beyond the place where it breaks off. -/
theorem length_le (h : BrokenNumber before after) (hpre : p <+: before ++ after)
    (hbegins : BeginsNumber p) : p.length ≤ before.length := by
  refine length_le_of_beginsNumber hpre hbegins fun c cs hc hnumber => ?_
  have hbroken : BrokenNumber before (c :: cs) := h.of_head? hc.symm
  obtain ⟨_, _, hwhole⟩ := hnumber.scanNumber_eq 0
  rw [hbroken.scanNumber_eq] at hwhole
  cases hwhole

end BrokenNumber

/-! ## Reading at an offset -/

namespace Source

variable {source : Source} {offset : UInt32} {front : List Char} {c : Char}

theorem readToken_of_sign_or_digit (hchars : source.chars = front ++ c :: cs)
    (hoffset : offset.toNat = byteLength front) (hc : c = '-' ∨ c.isDigit = true) :
    source.readToken offset =
      (scanNumber (byteLength front) (c :: cs)).map Scanned.token := by
  rw [readToken, hoffset, scanAt_byteLength hchars, scan_ink (isInk_of_sign_or_digit hc),
    scanToken_of_sign_or_digit hc]

/-- No offset behind a part of what is there is cut down. -/
theorem toNat_byteLength_add (hfits : source.byteCount < UInt32.size)
    (hchars : source.chars = front ++ cs) (hcs : cs = before ++ after) :
    (UInt32.ofNat (byteLength front + byteLength before)).toNat = byteLength (front ++ before) := by
  have hsplit : source.chars = front ++ before ++ after := by
    rw [hchars, hcs, List.append_assoc]
  rw [← byteLength_append]
  exact source.toNat_byteLength hfits hsplit

/-- A token that is read at a minus sign or a digit is the longest number there. -/
theorem longest_of_readToken (hfits : source.byteCount < UInt32.size)
    (hchars : source.chars = front ++ c :: cs) (hoffset : offset.toNat = byteLength front)
    (hc : c = '-' ∨ c.isDigit = true) {token : Token} (h : source.readToken offset = .ok token) :
    ∃ text rest, c :: cs = text ++ rest ∧ IsNumber text ∧
      (∀ p, p <+: c :: cs → IsNumber p → p.length ≤ text.length) ∧
      token.lexeme = .ofNumber text ∧ token.start = offset ∧
      token.stop.toNat = byteLength (front ++ text) ∧ NoHead Char.isDigit rest := by
  rw [readToken_of_sign_or_digit hchars hoffset hc] at h
  cases hscan : scanNumber (byteLength front) (c :: cs) with
  | error fault =>
    rw [hscan] at h
    cases h
  | ok scanned =>
    rw [hscan] at h
    obtain rfl := Except.ok.inj h
    obtain ⟨text, rest, hcs, hnumber, rfl, hrest, hlongest⟩ := scanNumber_longest hscan
    have hstart : UInt32.ofNat (byteLength front) = offset := by
      rw [← hoffset, UInt32.ofNat_toNat]
    refine ⟨text, rest, hcs, hnumber, fun p hpre hp => hlongest p hpre ⟨[], ?_⟩, rfl, hstart,
      toNat_byteLength_add hfits hchars hcs, hrest⟩
    rwa [List.append_nil]

/-- A fault at a minus sign or a digit is where the number there breaks off. -/
theorem broken_of_readToken (hfits : source.byteCount < UInt32.size)
    (hchars : source.chars = front ++ c :: cs) (hoffset : offset.toNat = byteLength front)
    (hc : c = '-' ∨ c.isDigit = true) {fault : Fault} (h : source.readToken offset = .error fault) :
    fault.cause = .invalidNumber ∧ ∃ before after, c :: cs = before ++ after ∧
      BrokenNumber before after ∧ fault.position.toNat = byteLength (front ++ before) := by
  rw [readToken_of_sign_or_digit hchars hoffset hc] at h
  cases hscan : scanNumber (byteLength front) (c :: cs) with
  | ok scanned =>
    rw [hscan] at h
    cases h
  | error fault' =>
    rw [hscan] at h
    obtain rfl := Except.error.inj h
    obtain ⟨before, after, hcs, hbroken, rfl⟩ := scanNumber_eq_error hc hscan
    exact ⟨rfl, before, after, hcs, hbroken, toNat_byteLength_add hfits hchars hcs⟩

/-- At a minus sign or a digit, a number is read exactly if none breaks off there.  It is the
longest number that the text begins with, as it is written, and a float if there is a point in
it.  Otherwise the fault is at the first byte with which no number goes on. -/
theorem readToken_number (hfits : source.byteCount < UInt32.size)
    (hchars : source.chars = front ++ cs) (hoffset : offset.toNat = byteLength front)
    (hfirst : ∃ c, cs.head? = some c ∧ (c = '-' ∨ c.isDigit = true)) :
    ((∃ token, source.readToken offset = .ok token ∧ (token.kind = .int ∨ token.kind = .float)) ↔
        ¬ ∃ before after, cs = before ++ after ∧ BrokenNumber before after) ∧
      (∀ token, source.readToken offset = .ok token →
        ∃ text rest, cs = text ++ rest ∧ IsNumber text ∧
          (∀ p, p <+: cs → IsNumber p → p.length ≤ text.length) ∧
          token.lexeme = ⟨if '.' ∈ text then .float else .int, some (String.ofList text)⟩ ∧
          token.start = offset ∧ token.stop.toNat = byteLength (front ++ text) ∧
          NoHead Char.isDigit rest) ∧
      ∀ fault, source.readToken offset = .error fault →
        (fault.cause = .invalidNumber ∧ fault.cause.description = "Invalid number") ∧
          ∃ before after, cs = before ++ after ∧ BrokenNumber before after ∧
            fault.position.toNat = byteLength (front ++ before) ∧ BeginsNumber before ∧
            ∀ p, p <+: cs → BeginsNumber p → p.length ≤ before.length := by
  obtain ⟨c, hhead, hc⟩ := hfirst
  obtain ⟨cs, rfl⟩ := List.head?_eq_some_iff.1 hhead
  refine ⟨⟨?_, fun hnone => ?_⟩, fun token => longest_of_readToken hfits hchars hoffset hc,
    fun fault hfault => ?_⟩
  · rintro ⟨token, htoken, -⟩ ⟨before, after, hcs, hbroken⟩
    rw [readToken_of_sign_or_digit hchars hoffset hc, hcs, hbroken.scanNumber_eq] at htoken
    cases htoken
  · cases hread : source.readToken offset with
    | error fault =>
      obtain ⟨-, before, after, hcs, hbroken, -⟩ :=
        broken_of_readToken hfits hchars hoffset hc hread
      exact absurd ⟨before, after, hcs, hbroken⟩ hnone
    | ok token =>
      obtain ⟨text, -, -, -, -, hlexeme, -⟩ := longest_of_readToken hfits hchars hoffset hc hread
      refine ⟨token, rfl, ?_⟩
      rw [Token.kind, hlexeme]
      by_cases hpoint : '.' ∈ text
      · exact .inr (if_pos hpoint)
      · exact .inl (if_neg hpoint)
  · obtain ⟨hcause, before, after, hcs, hbroken, hposition⟩ :=
      broken_of_readToken hfits hchars hoffset hc hfault
    exact ⟨⟨hcause, congrArg Cause.description hcause⟩, before, after, hcs, hbroken, hposition,
      hbroken.beginsNumber, fun p hpre => hbroken.length_le (hcs ▸ hpre)⟩

/-- A capital letter ends a number, since an exponent begins with a small one: behind the first
character, which has two bytes, no number is longer than the one that is read. -/
theorem readToken_number_capitalLetter :
    let source : Source := ⟨"é-10.5E3", ""⟩
    let cs := ['-', '1', '0', '.', '5', 'E', '3']
    source.byteCount < UInt32.size ∧ source.chars = ['é'] ++ cs ∧
      source.readToken 2 = .ok ⟨⟨.float, some "-10.5"⟩, 2, 7⟩ ∧
      (¬ ∃ before after, cs = before ++ after ∧ BrokenNumber before after) ∧
      ∀ p, p <+: cs → IsNumber p → p.length ≤ 5 := by
  intro source cs
  have hfits : source.byteCount < UInt32.size := by decide
  have hchars : source.chars = ['é'] ++ cs := by decide
  have hread : source.readToken 2 = .ok ⟨⟨.float, some "-10.5"⟩, 2, 7⟩ := by decide +kernel
  have hoffset : (2 : UInt32).toNat = byteLength ['é'] := rfl
  obtain ⟨hreads, hok, -⟩ := readToken_number hfits hchars hoffset ⟨'-', rfl, .inl rfl⟩
  refine ⟨hfits, hchars, hread, hreads.1 ⟨_, hread, .inr rfl⟩, ?_⟩
  obtain ⟨text, _, -, -, hlongest, hlexeme, -⟩ := hok _ hread
  have hvalue : text = "-10.5".toList := by
    have heq : "-10.5" = String.ofList text :=
      Option.some.inj (congrArg Lexeme.value hlexeme)
    rw [heq]
    exact String.toList_ofList.symm
  rw [hvalue] at hlongest
  exact hlongest

end Source

end GraphQLSyntax
