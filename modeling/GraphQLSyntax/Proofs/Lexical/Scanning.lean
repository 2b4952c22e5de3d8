import GraphQLSyntax.Proofs.Lexical.Spelling
import GraphQLSyntax.Token.Scan

/-!
# What scanners read

Each scanner is described exactly: which texts it accepts, how much of them it takes,
and that its faults are lexical.  A scanner takes as much as it can, so what is left
does not go on with what was taken.
-/

namespace GraphQLSyntax

/-- The text does not begin with a character of the class. -/
def NoHead (p : Char → Bool) (cs : List Char) : Prop :=
  ∀ c ∈ cs.head?, p c = false

@[simp] theorem noHead_nil (p : Char → Bool) : NoHead p [] := by
  simp [NoHead]

@[simp] theorem noHead_cons (p : Char → Bool) (c : Char) (cs : List Char) :
    NoHead p (c :: cs) ↔ p c = false := by
  simp [NoHead]

/-- A run is as long as it can be if what is left does not go on with it. -/
theorem takeWhile_dropWhile_eq_iff {p : Char → Bool} {cs run rest : List Char} :
    cs.takeWhile p = run ∧ cs.dropWhile p = rest ↔
      (∀ c ∈ run, p c = true) ∧ cs = run ++ rest ∧ NoHead p rest := by
  constructor
  · rintro ⟨rfl, rfl⟩
    have hrest := List.head?_dropWhile_not p cs
    refine ⟨List.all_eq_true.1 List.all_takeWhile, List.takeWhile_append_dropWhile.symm, ?_⟩
    intro c hc
    rw [Option.mem_def] at hc
    simpa [hc] using hrest
  · rintro ⟨hrun, rfl, hrest⟩
    induction run with
    | nil =>
      cases rest with
      | nil => simp
      | cons c rest => simp [(noHead_cons ..).1 hrest]
    | cons c run ih =>
      obtain ⟨hc, hrun⟩ := List.forall_mem_cons.1 hrun
      obtain ⟨htake, hdrop⟩ := ih hrun
      simp [hc, htake, hdrop]

theorem bind_eq_ok_iff {ε α β : Type} {x : Except ε α} {f : α → Except ε β} {y : β} :
    x >>= f = .ok y ↔ ∃ a, x = .ok a ∧ f a = .ok y := by
  cases x with
  | error e => simp [bind, Except.bind]
  | ok a => simp [bind, Except.bind]

/-! ## Numbers -/

theorem scanDigits_eq_ok_iff {offset : Nat} {cs digits rest : List Char} :
    scanDigits offset cs = .ok (digits, rest) ↔
      IsDigits digits ∧ cs = digits ++ rest ∧ NoHead Char.isDigit rest := by
  constructor
  · intro h
    rw [scanDigits] at h
    split at h
    · cases h
    · obtain ⟨rfl, rfl⟩ := Prod.mk.inj (Except.ok.inj h)
      obtain ⟨hdigits, hcs, hrest⟩ := takeWhile_dropWhile_eq_iff.1 ⟨rfl, rfl⟩
      exact ⟨⟨‹_›, hdigits⟩, hcs, hrest⟩
  · rintro ⟨⟨hne, hdigits⟩, hcs, hrest⟩
    obtain ⟨htake, hdrop⟩ := takeWhile_dropWhile_eq_iff.2 ⟨hdigits, hcs, hrest⟩
    rw [scanDigits, htake, hdrop]
    cases digits with
    | nil => exact absurd rfl hne
    | cons c digits => rfl

theorem scanDigits_lexical {offset : Nat} {cs : List Char} {fault : Fault}
    (h : scanDigits offset cs = .error fault) : fault.cause.category = .lexical := by
  rw [scanDigits] at h
  split at h
  · cases h
    rfl
  · cases h

/-- Digits do not begin with a minus sign. -/
theorem IsDigits.head?_append_ne {digits : List Char} (h : IsDigits digits) (rest : List Char) :
    (digits ++ rest).head? ≠ some '-' := by
  obtain ⟨c, digits, rfl⟩ := List.exists_cons_of_ne_nil h.1
  intro hhead
  obtain rfl : c = '-' := by simpa using hhead
  exact absurd (h.2 '-' (by simp)) (by decide)

theorem IsIntegerPart.isDigits {digits : List Char} (h : IsIntegerPart digits) :
    IsDigits digits := by
  obtain rfl | ⟨h, -⟩ := h
  · exact ⟨by simp, by simp⟩
  · exact h

theorem scanIntegerPart_zero {offset : Nat} {cs digits rest : List Char} :
    scanIntegerPart offset ('0' :: cs) = .ok (digits, rest) ↔
      digits = ['0'] ∧ rest = cs ∧ NoHead Char.isDigit cs := by
  cases cs with
  | nil => simp [scanIntegerPart, eq_comm]
  | cons c cs =>
    cases h : c.isDigit <;> simp [scanIntegerPart, h, eq_comm]

theorem scanIntegerPart_eq_ok_iff {offset : Nat} {cs digits rest : List Char} :
    scanIntegerPart offset cs = .ok (digits, rest) ↔
      IsIntegerPart digits ∧ cs = digits ++ rest ∧ NoHead Char.isDigit rest := by
  by_cases hzero : cs.head? = some '0'
  · obtain ⟨cs, rfl⟩ := List.head?_eq_some_iff.1 hzero
    rw [scanIntegerPart_zero]
    constructor
    · rintro ⟨rfl, rfl, hrest⟩
      exact ⟨.inl rfl, rfl, hrest⟩
    · rintro ⟨rfl | ⟨⟨hne, -⟩, hhead⟩, hcs, hrest⟩
      · obtain ⟨-, rfl⟩ := List.cons.inj hcs
        exact ⟨rfl, rfl, hrest⟩
      · obtain ⟨c, digits, rfl⟩ := List.exists_cons_of_ne_nil hne
        obtain ⟨rfl, -⟩ := List.cons.inj hcs
        exact absurd rfl hhead
  · have hscan : scanIntegerPart offset cs = scanDigits offset cs := by
      rw [scanIntegerPart]
      rintro rest rfl
      exact hzero rfl
    rw [hscan, scanDigits_eq_ok_iff]
    constructor
    · rintro ⟨hdigits, rfl, hrest⟩
      obtain ⟨c, digits, rfl⟩ := List.exists_cons_of_ne_nil hdigits.1
      exact ⟨.inr ⟨hdigits, hzero⟩, rfl, hrest⟩
    · rintro ⟨rfl | ⟨hdigits, -⟩, rfl, hrest⟩
      · exact absurd rfl hzero
      · exact ⟨hdigits, rfl, hrest⟩

theorem scanIntegerPart_lexical {offset : Nat} {cs : List Char} {fault : Fault}
    (h : scanIntegerPart offset cs = .error fault) : fault.cause.category = .lexical := by
  unfold scanIntegerPart at h
  split at h
  · split at h
    · split at h
      · cases h
        rfl
      · cases h
    · cases h
  · exact scanDigits_lexical h

theorem scanSign_eq_iff {cs sign rest : List Char} :
    scanSign cs = (sign, rest) ↔
      IsSign sign ∧ cs = sign ++ rest ∧ (sign = [] → cs.head? ≠ some '-') := by
  by_cases hminus : cs.head? = some '-'
  · obtain ⟨cs, rfl⟩ := List.head?_eq_some_iff.1 hminus
    simp only [scanSign, Prod.mk.injEq]
    constructor
    · rintro ⟨rfl, rfl⟩
      exact ⟨.inr rfl, rfl, nofun⟩
    · rintro ⟨rfl | rfl, hcs, hsign⟩
      · exact absurd rfl (hsign rfl)
      · exact ⟨rfl, (List.cons.inj hcs).2⟩
  · have hscan : scanSign cs = ([], cs) := by
      rw [scanSign]
      rintro rest rfl
      exact hminus rfl
    rw [hscan, Prod.mk.injEq]
    constructor
    · rintro ⟨rfl, rfl⟩
      exact ⟨.inl rfl, rfl, fun _ => hminus⟩
    · rintro ⟨rfl | rfl, rfl, -⟩
      · exact ⟨rfl, rfl⟩
      · exact absurd rfl hminus

theorem scanExponent_eq_ok_iff {offset : Nat} {cs exponent rest : List Char} :
    scanExponent offset cs = .ok (exponent, rest) ↔
      IsExponent exponent ∧ cs = exponent ++ rest ∧
        (exponent = [] → cs.head? ≠ some 'e') ∧
        (exponent ≠ [] → NoHead Char.isDigit rest) := by
  by_cases hletter : cs.head? = some 'e'
  · obtain ⟨cs, rfl⟩ := List.head?_eq_some_iff.1 hletter
    rw [scanExponent]
    constructor
    · intro h
      cases hsign : scanSign cs with
      | mk sign afterSign =>
        obtain ⟨hform, rfl, -⟩ := scanSign_eq_iff.1 hsign
        simp only [hsign] at h
        obtain ⟨⟨digits, rest'⟩, hscan, h⟩ := bind_eq_ok_iff.1 h
        obtain ⟨rfl, rfl⟩ := Prod.mk.inj (Except.ok.inj h)
        obtain ⟨hdigits, rfl, hrest⟩ := scanDigits_eq_ok_iff.1 hscan
        exact ⟨.inr ⟨sign, digits, hform, hdigits, rfl⟩, by simp, nofun, fun _ => hrest⟩
    · rintro ⟨rfl | ⟨sign, digits, hform, hdigits, rfl⟩, hcs, hnone, hrest⟩
      · exact absurd rfl (hnone rfl)
      · have hcs : cs = sign ++ (digits ++ rest) := by simpa using hcs
        have hsign : scanSign cs = (sign, digits ++ rest) := by
          refine scanSign_eq_iff.2 ⟨hform, hcs, ?_⟩
          rintro rfl
          exact hcs ▸ hdigits.head?_append_ne rest
        simp only [hsign]
        rw [scanDigits_eq_ok_iff.2 ⟨hdigits, rfl, hrest (by simp)⟩]
        rfl
  · have hscan : scanExponent offset cs = .ok ([], cs) := by
      rw [scanExponent]
      rintro rest rfl
      exact hletter rfl
    rw [hscan, Except.ok.injEq, Prod.mk.injEq]
    constructor
    · rintro ⟨rfl, rfl⟩
      exact ⟨.inl rfl, rfl, fun _ => hletter, fun h => absurd rfl h⟩
    · rintro ⟨rfl | ⟨sign, digits, -, -, rfl⟩, rfl, -, -⟩
      · exact ⟨rfl, rfl⟩
      · exact absurd rfl hletter

theorem bind_lexical {α β : Type} {x : Except Fault α} {f : α → Except Fault β}
    {fault : Fault} (hx : ∀ fault, x = .error fault → fault.cause.category = .lexical)
    (hf : ∀ a, x = .ok a → f a = .error fault → fault.cause.category = .lexical)
    (h : x >>= f = .error fault) : fault.cause.category = .lexical := by
  cases x with
  | error fault' =>
    obtain rfl : fault' = fault := Except.error.inj h
    exact hx _ rfl
  | ok a => exact hf a rfl h

theorem scanExponent_lexical {offset : Nat} {cs : List Char} {fault : Fault}
    (h : scanExponent offset cs = .error fault) : fault.cause.category = .lexical := by
  unfold scanExponent at h
  split at h
  · exact bind_lexical (fun _ => scanDigits_lexical) (fun _ _ h => by cases h) h
  · cases h

/-- A fraction: nothing, or a point and digits and perhaps an exponent. -/
def IsFraction (cs : List Char) : Prop :=
  cs = [] ∨ ∃ digits exponent, IsDigits digits ∧ IsExponent exponent ∧
    cs = '.' :: digits ++ exponent

theorem scanFraction_spec {offset : Nat} {cs fraction rest : List Char}
    (h : scanFraction offset cs = .ok (fraction, rest)) :
    IsFraction fraction ∧ cs = fraction ++ rest := by
  unfold scanFraction at h
  split at h
  · obtain ⟨⟨digits, afterDigits⟩, hscan, h⟩ := bind_eq_ok_iff.1 h
    obtain ⟨⟨exponent, rest'⟩, hscan', h⟩ := bind_eq_ok_iff.1 h
    obtain ⟨rfl, rfl⟩ := Prod.mk.inj (Except.ok.inj h)
    obtain ⟨hdigits, rfl, -⟩ := scanDigits_eq_ok_iff.1 hscan
    obtain ⟨hexponent, rfl, -⟩ := scanExponent_eq_ok_iff.1 hscan'
    exact ⟨.inr ⟨digits, exponent, hdigits, hexponent, rfl⟩, by simp⟩
  · obtain ⟨rfl, rfl⟩ := Prod.mk.inj (Except.ok.inj h)
    exact ⟨.inl rfl, rfl⟩

theorem scanFraction_lexical {offset : Nat} {cs : List Char} {fault : Fault}
    (h : scanFraction offset cs = .error fault) : fault.cause.category = .lexical := by
  unfold scanFraction at h
  split at h
  · refine bind_lexical (fun _ => scanDigits_lexical) (fun _ _ h => ?_) h
    exact bind_lexical (fun _ => scanExponent_lexical) (fun _ _ h => by cases h) h
  · cases h

/-- The ASCII letters lie in two ranges. -/
theorem isAlpha_iff_toNat {c : Char} :
    c.isAlpha = true ↔ 65 ≤ c.toNat ∧ c.toNat ≤ 90 ∨ 97 ≤ c.toNat ∧ c.toNat ≤ 122 := by
  show (decide ('A'.val ≤ c.val ∧ c.val ≤ 'Z'.val) ||
    decide ('a'.val ≤ c.val) && decide (c.val ≤ 'z'.val)) = true ↔ _
  simp only [Bool.or_eq_true, Bool.and_eq_true, decide_eq_true_eq, UInt32.le_iff_toNat_le]
  exact Iff.rfl

theorem isNameStart_iff_toNat {c : Char} :
    isNameStart c = true ↔
      c = '_' ∨ 65 ≤ c.toNat ∧ c.toNat ≤ 90 ∨ 97 ≤ c.toNat ∧ c.toNat ≤ 122 := by
  rw [isNameStart, Bool.or_eq_true, beq_iff_eq, isAlpha_iff_toNat]

theorem isNameRest_iff {c : Char} :
    isNameRest c = true ↔ isNameStart c = true ∨ c.isDigit = true := by
  show (c == '_' || (c.isAlpha || c.isDigit)) = true ↔ _
  rw [isNameStart, ← Bool.or_assoc, Bool.or_eq_true]

/-- What neither a number nor a name goes on with. -/
def EndsWord (cs : List Char) : Prop :=
  NoHead (fun c => isNameRest c || c == '.') cs

theorem isNameRest_of_isDigit {c : Char} (h : c.isDigit = true) : isNameRest c = true :=
  isNameRest_iff.2 (.inr h)

theorem EndsWord.noNameRest {cs : List Char} (h : EndsWord cs) : NoHead isNameRest cs :=
  fun c hc => (Bool.or_eq_false_iff.1 (h c hc)).1

theorem EndsWord.noDigit {cs : List Char} (h : EndsWord cs) : NoHead Char.isDigit cs :=
  fun c hc => Bool.eq_false_iff.2 fun hdigit =>
    Bool.eq_false_iff.1 (h.noNameRest c hc) (isNameRest_of_isDigit hdigit)

/-- Before what goes on with no word, a whole fraction is taken. -/
theorem scanFraction_append {offset : Nat} {fraction rest : List Char}
    (h : IsFraction fraction) (hrest : EndsWord rest) :
    scanFraction offset (fraction ++ rest) = .ok (fraction, rest) := by
  have hdigit : NoHead Char.isDigit rest := hrest.noDigit
  have hletter : rest.head? ≠ some 'e' := by
    intro hc
    have h := hrest 'e' hc
    exact absurd h (by decide)
  obtain rfl | ⟨digits, exponent, hdigits, hexponent, rfl⟩ := h
  · have hpoint : rest.head? ≠ some '.' := by
      intro hc
      have h := hrest '.' hc
      exact absurd h (by decide)
    rw [List.nil_append, scanFraction]
    rintro rest' rfl
    exact hpoint rfl
  · have hafter : NoHead Char.isDigit (exponent ++ rest) := by
      obtain rfl | ⟨sign, digits, -, -, rfl⟩ := hexponent
      · exact hdigit
      · simp
    have hexp : ∀ offset, scanExponent offset (exponent ++ rest) = .ok (exponent, rest) := by
      intro offset
      refine scanExponent_eq_ok_iff.2 ⟨hexponent, rfl, ?_, fun _ => hdigit⟩
      rintro rfl
      exact hletter
    have hcs : '.' :: digits ++ exponent ++ rest = '.' :: (digits ++ (exponent ++ rest)) := by simp
    rw [hcs, scanFraction, scanDigits_eq_ok_iff.2 ⟨hdigits, rfl, hafter⟩]
    show Bind.bind (scanExponent _ _) _ = _
    rw [hexp]
    rfl

/-- Characters that are written with a single byte. -/
def IsAscii (cs : List Char) : Prop :=
  ∀ c ∈ cs, c.utf8Size = 1

theorem IsAscii.byteLength_eq {cs : List Char} (h : IsAscii cs) : byteLength cs = cs.length := by
  induction cs with
  | nil => rfl
  | cons c cs ih =>
    obtain ⟨hc, hcs⟩ := List.forall_mem_cons.1 h
    rw [byteLength_cons, hc, ih hcs, List.length_cons]
    omega

/-- Names and numbers are written in ASCII characters from the minus sign on. -/
theorem toNat_of_isNameRest {c : Char} (h : isNameRest c = true) :
    45 ≤ c.toNat ∧ c.toNat ≤ 127 := by
  rw [isNameRest_iff, isNameStart_iff_toNat, Char.isDigit_iff_toNat] at h
  obtain (rfl | h | h) | ⟨hge, hle⟩ := h
  · decide
  · omega
  · omega
  · exact ⟨Nat.le_trans (by decide) hge, Nat.le_trans hle (by decide)⟩

theorem utf8Size_of_isNameRest {c : Char} (h : isNameRest c = true) : c.utf8Size = 1 := by
  rw [Char.utf8Size_eq_one_iff, UInt32.le_iff_toNat_le]
  exact (toNat_of_isNameRest h).2

theorem isAscii_of_isDigits {cs : List Char} (h : ∀ c ∈ cs, c.isDigit = true) : IsAscii cs :=
  fun c hc => utf8Size_of_isNameRest (isNameRest_of_isDigit (h c hc))

theorem isAscii_append {cs ds : List Char} (hcs : IsAscii cs) (hds : IsAscii ds) :
    IsAscii (cs ++ ds) := by
  intro c hc
  exact (List.mem_append.1 hc).elim (hcs c) (hds c)

theorem IsSign.isAscii {sign : List Char} (h : IsSign sign) : IsAscii sign := by
  obtain rfl | rfl := h
  · exact nofun
  · exact List.forall_mem_cons.2 ⟨by decide, nofun⟩

theorem IsExponent.isAscii {cs : List Char} (h : IsExponent cs) : IsAscii cs := by
  obtain rfl | ⟨sign, digits, hsign, hdigits, rfl⟩ := h
  · exact nofun
  · refine isAscii_append (List.forall_mem_cons.2 ⟨by decide, hsign.isAscii⟩) ?_
    exact isAscii_of_isDigits hdigits.2

theorem IsFraction.isAscii {cs : List Char} (h : IsFraction cs) : IsAscii cs := by
  obtain rfl | ⟨digits, exponent, hdigits, hexponent, rfl⟩ := h
  · exact nofun
  · refine isAscii_append (List.forall_mem_cons.2 ⟨by decide, ?_⟩) hexponent.isAscii
    exact isAscii_of_isDigits hdigits.2

/-- A scanner that starts at an offset takes a text from the characters there, which
is empty only at the end. -/
structure Scanned.Covers (start : Nat) (cs : List Char) (scanned : Scanned) : Prop where
  start_eq : scanned.start = start
  isProper : scanned.lexeme.IsProper
  exists_text : ∃ text, cs = text ++ scanned.rest ∧ scanned.stop = start + byteLength text ∧
    (text = [] → scanned.lexeme.kind = .eof)
  eq_nil : scanned.lexeme.kind = .eof → cs = []

theorem IsInteger.isAscii {cs : List Char} (h : IsInteger cs) : IsAscii cs := by
  obtain ⟨sign, digits, hsign, hdigits, rfl⟩ := h
  exact isAscii_append hsign.isAscii (isAscii_of_isDigits hdigits.isDigits.2)

theorem IsInteger.ne_nil {cs : List Char} (h : IsInteger cs) : cs ≠ [] := by
  obtain ⟨sign, digits, -, hdigits, rfl⟩ := h
  exact List.append_ne_nil_of_right_ne_nil _ hdigits.isDigits.1

/-- A number that is scanned is an integer and the fraction after it. -/
theorem scanNumber_parts {start : Nat} {cs : List Char} {scanned : Scanned}
    (h : scanNumber start cs = .ok scanned) :
    ∃ integer fraction rest offset, IsInteger integer ∧ IsFraction fraction ∧
      cs = integer ++ fraction ++ rest ∧ NoHead Char.isDigit (fraction ++ rest) ∧
      scanFraction offset (fraction ++ rest) = .ok (fraction, rest) ∧
      scanned =
        { lexeme :=
            { kind := if fraction.isEmpty then .int else .float
              value := some (String.ofList (integer ++ fraction)) }
          start
          stop := start + (integer ++ fraction).length
          rest } := by
  cases hsign : scanSign cs with
  | mk sign afterSign =>
    obtain ⟨hsignForm, rfl, -⟩ := scanSign_eq_iff.1 hsign
    simp only [scanNumber, hsign] at h
    obtain ⟨⟨digits, afterDigits⟩, hdigits, h⟩ := bind_eq_ok_iff.1 h
    obtain ⟨⟨fraction, rest⟩, hfraction, h⟩ := bind_eq_ok_iff.1 h
    obtain rfl := Except.ok.inj h
    obtain ⟨hpart, rfl, hafter⟩ := scanIntegerPart_eq_ok_iff.1 hdigits
    obtain ⟨hform, rfl⟩ := scanFraction_spec hfraction
    exact ⟨sign ++ digits, fraction, rest, _, ⟨sign, digits, hsignForm, hpart, rfl⟩, hform,
      by simp, hafter, hfraction, rfl⟩

theorem scanNumber_covers {start : Nat} {cs : List Char} {scanned : Scanned}
    (h : scanNumber start cs = .ok scanned) : scanned.Covers start cs := by
  obtain ⟨integer, fraction, rest, -, hinteger, hform, rfl, -, -, rfl⟩ := scanNumber_parts h
  have hascii := isAscii_append hinteger.isAscii hform.isAscii
  refine ⟨rfl, ?_, ⟨integer ++ fraction, rfl, by rw [hascii.byteLength_eq], fun htext => ?_⟩,
    fun heof => ?_⟩
  · obtain rfl | ⟨fractionDigits, exponent, hfd, hexp, rfl⟩ := hform
    · simpa [Lexeme.IsProper] using hinteger
    · have hfloat : IsFloat (integer ++ ('.' :: fractionDigits ++ exponent)) :=
        ⟨_, fractionDigits, exponent, hinteger, hfd, hexp, by simp⟩
      simpa [Lexeme.IsProper] using hfloat
  · exact absurd (List.append_eq_nil_iff.1 htext).1 hinteger.ne_nil
  · cases hempty : fraction.isEmpty <;> simp [hempty] at heof

theorem scanNumber_lexical {start : Nat} {cs : List Char} {fault : Fault}
    (h : scanNumber start cs = .error fault) : fault.cause.category = .lexical := by
  refine bind_lexical (fun _ => scanIntegerPart_lexical) (fun _ _ h => ?_) h
  exact bind_lexical (fun _ => scanFraction_lexical) (fun _ _ h => by cases h) h

/-- A number is scanned once it is known where its digits end and which fraction comes
after them. -/
theorem scanNumber_of_parts (start : Nat) {integer fraction rest : List Char}
    (hinteger : IsInteger integer) (hafter : NoHead Char.isDigit (fraction ++ rest))
    (hfraction : ∀ offset, scanFraction offset (fraction ++ rest) = .ok (fraction, rest)) :
    scanNumber start (integer ++ fraction ++ rest) =
      .ok
        { lexeme :=
            { kind := if fraction.isEmpty then .int else .float
              value := some (String.ofList (integer ++ fraction)) }
          start
          stop := start + (integer ++ fraction).length
          rest } := by
  obtain ⟨sign, digits, hsign, hdigits, rfl⟩ := hinteger
  have hscanSign : scanSign (sign ++ digits ++ fraction ++ rest) =
      (sign, digits ++ (fraction ++ rest)) := by
    refine scanSign_eq_iff.2 ⟨hsign, by simp, ?_⟩
    rintro rfl
    simpa using hdigits.isDigits.head?_append_ne (fraction ++ rest)
  simp only [scanNumber, hscanSign]
  rw [scanIntegerPart_eq_ok_iff.2 ⟨hdigits, rfl, hafter⟩]
  show Bind.bind (scanFraction _ _) _ = _
  rw [hfraction]
  rfl

theorem scanNumber_append (start : Nat) {integer fraction rest : List Char}
    (hinteger : IsInteger integer) (hfraction : IsFraction fraction) (hrest : EndsWord rest) :
    scanNumber start (integer ++ fraction ++ rest) =
      .ok
        { lexeme :=
            { kind := if fraction.isEmpty then .int else .float
              value := some (String.ofList (integer ++ fraction)) }
          start
          stop := start + (integer ++ fraction).length
          rest } := by
  refine scanNumber_of_parts start hinteger ?_ fun _ => scanFraction_append hfraction hrest
  obtain rfl | ⟨fractionDigits, exponent, -, -, rfl⟩ := hfraction
  · exact hrest.noDigit
  · simp

/-! ## Names -/

theorem isNameRest_of_isNameStart {c : Char} (h : isNameStart c = true) :
    isNameRest c = true :=
  isNameRest_iff.2 (.inl h)

theorem isName_iff {text : String} :
    isName text = true ↔
      ∃ c cs, text.toList = c :: cs ∧ isNameStart c = true ∧ ∀ d ∈ cs, isNameRest d = true := by
  rw [isName]
  cases h : text.toList with
  | nil => simp
  | cons c cs =>
    simp only [Bool.and_eq_true, List.all_eq_true]
    constructor
    · rintro ⟨hc, hcs⟩
      exact ⟨c, cs, rfl, hc, hcs⟩
    · rintro ⟨c', cs', heq, hc, hcs⟩
      obtain ⟨rfl, rfl⟩ := List.cons.inj heq
      exact ⟨hc, hcs⟩

/-- A name is scanned up to what it does not go on with. -/
theorem scanName_run (start : Nat) {text rest : List Char}
    (htext : ∀ c ∈ text, isNameRest c = true) (hrest : NoHead isNameRest rest) :
    scanName start (text ++ rest) =
      { lexeme := { kind := .name, value := some (String.ofList text) }
        start
        stop := start + text.length
        rest } := by
  obtain ⟨htake, hdrop⟩ := takeWhile_dropWhile_eq_iff.2 ⟨htext, rfl, hrest⟩
  rw [scanName, htake, hdrop]

/-- What begins like a name is a name and what comes after it. -/
theorem exists_name_run {c : Char} (hc : isNameStart c = true) (cs : List Char) :
    ∃ text rest, cs = text ++ rest ∧ (∀ d ∈ c :: text, isNameRest d = true) ∧
      NoHead isNameRest rest := by
  obtain ⟨hrun, hcs, hrest⟩ :=
    takeWhile_dropWhile_eq_iff.1 (⟨rfl, rfl⟩ : cs.takeWhile isNameRest = _ ∧ _ = _)
  exact ⟨_, _, hcs, List.forall_mem_cons.2 ⟨isNameRest_of_isNameStart hc, hrun⟩, hrest⟩

theorem isAscii_of_isNameRest {cs : List Char} (h : ∀ c ∈ cs, isNameRest c = true) :
    IsAscii cs :=
  fun c hc => utf8Size_of_isNameRest (h c hc)

theorem scanName_covers {start : Nat} {c : Char} {cs : List Char} (hc : isNameStart c = true) :
    (scanName start (c :: cs)).Covers start (c :: cs) := by
  obtain ⟨text, rest, rfl, htext, hrest⟩ := exists_name_run hc cs
  rw [← List.cons_append, scanName_run start htext hrest]
  refine ⟨rfl, ?_, ⟨c :: text, rfl, ?_, nofun⟩, nofun⟩
  · have hname : isName (String.ofList (c :: text)) = true :=
      isName_iff.2 ⟨c, text, by simp, hc, fun d hd => htext d (List.mem_cons_of_mem c hd)⟩
    exact hname
  · rw [(isAscii_of_isNameRest htext).byteLength_eq]

theorem scanName_append {start : Nat} {text : String} {rest : List Char}
    (htext : isName text = true) (hrest : EndsWord rest) :
    scanName start (text.toList ++ rest) =
      { lexeme := .ofName text, start, stop := start + text.toList.length, rest } := by
  obtain ⟨c, cs, heq, hc, hcs⟩ := isName_iff.1 htext
  have hall : ∀ d ∈ text.toList, isNameRest d = true := by
    rw [heq]
    exact List.forall_mem_cons.2 ⟨isNameRest_of_isNameStart hc, hcs⟩
  rw [scanName_run start hall hrest.noNameRest, String.ofList_toList]
  rfl

/-! ## Strings -/

theorem utf8Size_of_hexDigit? {c : Char} {n : Nat} (h : hexDigit? c = some n) :
    c.utf8Size = 1 := by
  rw [Char.utf8Size_eq_one_iff]
  unfold hexDigit? at h
  split at h
  · rename_i hc
    exact UInt32.le_trans hc.2 (by decide)
  · split at h
    · rename_i hc
      exact UInt32.le_trans hc.2 (by decide)
    · split at h
      · rename_i hc
        exact UInt32.le_trans hc.2 (by decide)
      · cases h

/-- A code is read off four digits in front. -/
theorem hexCode?_eq_some {cs : List Char} {code : Nat} (h : hexCode? cs = some code) :
    ∃ a b c d rest w x y z, cs = a :: b :: c :: d :: rest ∧ hexDigit? a = some w ∧
      hexDigit? b = some x ∧ hexDigit? c = some y ∧ hexDigit? d = some z ∧
      ((w * 16 + x) * 16 + y) * 16 + z = code := by
  unfold hexCode? at h
  split at h
  case h_1 a b c d rest =>
    obtain ⟨w, ha, h⟩ := Option.bind_eq_some_iff.1 h
    obtain ⟨x, hb, h⟩ := Option.bind_eq_some_iff.1 h
    obtain ⟨y, hc, h⟩ := Option.bind_eq_some_iff.1 h
    obtain ⟨z, hd, h⟩ := Option.bind_eq_some_iff.1 h
    exact ⟨a, b, c, d, rest, w, x, y, z, rfl, ha, hb, hc, hd, Option.some.inj h⟩
  case h_2 => cases h

/-- What is read off `n` ASCII characters in front, whatever comes after them. -/
def ReadsAscii {α : Type} (scanner : List Char → Option α) (cs : List Char) (a : α)
    (n : Nat) : Prop :=
  ∃ text rest, cs = text ++ rest ∧ text.length = n ∧ IsAscii text ∧
    ∀ rest', scanner (text ++ rest') = some a

theorem hexCode?_readsAscii {cs : List Char} {code : Nat} (h : hexCode? cs = some code) :
    ReadsAscii hexCode? cs code 4 := by
  obtain ⟨a, b, c, d, rest, _, _, _, _, rfl, ha, hb, hc, hd, rfl⟩ := hexCode?_eq_some h
  refine ⟨[a, b, c, d], rest, rfl, rfl, ?_, fun _ => by simp [hexCode?, ha, hb, hc, hd]⟩
  simp [IsAscii, utf8Size_of_hexDigit? ha, utf8Size_of_hexDigit? hb, utf8Size_of_hexDigit? hc,
    utf8Size_of_hexDigit? hd]

/-- What is read behind the letter u is the code of a character or the codes of a pair of
surrogates. -/
theorem unicodeEscape?_eq_some {cs : List Char} {c : Char} {n : Nat}
    (h : unicodeEscape? cs = some (c, n)) :
    (∃ code, hexCode? cs = some code ∧ isHighSurrogate code = false ∧
      isLowSurrogate code = false ∧ Char.ofNat code = c ∧ n = 4) ∨
    ∃ high low rest, hexCode? cs = some high ∧ isHighSurrogate high = true ∧
      cs.drop 4 = '\\' :: 'u' :: rest ∧ hexCode? rest = some low ∧ isLowSurrogate low = true ∧
      ofSurrogates high low = c ∧ n = 10 := by
  obtain ⟨code, hcode, h⟩ := Option.bind_eq_some_iff.1 h
  cases hhigh : isHighSurrogate code with
  | true =>
    rw [if_pos hhigh] at h
    split at h
    case h_1 rest hdrop =>
      obtain ⟨low, hlow, h⟩ := Option.bind_eq_some_iff.1 h
      obtain ⟨hpair, h⟩ := Option.ite_none_right_eq_some.1 h
      obtain ⟨rfl, rfl⟩ := Prod.mk.inj (Option.some.inj h)
      exact .inr ⟨code, low, rest, hcode, hhigh, hdrop, hlow, hpair, rfl, rfl⟩
    case h_2 => cases h
  | false =>
    rw [if_neg (ne_true_of_eq_false hhigh)] at h
    obtain ⟨hlow, h⟩ := Option.ite_none_left_eq_some.1 h
    obtain ⟨rfl, rfl⟩ := Prod.mk.inj (Option.some.inj h)
    exact .inl ⟨code, hcode, hhigh, Bool.eq_false_iff.2 hlow, rfl, rfl⟩

theorem unicodeEscape?_readsAscii {cs : List Char} {c : Char} {n : Nat}
    (h : unicodeEscape? cs = some (c, n)) : ReadsAscii unicodeEscape? cs (c, n) n := by
  obtain ⟨code, hcode, hhigh, hlow, rfl, rfl⟩ |
    ⟨high, low, rest, hhigh, hishigh, hdrop, hlow, hislow, rfl, rfl⟩ := unicodeEscape?_eq_some h
  · obtain ⟨digits, rest, rfl, hlen, hascii, hread⟩ := hexCode?_readsAscii hcode
    exact ⟨digits, rest, rfl, hlen, hascii, by simp [unicodeEscape?, hread, hhigh, hlow]⟩
  · obtain ⟨digits, behind, rfl, hlen, hascii, hread⟩ := hexCode?_readsAscii hhigh
    obtain ⟨digits', rest, rfl, hlen', hascii', hread'⟩ := hexCode?_readsAscii hlow
    rw [List.drop_left' hlen] at hdrop
    subst hdrop
    refine ⟨digits ++ '\\' :: 'u' :: digits', rest, by simp, by simp [hlen, hlen'], ?_, ?_⟩
    · exact isAscii_append hascii (List.forall_mem_cons.2 ⟨by decide,
        List.forall_mem_cons.2 ⟨by decide, hascii'⟩⟩)
    · simp [unicodeEscape?, hread, hishigh, List.drop_left' hlen, hread', hislow]

theorem escape?_readsAscii {cs : List Char} {c : Char} {n : Nat}
    (h : escape? cs = some (c, n)) : ReadsAscii escape? cs (c, n) n := by
  unfold escape? at h
  split at h
  case h_9 cs =>
    obtain ⟨⟨meant, m⟩, hunicode, h⟩ := Option.map_eq_some_iff.1 h
    obtain ⟨rfl, rfl⟩ := Prod.mk.inj h
    obtain ⟨text, rest, rfl, rfl, hascii, hread⟩ := unicodeEscape?_readsAscii hunicode
    exact ⟨'u' :: text, rest, rfl, rfl, List.forall_mem_cons.2 ⟨by decide, hascii⟩,
      by simp [escape?, hread]⟩
  case h_10 => cases h
  all_goals
    obtain ⟨rfl, rfl⟩ := Prod.mk.inj (Option.some.inj h)
    exact ⟨[_], _, rfl, rfl, List.forall_mem_cons.2 ⟨by decide, nofun⟩, fun _ => rfl⟩

theorem scanContents_escape {cs rest : List Char} {c : Char} {n : Nat}
    (h : escape? cs = some (c, n)) (hrest : cs.drop n = rest) (offset : Nat)
    (decoded : List Char) :
    scanContents offset decoded ('\\' :: cs) =
      scanContents (offset + 1 + n) (c :: decoded) rest := by
  have hne : cs.isEmpty = false := by
    cases cs with
    | nil => simp [escape?] at h
    | cons => rfl
  rw [scanContents, ← hrest]
  simp [isLineTerminator, hne, h]

/-- The contents of a string and its closing quotation mark are a text that is read
alike wherever it starts and whatever comes after it. -/
theorem scanContents_reads {offset : Nat} {decoded cs contents rest : List Char} {stop : Nat}
    (h : scanContents offset decoded cs = .ok (contents, stop, rest)) :
    ∃ text, cs = text ++ rest ∧ stop = offset + byteLength text ∧
      ∀ offset' rest', scanContents offset' decoded (text ++ rest') =
        .ok (contents, offset' + byteLength text, rest') := by
  fun_induction scanContents offset decoded cs with
  | case1 => cases h
  | case2 offset decoded c cs hquote =>
    obtain ⟨rfl, rfl, rfl⟩ : _ ∧ _ ∧ _ := by simpa using h
    obtain rfl := beq_iff_eq.1 hquote
    exact ⟨['"'], rfl, rfl, fun _ _ => by rw [List.singleton_append, scanContents]; rfl⟩
  | case3 => cases h
  | case4 => cases h
  | case5 offset decoded c cs _ _ hbackslash _ meant n hescape ih =>
    obtain ⟨text, hcs, rfl, hread⟩ := ih h
    obtain rfl := beq_iff_eq.1 hbackslash
    obtain ⟨escape, rest', rfl, rfl, hascii, hread'⟩ := escape?_readsAscii hescape
    rw [List.drop_left] at hcs
    have hsize : byteLength ('\\' :: escape ++ text) = 1 + escape.length + byteLength text := by
      rw [byteLength_append, byteLength_cons, hascii.byteLength_eq,
        show '\\'.utf8Size = 1 by decide]
    refine ⟨'\\' :: escape ++ text, by simp [hcs], by omega, fun offset' rest'' => ?_⟩
    rw [List.append_assoc, List.cons_append,
      scanContents_escape (hread' (text ++ rest'')) List.drop_left, hread, hsize,
      Nat.add_assoc, Nat.add_assoc, Nat.add_assoc]
  | case6 => cases h
  | case7 offset decoded c cs hquote hline hbackslash ih =>
    obtain ⟨text, rfl, rfl, hread⟩ := ih h
    refine ⟨c :: text, rfl, by rw [byteLength_cons]; omega, fun offset' rest' => ?_⟩
    rw [List.cons_append, scanContents, if_neg hquote, if_neg hline, if_neg hbackslash, hread,
      byteLength_cons, Nat.add_assoc]

theorem scanContents_lexical {offset : Nat} {decoded cs : List Char} {fault : Fault}
    (h : scanContents offset decoded cs = .error fault) : fault.cause.category = .lexical := by
  fun_induction scanContents offset decoded cs with
  | case1 | case3 | case4 | case6 =>
    cases h
    rfl
  | case2 => cases h
  | case5 _ _ _ _ _ _ _ _ _ _ _ ih => exact ih h
  | case7 _ _ _ _ _ _ _ ih => exact ih h

theorem scanString_covers {start : Nat} {cs : List Char} {scanned : Scanned}
    (h : scanString start cs = .ok scanned) : scanned.Covers start ('"' :: cs) := by
  obtain ⟨⟨contents, stop, rest⟩, hcontents, h⟩ := bind_eq_ok_iff.1 h
  obtain rfl := Except.ok.inj h
  obtain ⟨text, rfl, rfl, -⟩ := scanContents_reads hcontents
  refine ⟨rfl, trivial, ⟨'"' :: text, rfl, ?_, nofun⟩, nofun⟩
  rw [byteLength_cons, show '"'.utf8Size = 1 by decide]
  show start + 1 + byteLength text = _
  omega

/-! ## All tokens -/

theorem ofPunctuator?_hasValue {c : Char} {kind : TokenKind}
    (h : TokenKind.ofPunctuator? c = some kind) :
    c.utf8Size = 1 ∧ kind.hasValue = false ∧ kind ≠ .eof := by
  unfold TokenKind.ofPunctuator? at h
  split at h <;> cases h
  all_goals exact ⟨by decide, rfl, nofun⟩

/-- What a token begins with: a punctuator, three points, a letter or an underscore, a minus
sign or a digit, or a quotation mark. -/
def BeginsToken (c : Char) (cs : List Char) : Prop :=
  (∃ kind, TokenKind.ofPunctuator? c = some kind) ∨ c = '.' ∧ cs.take 2 = ['.', '.'] ∨
    isNameStart c = true ∨ (c = '-' ∨ c.isDigit = true) ∨ c = '"'

/-- What scanning a token comes to, by what the text begins with. -/
inductive ScansToken (start : Nat) : Char → List Char → Except Fault Scanned → Prop
  | punctuator {c : Char} {kind : TokenKind} (cs : List Char)
      (hkind : TokenKind.ofPunctuator? c = some kind) :
      ScansToken start c cs (.ok ⟨.bare kind, start, start + 1, cs⟩)
  | spread (cs : List Char) :
      ScansToken start '.' ('.' :: '.' :: cs) (.ok ⟨.bare .spread, start, start + 3, cs⟩)
  | name {c : Char} (cs : List Char) (hc : isNameStart c = true) :
      ScansToken start c cs (.ok (scanName start (c :: cs)))
  | number {c : Char} (cs : List Char) (hc : c = '-' ∨ c.isDigit = true) :
      ScansToken start c cs (scanNumber start (c :: cs))
  | string (cs : List Char) : ScansToken start '"' cs (scanString start cs)
  | nothing {c : Char} {cs : List Char} (hnone : ¬ BeginsToken c cs) :
      ScansToken start c cs (.error (.atOffset start (.unexpectedCharacter c)))

theorem scansToken (start : Nat) (c : Char) (cs : List Char) :
    ScansToken start c cs (scanToken start (c :: cs)) := by
  rw [scanToken]
  split
  case h_1 kind hkind => exact .punctuator cs hkind
  case h_2 hpunctuator =>
    split
    case isTrue hspread =>
      simp only [Bool.and_eq_true, beq_iff_eq] at hspread
      obtain ⟨rfl, htake⟩ := hspread
      have hcs := List.take_append_drop 2 cs
      rw [htake] at hcs
      rw [← hcs]
      exact .spread _
    case isFalse hspread =>
      split
      case isTrue hname => exact .name cs hname
      case isFalse hname =>
        split
        case isTrue hnumber => exact .number cs (by simpa using hnumber)
        case isFalse hnumber =>
          split
          case isTrue hquote =>
            obtain rfl := beq_iff_eq.1 hquote
            exact .string cs
          case isFalse hquote =>
            refine .nothing ?_
            rintro (⟨kind, hkind⟩ | hpoints | hstart | hsign | rfl)
            · rw [hpunctuator] at hkind
              cases hkind
            · exact hspread (by simpa using hpoints)
            · exact hname hstart
            · exact hnumber (by simpa using hsign)
            · exact hquote rfl

theorem scanToken_covers {start : Nat} {cs : List Char} {scanned : Scanned}
    (h : scanToken start cs = .ok scanned) : scanned.Covers start cs := by
  cases cs with
  | nil =>
    obtain rfl := Except.ok.inj h
    exact ⟨rfl, rfl, ⟨[], rfl, rfl, fun _ => rfl⟩, fun _ => rfl⟩
  | cons c cs =>
    have hscans := scansToken start c cs
    generalize scanToken start (c :: cs) = result at h hscans
    cases hscans with
    | punctuator _ hkind =>
      obtain rfl := Except.ok.inj h
      obtain ⟨hsize, hvalue, heof⟩ := ofPunctuator?_hasValue hkind
      refine ⟨rfl, Lexeme.isProper_bare hvalue, ⟨[c], rfl, ?_, by simp⟩, fun hk => absurd hk heof⟩
      simp [hsize]
    | spread =>
      obtain rfl := Except.ok.inj h
      exact ⟨rfl, rfl, ⟨['.', '.', '.'], rfl, rfl, by simp⟩, by simp⟩
    | name _ hc =>
      obtain rfl := Except.ok.inj h
      exact scanName_covers hc
    | number => exact scanNumber_covers h
    | string => exact scanString_covers h
    | nothing => cases h

theorem scanToken_lexical {start : Nat} {cs : List Char} {fault : Fault}
    (h : scanToken start cs = .error fault) : fault.cause.category = .lexical := by
  cases cs with
  | nil => cases h
  | cons c cs =>
    have hscans := scansToken start c cs
    generalize scanToken start (c :: cs) = result at h hscans
    cases hscans with
    | punctuator | spread | name => cases h
    | number => exact scanNumber_lexical h
    | string => exact bind_lexical (fun _ => scanContents_lexical) (fun _ _ h => by cases h) h
    | nothing =>
      cases h
      rfl

theorem skipIgnored_covers {inComment : Bool} {offset start : Nat} {cs text : List Char}
    (h : skipIgnored inComment offset cs = (start, text)) :
    ∃ ignored, cs = ignored ++ text ∧ start = offset + byteLength ignored := by
  induction cs generalizing inComment offset with
  | nil =>
    obtain ⟨rfl, rfl⟩ := Prod.mk.inj h
    exact ⟨[], rfl, rfl⟩
  | cons c cs ih =>
    have hskip : ∀ {inComment}, skipIgnored inComment (offset + c.utf8Size) cs = (start, text) →
        ∃ ignored, c :: cs = ignored ++ text ∧ start = offset + byteLength ignored := by
      intro inComment h
      obtain ⟨ignored, rfl, rfl⟩ := ih h
      exact ⟨c :: ignored, rfl, by rw [byteLength_cons]; omega⟩
    rw [skipIgnored] at h
    split at h
    · exact hskip h
    · split at h
      · exact hskip h
      · split at h
        · exact hskip h
        · obtain ⟨rfl, rfl⟩ := Prod.mk.inj h
          exact ⟨[], rfl, rfl⟩

/-- A token that is scanned lies somewhere in the text; what is left begins where it
stops. -/
theorem scan_covers {offset : Nat} {cs : List Char} {scanned : Scanned}
    (h : scan offset cs = .ok scanned) :
    ∃ ignored text, cs = ignored ++ text ∧ scanned.Covers (offset + byteLength ignored) text := by
  cases hskip : skipIgnored false offset cs with
  | mk start text =>
    obtain ⟨ignored, rfl, rfl⟩ := skipIgnored_covers hskip
    rw [scan, hskip] at h
    exact ⟨ignored, text, rfl, scanToken_covers h⟩

theorem scan_lexical {offset : Nat} {cs : List Char} {fault : Fault}
    (h : scan offset cs = .error fault) : fault.cause.category = .lexical :=
  scanToken_lexical h

end GraphQLSyntax
