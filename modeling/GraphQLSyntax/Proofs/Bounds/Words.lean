import GraphQLSyntax.Proofs.Bounds.Ignored
import GraphQLSyntax.Proofs.Lexical.Faults

/-!
# Names and numbers byte by byte

Names and numbers are ASCII, so each of their characters is one byte, and a byte of another
character ends them.  The offsets between which their texts are cut out stand between characters.
-/

namespace GraphQLSyntax

theorem isAsciiTest_isNameRest : IsAsciiTest isNameRest :=
  fun _ h => Nat.lt_succ_of_le (toNat_of_isNameRest h).2

theorem isAsciiTest_isDigit : IsAsciiTest Char.isDigit :=
  fun _ h => isAsciiTest_isNameRest _ (isNameRest_of_isDigit h)

theorem isAsciiTest_beq {a : Char} (ha : a.toNat < 0x80) : IsAsciiTest (· == a) :=
  fun c hc => by
    obtain rfl : c = a := beq_iff_eq.1 hc
    exact ha

theorem RestAt.append_ascii {cs text rest : List Char} {offset : Nat}
    (h : RestAt cs offset (text ++ rest)) (htext : IsAscii text) :
    RestAt cs (offset + text.length) rest := by
  rw [← htext.byteLength_eq]
  exact h.append

@[simp] theorem ok_bind {ε α β : Type} (a : α) (f : α → Except ε β) :
    (.ok a : Except ε α) >>= f = f a :=
  rfl

@[simp] theorem error_bind {ε α β : Type} (e : ε) (f : α → Except ε β) :
    (.error e : Except ε α) >>= f = .error e :=
  rfl

@[simp] theorem liftM_some {ε α : Type} (a : α) :
    (liftM (some a) : ExceptT ε Option α) = pure a :=
  rfl

@[simp] theorem mk_some_ok {ε α : Type} (a : α) :
    (ExceptT.mk (some (.ok a)) : ExceptT ε Option α) = pure a :=
  rfl

/-- What is made of a result if every step to it could be taken. -/
def answer {α β : Type} (result : Except Fault α) (f : α → β) : ExceptT Fault Option β :=
  match result with
  | .ok a => pure (f a)
  | .error fault => throw fault

@[simp] theorem answer_ok {α β : Type} (a : α) (f : α → β) : answer (.ok a) f = pure (f a) :=
  rfl

@[simp] theorem answer_error {α β : Type} (fault : Fault) (f : α → β) :
    answer (.error fault) f = throw fault :=
  rfl

namespace ByteReader

variable {reader : ByteReader} {p : Char → Bool} {offset start : Nat} {cs rest : List Char}

theorem sees_eq (hp : IsAsciiTest p) (h : RestAt reader.chars offset cs) :
    reader.sees p offset = cs.head?.any p := by
  cases cs with
  | nil =>
    rw [sees, show reader.bytes[offset]? = none from h.getElem?_eq 0]
    rfl
  | cons c cs =>
    obtain ⟨b, hb, hlead⟩ := exists_lead h
    rw [sees, hb]
    exact hlead.test_eq hp

theorem sees_eq_false (hp : IsAsciiTest p) (h : RestAt reader.chars offset cs)
    (hcs : NoHead p cs) : reader.sees p offset = false := by
  rw [sees_eq hp h, Option.any_eq_false]
  exact hcs

theorem sees_eq_true (hp : IsAsciiTest p) {c : Char} (h : RestAt reader.chars offset (c :: cs))
    (hc : p c = true) : reader.sees p offset = true :=
  (sees_eq hp h).trans hc

/-- A run of bytes ends where the run of characters ends. -/
theorem passRun_eq (hp : IsAsciiTest p) {run : List Char}
    (h : RestAt reader.chars offset (run ++ rest)) (hrun : ∀ c ∈ run, p c = true)
    (hrest : NoHead p rest) : reader.passRun p offset = some (offset + run.length) := by
  have hlimit := lt_limit h
  rw [byteLength_append] at hlimit
  suffices ∀ limit, byteLength run < limit →
      Ends (reader.runStep p) limit offset (offset + run.length) from
    (this reader.limit (by omega)).loop_eq (Nat.le_refl _)
  clear hlimit
  intro limit hlimit
  induction run generalizing offset limit with
  | nil =>
    obtain ⟨limit, rfl⟩ := Nat.exists_eq_add_of_lt hlimit
    refine .last ?_
    rw [runStep, sees_eq_false hp h hrest]
    rfl
  | cons c run ih =>
    obtain ⟨hc, hrun⟩ := List.forall_mem_cons.1 hrun
    have hsize := utf8Size_of_toNat (hp c hc)
    have hnext := h.cons
    rw [byteLength_cons, hsize] at hlimit
    rw [hsize] at hnext
    obtain ⟨limit, rfl⟩ := Nat.exists_eq_add_of_lt hlimit
    rw [List.length_cons, Nat.add_comm run.length, ← Nat.add_assoc]
    refine .next ?_ (ih hnext hrun _ (by omega))
    rw [runStep, sees_eq hp h]
    simp [hc]

theorem readName_eq {c : Char} (h : RestAt reader.chars start (c :: cs))
    (hc : isNameStart c = true) :
    reader.readName start = some (scanName start (c :: cs)).token := by
  obtain ⟨text, rest, rfl, htext, hrest⟩ := exists_name_run hc cs
  have hascii := isAscii_of_isNameRest htext
  have hnext := h.cons
  rw [hascii c List.mem_cons_self] at hnext
  have hstop := passRun_eq isAsciiTest_isNameRest hnext
    (fun d hd => htext d (List.mem_cons_of_mem _ hd)) hrest
  have hslice : textBetween reader.chars start (start + byteLength (c :: text)) =
      some (c :: text) :=
    RestAt.textBetween_eq h
  rw [hascii.byteLength_eq, List.length_cons, Nat.add_comm text.length, ← Nat.add_assoc] at hslice
  rw [readName, hstop, ← List.cons_append, scanName_run start htext hrest]
  simp only [Option.bind_eq_bind, Option.bind_some, hslice, Scanned.token, List.length_cons,
    Nat.add_comm text.length, ← Nat.add_assoc]
  rfl

/-! ## Numbers -/

theorem noHead_beq_of_head?_ne {a : Char} (h : cs.head? ≠ some a) : NoHead (· == a) cs :=
  fun _ hc => beq_eq_false_iff_ne.2 fun hca => h (hca ▸ hc)

theorem passSign_eq {sign : List Char} (h : RestAt reader.chars offset cs)
    (hscan : scanSign cs = (sign, rest)) :
    reader.passSign offset = offset + sign.length ∧
      RestAt reader.chars (offset + sign.length) rest := by
  have hascii : IsAsciiTest (· == '-') := isAsciiTest_beq (by decide)
  obtain ⟨hsign, rfl, hnone⟩ := scanSign_eq_iff.1 hscan
  refine ⟨?_, h.append_ascii hsign.isAscii⟩
  obtain rfl | rfl := hsign
  · refine if_neg ?_
    rw [sees_eq_false hascii h (noHead_beq_of_head?_ne (hnone rfl))]
    exact Bool.false_ne_true
  · exact if_pos (sees_eq_true hascii h rfl)

theorem readDigits_eq (h : RestAt reader.chars offset cs) :
    reader.readDigits offset =
      answer (scanDigits offset cs) fun result => offset + result.1.length := by
  cases hscan : scanDigits offset cs with
  | ok result =>
    obtain ⟨digits, rest⟩ := result
    obtain ⟨⟨hne, hdigits⟩, rfl, hrest⟩ := scanDigits_eq_ok_iff.1 hscan
    obtain ⟨c, digits, rfl⟩ := List.exists_cons_of_ne_nil hne
    rw [readDigits, if_pos (sees_eq_true isAsciiTest_isDigit h (hdigits c List.mem_cons_self)),
      passRun_eq isAsciiTest_isDigit h hdigits hrest]
    rfl
  | error fault =>
    obtain ⟨hnone, rfl⟩ := scanDigits_eq_error hscan
    rw [readDigits, sees_eq_false isAsciiTest_isDigit h hnone]
    rfl

/-- A digit that is no zero. -/
theorem sees_nonzero_eq (h : RestAt reader.chars offset cs) (hzero : cs.head? ≠ some '0') :
    reader.sees (fun c => '1' ≤ c && c ≤ '9') offset = reader.sees Char.isDigit offset := by
  have hascii : IsAsciiTest fun c => '1' ≤ c && c ≤ '9' := fun c hc => by
    simp only [Bool.and_eq_true, decide_eq_true_eq, Char.le_def, UInt32.le_iff_toNat_le] at hc
    exact Nat.lt_of_le_of_lt hc.2 (by decide)
  rw [sees_eq hascii h, sees_eq isAsciiTest_isDigit h]
  cases cs with
  | nil => rfl
  | cons c cs =>
    have hne : c.toNat ≠ 48 := fun hc => hzero (congrArg some (Char.toNat_inj.1 hc))
    rw [Bool.eq_iff_iff]
    simp only [List.head?_cons, Option.any_some, Char.isDigit_iff_toNat, Bool.and_eq_true,
      decide_eq_true_eq, Char.le_def, UInt32.le_iff_toNat_le]
    show 49 ≤ c.toNat ∧ c.toNat ≤ 57 ↔ 48 ≤ c.toNat ∧ c.toNat ≤ 57
    omega

theorem readIntegerPart_eq (h : RestAt reader.chars offset cs) :
    reader.readIntegerPart offset =
      answer (scanIntegerPart offset cs) fun result => offset + result.1.length := by
  have hascii : IsAsciiTest (· == '0') := isAsciiTest_beq (by decide)
  by_cases hzero : cs.head? = some '0'
  · obtain ⟨cs, rfl⟩ := List.head?_eq_some_iff.1 hzero
    have hnext : RestAt reader.chars (offset + 1) cs := h.cons
    rw [readIntegerPart, if_pos (sees_eq_true hascii h rfl), sees_eq isAsciiTest_isDigit hnext]
    cases cs with
    | nil => rfl
    | cons c cs => cases hc : c.isDigit <;> simp [scanIntegerPart, hc]
  · have hdigits : scanIntegerPart offset cs = scanDigits offset cs := by
      unfold scanIntegerPart
      split
      · exact absurd rfl hzero
      · rfl
    rw [readIntegerPart, sees_eq_false hascii h (noHead_beq_of_head?_ne hzero), hdigits,
      ← readDigits_eq h, sees_nonzero_eq h hzero]
    rfl

theorem readExponent_eq (h : RestAt reader.chars offset cs) :
    reader.readExponent offset =
      answer (scanExponent offset cs) fun result => offset + result.1.length := by
  have hascii : IsAsciiTest (· == 'e') := isAsciiTest_beq (by decide)
  by_cases hletter : cs.head? = some 'e'
  · obtain ⟨cs, rfl⟩ := List.head?_eq_some_iff.1 hletter
    have hnext : RestAt reader.chars (offset + 1) cs := h.cons
    cases hsign : scanSign cs with
    | mk sign afterSign =>
      obtain ⟨hpass, hafter⟩ := passSign_eq hnext hsign
      rw [readExponent, if_pos (sees_eq_true hascii h rfl), hpass, readDigits_eq hafter,
        scanExponent, hsign]
      cases hscan : scanDigits (offset + 1 + sign.length) afterSign with
      | ok result =>
        have hlength : offset + 1 + sign.length + result.1.length =
            offset + ('e' :: sign ++ result.1).length := by
          rw [List.length_append, List.length_cons]
          omega
        simp only [hscan, ok_bind, answer_ok, hlength]
      | error fault => simp only [hscan, error_bind, answer_error]
  · have hnone : scanExponent offset cs = .ok ([], cs) := by
      unfold scanExponent
      split
      · exact absurd rfl hletter
      · rfl
    rw [readExponent, sees_eq_false hascii h (noHead_beq_of_head?_ne hletter), hnone]
    rfl

theorem readFraction_eq (h : RestAt reader.chars offset cs) :
    reader.readFraction offset =
      answer (scanFraction offset cs) fun result =>
        (if result.1.isEmpty then .int else .float, offset + result.1.length) := by
  have hascii : IsAsciiTest (· == '.') := isAsciiTest_beq (by decide)
  by_cases hpoint : cs.head? = some '.'
  · obtain ⟨cs, rfl⟩ := List.head?_eq_some_iff.1 hpoint
    have hnext : RestAt reader.chars (offset + 1) cs := h.cons
    rw [readFraction, if_pos (sees_eq_true hascii h rfl), readDigits_eq hnext, scanFraction]
    cases hscan : scanDigits (offset + 1) cs with
    | ok result =>
      obtain ⟨digits, rest⟩ := result
      obtain ⟨hdigits, rfl, -⟩ := scanDigits_eq_ok_iff.1 hscan
      have hafter := hnext.append_ascii (isAscii_of_isDigits hdigits.2)
      simp only [answer_ok, pure_bind, ok_bind, readExponent_eq hafter]
      cases scanExponent (offset + 1 + digits.length) rest with
      | ok result =>
        have hlength : offset + 1 + digits.length + result.1.length =
            offset + ('.' :: digits ++ result.1).length := by
          rw [List.length_append, List.length_cons]
          omega
        simp only [answer_ok, pure_bind, ok_bind, hlength]
        rfl
      | error fault => simp only [answer_error, error_bind, ExceptT.bind_throw]
    | error fault => simp only [answer_error, error_bind, ExceptT.bind_throw]
  · have hnone : scanFraction offset cs = .ok ([], cs) := by
      unfold scanFraction
      split
      · exact absurd rfl hpoint
      · rfl
    rw [readFraction, sees_eq_false hascii h (noHead_beq_of_head?_ne hpoint), hnone]
    rfl

/-- The steps of reading a number come to what scanning it comes to. -/
theorem readNumber_eq (h : RestAt reader.chars start cs) :
    reader.readNumber start = answer (scanNumber start cs) Scanned.token := by
  cases hsign : scanSign cs with
  | mk sign afterSign =>
    obtain ⟨hpass, hafter⟩ := passSign_eq h hsign
    rw [readNumber, hpass, readIntegerPart_eq hafter, scanNumber, hsign]
    cases hinteger : scanIntegerPart (start + sign.length) afterSign with
    | error fault => simp only [hinteger, answer_error, error_bind, ExceptT.bind_throw]
    | ok result =>
      obtain ⟨digits, afterDigits⟩ := result
      obtain ⟨hdigits, rfl, -⟩ := scanIntegerPart_eq_ok_iff.1 hinteger
      have hthen := hafter.append_ascii (isAscii_of_isDigits hdigits.isDigits.2)
      simp only [hinteger, answer_ok, pure_bind, ok_bind, readFraction_eq hthen]
      cases hfraction : scanFraction (start + sign.length + digits.length) afterDigits with
      | error fault => simp only [answer_error, error_bind, ExceptT.bind_throw]
      | ok result =>
        obtain ⟨fraction, rest⟩ := result
        obtain ⟨hform, rfl⟩ := scanFraction_spec hfraction
        obtain ⟨hform', rfl, -⟩ := scanSign_eq_iff.1 hsign
        have hascii : IsAscii (sign ++ digits ++ fraction) :=
          isAscii_append (isAscii_append hform'.isAscii (isAscii_of_isDigits hdigits.isDigits.2))
            hform.isAscii
        have hstop : start + sign.length + digits.length + fraction.length =
            start + (sign ++ digits ++ fraction).length := by
          simp only [List.length_append]
          omega
        have hcut : RestAt reader.chars start (sign ++ digits ++ fraction ++ rest) := by
          simpa using h
        have htext := hcut.textBetween_eq
        rw [hascii.byteLength_eq] at htext
        simp only [answer_ok, pure_bind, ok_bind, hstop, htext]
        rfl

end ByteReader

end GraphQLSyntax
