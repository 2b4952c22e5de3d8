import GraphQLSyntax.Proofs.Text.Lines
import GraphQLSyntax.Source.Position

/-!
# Encoded characters

What the bytes of a character tell about it.  The first of them is no continuation and all
others are, so characters can be counted in bytes; and a line feed, a carriage return and the
two separators are recognized by their bytes.
-/

namespace GraphQLSyntax

/-- The bytes that encode the characters. -/
def encodeChars (cs : List Char) : List UInt8 :=
  cs.flatMap String.utf8EncodeChar

@[simp] theorem encodeChars_cons (c : Char) (cs : List Char) :
    encodeChars (c :: cs) = String.utf8EncodeChar c ++ encodeChars cs :=
  List.flatMap_cons

@[simp] theorem encodeChars_append (cs ds : List Char) :
    encodeChars (cs ++ ds) = encodeChars cs ++ encodeChars ds :=
  List.flatMap_append

theorem length_encodeChars (cs : List Char) : (encodeChars cs).length = byteLength cs := by
  induction cs with
  | nil => rfl
  | cons c cs ih =>
    rw [encodeChars_cons, List.length_append, String.length_utf8EncodeChar, ih, byteLength_cons]

/-- The bytes are those of the character, of which there are one to four. -/
inductive IsEncoding (c : Char) : List UInt8 → Prop
  | one (hc : c.toNat < 0x80) : IsEncoding c [.ofNat c.toNat]
  | two {a b : Nat} (ha : a < 32) (hb : b < 64) :
      IsEncoding c [.ofNat (a + 0xC0), .ofNat (b + 0x80)]
  | three {a b d : Nat} (ha : a < 16) (hb : b < 64) (hd : d < 64)
      (hc : c.toNat = (a * 64 + b) * 64 + d) :
      IsEncoding c [.ofNat (a + 0xE0), .ofNat (b + 0x80), .ofNat (d + 0x80)]
  | four {a b d e : Nat} (ha : a < 8) (hb : b < 64) (hd : d < 64) (he : e < 64) :
      IsEncoding c [.ofNat (a + 0xF0), .ofNat (b + 0x80), .ofNat (d + 0x80), .ofNat (e + 0x80)]

theorem isEncoding_utf8EncodeChar (c : Char) : IsEncoding c (String.utf8EncodeChar c) := by
  have hmod : ∀ n, n % 64 < 64 := fun n => Nat.mod_lt n (by decide)
  unfold String.utf8EncodeChar
  simp only []
  split
  case isTrue hone => exact .one (Nat.lt_succ_of_le hone)
  case isFalse =>
    split
    case isTrue => exact .two (Nat.mod_lt _ (by decide)) (hmod _)
    case isFalse =>
      split
      case isTrue hthree =>
        refine .three (Nat.mod_lt _ (by decide)) (hmod _) (hmod _) ?_
        show c.val.toNat = _
        omega
      case isFalse => exact .four (Nat.mod_lt _ (by decide)) (hmod _) (hmod _) (hmod _)

/-! ## Counting characters -/

theorem isContinuation_ofNat :
    ∀ n < 256, isContinuation (.ofNat n) = decide (0x80 ≤ n ∧ n < 0xC0) := by
  decide +kernel

/-- The first byte of a character is no continuation, and all others are. -/
theorem IsEncoding.exists_cons {c : Char} {bytes : List UInt8} (h : IsEncoding c bytes) :
    ∃ b bs, bytes = b :: bs ∧ isContinuation b = false ∧ ∀ d ∈ bs, isContinuation d = true := by
  have hcontinues : ∀ {n}, n < 64 → isContinuation (.ofNat (n + 0x80)) = true := by
    intro n hn
    rw [isContinuation_ofNat _ (by omega), decide_eq_true_eq]
    omega
  have hstarts : ∀ {n}, n < 256 → ¬ (0x80 ≤ n ∧ n < 0xC0) → isContinuation (.ofNat n) = false :=
    fun hn hrange => by rw [isContinuation_ofNat _ hn, decide_eq_false hrange]
  cases h with
  | one hc => exact ⟨_, _, rfl, hstarts (by omega) (by omega), List.forall_mem_nil _⟩
  | two ha hb =>
    refine ⟨_, _, rfl, hstarts (by omega) (by omega), ?_⟩
    exact List.forall_mem_cons.2 ⟨hcontinues hb, List.forall_mem_nil _⟩
  | three ha hb hd =>
    refine ⟨_, _, rfl, hstarts (by omega) (by omega), ?_⟩
    exact List.forall_mem_cons.2 ⟨hcontinues hb,
      List.forall_mem_cons.2 ⟨hcontinues hd, List.forall_mem_nil _⟩⟩
  | four ha hb hd he =>
    refine ⟨_, _, rfl, hstarts (by omega) (by omega), ?_⟩
    exact List.forall_mem_cons.2 ⟨hcontinues hb, List.forall_mem_cons.2 ⟨hcontinues hd,
      List.forall_mem_cons.2 ⟨hcontinues he, List.forall_mem_nil _⟩⟩⟩

/-- There are as many characters as bytes that are no continuations. -/
theorem countP_encodeChars (cs : List Char) :
    (encodeChars cs).countP (fun b => !isContinuation b) = cs.length := by
  induction cs with
  | nil => rfl
  | cons c cs ih =>
    obtain ⟨b, bs, heq, hb, hbs⟩ := (isEncoding_utf8EncodeChar c).exists_cons
    have hnone : bs.countP (fun b => !isContinuation b) = 0 :=
      List.countP_eq_zero.2 fun d hd => by simp [hbs d hd]
    rw [encodeChars_cons, heq, List.countP_append, List.countP_cons_of_pos (by simp [hb]), hnone,
      ih, List.length_cons]
    omega

/-! ## Line terminators -/

theorem terminatorLength_cons (b : UInt8) (bs : List UInt8) :
    terminatorLength (b :: bs) =
      if b = 0x0D then if bs.head? = some 0x0A then 2 else 1
      else if b = 0x0A then 1
      else if b = 0xE2 ∧ (bs.take 2 = [0x80, 0xA8] ∨ bs.take 2 = [0x80, 0xA9]) then 3
      else 0 := by
  unfold terminatorLength
  split
  case h_2 hpair heq =>
    obtain ⟨rfl, rfl⟩ := List.cons.inj heq
    rw [if_pos rfl, if_neg]
    intro hhead
    obtain ⟨rest, rfl⟩ := List.head?_eq_some_iff.1 hhead
    exact hpair rest rfl
  case h_1 heq =>
    obtain ⟨rfl, rfl⟩ := List.cons.inj heq
    rfl
  case h_3 heq =>
    obtain ⟨rfl, rfl⟩ := List.cons.inj heq
    rfl
  case h_4 heq =>
    obtain ⟨rfl, rfl⟩ := List.cons.inj heq
    simp
  case h_5 hreturn hfeed hseparator =>
    rw [if_neg fun h : b = 0x0D => hreturn bs (h ▸ rfl),
      if_neg fun h : b = 0x0A => hfeed bs (h ▸ rfl), if_neg]
    rintro ⟨rfl, htake | htake⟩
    all_goals
      have hbs := List.take_append_drop 2 bs
      rw [htake] at hbs
      exact hseparator _ (bs.drop 2) (congrArg (0xE2 :: ·) hbs.symm)

theorem eq_of_ofNat_eq {n : Nat} (b : UInt8) (hn : n < 256) (h : UInt8.ofNat n = b) :
    n = b.toNat := by
  rwa [← UInt8.toNat_inj, UInt8.toNat_ofNat_of_lt' hn] at h

theorem terminatorLength_of_isContinuation {b : UInt8} (hb : isContinuation b = true)
    (bs : List UInt8) : terminatorLength (b :: bs) = 0 := by
  have hne : ∀ b', isContinuation b' = false → b ≠ b' := fun b' hb' h => by
    rw [h, hb'] at hb
    cases hb
  rw [terminatorLength_cons, if_neg (hne _ (by decide)), if_neg (hne _ (by decide)),
    if_neg fun h => hne _ (by decide) h.1]

/-- A character that ends no line is not taken for a line terminator. -/
theorem terminatorLength_of_not_endsLine {c : Char} (hc : ¬ EndsLine c) (bs : List UInt8) :
    terminatorLength (String.utf8EncodeChar c ++ bs) = 0 := by
  have hother : ∀ {n}, n < 256 → n ≠ 0x0D → n ≠ 0x0A → ∀ bs,
      (n = 0xE2 → ¬ (bs.take 2 = [0x80, 0xA8] ∨ bs.take 2 = [0x80, 0xA9])) →
        terminatorLength (.ofNat n :: bs) = 0 := by
    intro n hn hreturn hfeed bs hseparator
    rw [terminatorLength_cons, if_neg fun h => hreturn (eq_of_ofNat_eq 0x0D hn h),
      if_neg fun h => hfeed (eq_of_ofNat_eq 0x0A hn h),
      if_neg fun h => hseparator (eq_of_ofNat_eq 0xE2 hn h.1) h.2]
  have hcode : ∀ d : Char, EndsLine d → c.toNat ≠ d.toNat := by
    rintro d hd heq
    rw [Char.toNat_inj] at heq
    exact hc (heq ▸ hd)
  have hreturn : c.toNat ≠ 0x0D := hcode '\r' (by simp [EndsLine])
  have hfeed : c.toNat ≠ 0x0A := hcode '\n' (by simp [EndsLine])
  have hline : c.toNat ≠ 0x2028 := hcode '\u2028' (by simp [EndsLine])
  have hparagraph : c.toNat ≠ 0x2029 := hcode '\u2029' (by simp [EndsLine])
  have hencoding := isEncoding_utf8EncodeChar c
  generalize String.utf8EncodeChar c = bytes at hencoding
  cases hencoding with
  | one hone => exact hother (by omega) hreturn hfeed _ (by omega)
  | two ha hb => exact hother (by omega) (by omega) (by omega) _ (by omega)
  | four ha hb hd he => exact hother (by omega) (by omega) (by omega) _ (by omega)
  | @three a b d ha hb hd hthree =>
    show terminatorLength (.ofNat (a + 0xE0) :: .ofNat (b + 0x80) :: .ofNat (d + 0x80) :: bs) = 0
    refine hother (by omega) (by omega) (by omega) _ fun hlead htake => ?_
    simp only [List.take_succ_cons, List.take_zero, List.cons.injEq, and_true] at htake
    have hb' : b + 0x80 = 0x80 := eq_of_ofNat_eq 0x80 (by omega) (htake.elim And.left And.left)
    obtain ⟨-, hd'⟩ | ⟨-, hd'⟩ := htake
    · have hd' : d + 0x80 = 0xA8 := eq_of_ofNat_eq 0xA8 (by omega) hd'
      exact hline (hthree.trans (by omega))
    · have hd' : d + 0x80 = 0xA9 := eq_of_ofNat_eq 0xA9 (by omega) hd'
      exact hparagraph (hthree.trans (by omega))

/-- Only a line feed begins with the byte of a line feed. -/
theorem head?_encodeChars_ne {cs : List Char} (h : cs.head? ≠ some '\n') :
    (encodeChars cs).head? ≠ some 0x0A := by
  intro hhead
  cases cs with
  | nil => cases hhead
  | cons c cs =>
    by_cases hc : EndsLine c
    · simp only [EndsLine, List.mem_cons, List.not_mem_nil, or_false] at hc
      obtain rfl | rfl | rfl | rfl := hc
      · exact h rfl
      all_goals exact absurd (Option.some.inj hhead) (by decide)
    · obtain ⟨bs, heq⟩ := List.head?_eq_some_iff.1 hhead
      have hnone := terminatorLength_of_not_endsLine hc (encodeChars cs)
      rw [← encodeChars_cons, heq] at hnone
      cases hnone

/-- A line end is taken for the line terminator that it is. -/
theorem IsLineEnd.terminatorLength_eq {ending rest : List Char} (h : IsLineEnd ending rest) :
    terminatorLength (encodeChars (ending ++ rest)) = byteLength ending := by
  cases h with
  | pair => rfl
  | @single c _ hc hpair =>
    simp only [EndsLine, List.mem_cons, List.not_mem_nil, or_false] at hc
    obtain rfl | rfl | rfl | rfl := hc
    · rfl
    · show terminatorLength (0x0D :: encodeChars rest) = 1
      rw [terminatorLength_cons, if_pos rfl, if_neg (head?_encodeChars_ne (hpair rfl))]
    · rfl
    · rfl

end GraphQLSyntax
