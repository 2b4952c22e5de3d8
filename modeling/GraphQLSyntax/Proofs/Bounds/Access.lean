import GraphQLSyntax.Proofs.Text.Encoding

/-!
# Access to bytes and texts

What a reader may ask for at offsets that it has counted itself: a byte, a range of bytes, a text
between two offsets, the difference of two numbers.  There is an answer only if the offsets are in
order and inside, those of a text stand between characters, and the difference is not negative.
A loop has an answer only if it ends within a limit and each of its steps has one.

A reader that goes along a text stands between two characters of it most of the time.  What it
then gets is told by the characters that are still to come.
-/

namespace GraphQLSyntax

/-! ## Access -/

/-- The byte at an index. -/
def byteAt (bytes : List UInt8) (i : Nat) : Option UInt8 :=
  bytes[i]?

/-- The bytes from an index on, which may be the end. -/
def bytesFrom (bytes : List UInt8) (i : Nat) : Option (List UInt8) :=
  if i ≤ bytes.length then some (bytes.drop i) else none

/-- The bytes between two indices. -/
def bytesBetween (bytes : List UInt8) (i j : Nat) : Option (List UInt8) :=
  if i ≤ j ∧ j ≤ bytes.length then some ((bytes.take j).drop i) else none

/-- The text from an offset on, which has to stand between characters or at the end. -/
def textFrom (cs : List Char) (i : Nat) : Option (List Char) :=
  (takeBytes? i cs).map fun before => cs.drop before.length

/-- The text between two offsets, both of which have to stand between characters or at an end. -/
def textBetween (cs : List Char) (i j : Nat) : Option (List Char) :=
  if i ≤ j then do
    let before ← takeBytes? i cs
    let upTo ← takeBytes? j cs
    some (upTo.drop before.length)
  else none

/-- What is left of a number. -/
def minus (m n : Nat) : Option Nat :=
  if n ≤ m then some (m - n) else none

theorem minus_eq {m n : Nat} (h : n ≤ m) : minus m n = some (m - n) :=
  if_pos h

/-! ## Loops -/

section Loop

variable {σ α : Type} {step : σ → Option (σ ⊕ α)} {s : σ} {a : α} {n limit : Nat}

/-- Takes steps until one of them brings a result. -/
def loop (step : σ → Option (σ ⊕ α)) : Nat → σ → Option α
  | 0, _ => none
  | limit + 1, s =>
    match step s with
    | none => none
    | some (.inl s') => loop step limit s'
    | some (.inr a) => some a

/-- From the state, a result is come to in so many steps at most. -/
inductive Ends (step : σ → Option (σ ⊕ α)) : Nat → σ → α → Prop
  | last {n : Nat} {s : σ} {a : α} (h : step s = some (.inr a)) : Ends step (n + 1) s a
  | next {n : Nat} {s s' : σ} {a : α} (h : step s = some (.inl s')) (hs : Ends step n s' a) :
      Ends step (n + 1) s a

theorem Ends.loop_eq (h : Ends step n s a) (hn : n ≤ limit) : loop step limit s = some a := by
  induction h generalizing limit with
  | last h =>
    obtain ⟨limit, rfl⟩ := Nat.exists_eq_add_of_le' hn
    rw [← Nat.add_assoc, loop, h]
  | @next n _ _ _ h _ ih =>
    obtain ⟨limit, rfl⟩ := Nat.exists_eq_add_of_le' hn
    rw [← Nat.add_assoc, loop, h]
    exact ih (Nat.le_add_left n limit)

end Loop

/-! ## Standing between characters -/

/-- The offset stands in the text where there is still the rest to come. -/
def RestAt (cs : List Char) (offset : Nat) (rest : List Char) : Prop :=
  ∃ before, cs = before ++ rest ∧ offset = byteLength before

/-- The offset stands between two characters of the text, or at an end. -/
def IsBoundary (cs : List Char) (offset : Nat) : Prop :=
  ∃ rest, RestAt cs offset rest

namespace RestAt

variable {cs text rest : List Char} {offset : Nat}

theorem start (cs : List Char) : RestAt cs 0 cs :=
  ⟨[], rfl, rfl⟩

theorem append (h : RestAt cs offset (text ++ rest)) :
    RestAt cs (offset + byteLength text) rest := by
  obtain ⟨before, rfl, rfl⟩ := h
  exact ⟨before ++ text, (List.append_assoc ..).symm, (byteLength_append ..).symm⟩

theorem cons {c : Char} (h : RestAt cs offset (c :: rest)) :
    RestAt cs (offset + c.utf8Size) rest := by
  have hnext : RestAt cs (offset + byteLength [c]) rest := append h
  simpa using hnext

theorem length_eq (h : RestAt cs offset rest) :
    offset + byteLength rest = (encodeChars cs).length := by
  obtain ⟨before, rfl, rfl⟩ := h
  rw [length_encodeChars, byteLength_append]

theorem drop_eq (h : RestAt cs offset rest) : (encodeChars cs).drop offset = encodeChars rest := by
  obtain ⟨before, rfl, rfl⟩ := h
  rw [encodeChars_append, ← length_encodeChars, List.drop_left]

theorem getElem?_eq (h : RestAt cs offset rest) (k : Nat) :
    (encodeChars cs)[offset + k]? = (encodeChars rest)[k]? := by
  rw [← h.drop_eq, List.getElem?_drop]

theorem bytesFrom_eq (h : RestAt cs offset rest) :
    bytesFrom (encodeChars cs) offset = some (encodeChars rest) := by
  have := h.length_eq
  rw [bytesFrom, if_pos (by omega), h.drop_eq]

theorem bytesBetween_eq (h : RestAt cs offset rest) (i j : Nat) :
    bytesBetween (encodeChars cs) (offset + i) (offset + j) =
      bytesBetween (encodeChars rest) i j := by
  have hlength := h.length_eq
  rw [← length_encodeChars] at hlength
  by_cases hinside : i ≤ j ∧ j ≤ (encodeChars rest).length
  · rw [bytesBetween, bytesBetween, if_pos hinside, if_pos (by omega), List.drop_take,
      List.drop_take, ← List.drop_drop, h.drop_eq, Nat.add_sub_add_left]
  · rw [bytesBetween, bytesBetween, if_neg hinside, if_neg (by omega)]

theorem dropBytes?_eq (h : RestAt cs offset rest) : dropBytes? offset cs = some rest := by
  obtain ⟨before, rfl, rfl⟩ := h
  exact dropBytes?_byteLength_append ..

theorem textFrom_eq (h : RestAt cs offset rest) : textFrom cs offset = some rest := by
  obtain ⟨before, rfl, rfl⟩ := h
  rw [textFrom, takeBytes?_byteLength_append, Option.map_some, List.drop_left]

theorem textBetween_eq (h : RestAt cs offset (text ++ rest)) :
    textBetween cs offset (offset + byteLength text) = some text := by
  obtain ⟨before, rfl, rfl⟩ := h
  have hupTo : takeBytes? (byteLength before + byteLength text) (before ++ (text ++ rest)) =
      some (before ++ text) := by
    rw [← byteLength_append, ← List.append_assoc, takeBytes?_byteLength_append]
  rw [textBetween, if_pos (Nat.le_add_right _ _), takeBytes?_byteLength_append, hupTo]
  exact congrArg some (List.drop_left ..)

end RestAt

/-- An offset in a text stands between two characters, or inside one. -/
theorem exists_restAt_or (cs : List Char) {offset : Nat} (h : offset < byteLength cs) :
    (∃ c rest, RestAt cs offset (c :: rest)) ∨
      dropBytes? offset cs = none ∧ takeBytes? offset cs = none ∧
        ∃ b, (encodeChars cs)[offset]? = some b ∧ isContinuation b = true := by
  induction cs generalizing offset with
  | nil => exact absurd h (Nat.not_lt_zero _)
  | cons c cs ih =>
    rw [byteLength_cons] at h
    cases offset with
    | zero => exact .inl ⟨c, cs, .start _⟩
    | succ n =>
      by_cases hsize : c.utf8Size ≤ n + 1
      · have hless : n + 1 - c.utf8Size < byteLength cs := by omega
        obtain ⟨d, rest, before, rfl, hn⟩ | ⟨hdrop, htake, b, hb, hcontinues⟩ := ih hless
        · refine .inl ⟨d, rest, c :: before, rfl, ?_⟩
          rw [byteLength_cons]
          omega
        · refine .inr ⟨?_, ?_, b, ?_, hcontinues⟩
          · rw [dropBytes?, if_pos hsize, hdrop]
          · rw [takeBytes?, if_pos hsize, htake, Option.map_none]
          · rw [encodeChars_cons, List.getElem?_append_right, String.length_utf8EncodeChar, hb]
            rwa [String.length_utf8EncodeChar]
      · refine .inr ⟨?_, ?_, ?_⟩
        · rw [dropBytes?, if_neg hsize]
        · rw [takeBytes?, if_neg hsize]
        · obtain ⟨b, bs, heq, -, hbs⟩ := (isEncoding_utf8EncodeChar c).exists_cons
          have hlength := congrArg List.length heq
          rw [String.length_utf8EncodeChar, List.length_cons] at hlength
          have hn : n < bs.length := by omega
          refine ⟨bs[n], ?_, hbs _ (List.getElem_mem hn)⟩
          rw [encodeChars_cons, heq, List.cons_append, List.getElem?_cons_succ,
            List.getElem?_append_left hn, List.getElem?_eq_getElem hn]

/-! ## The first byte of a character -/

/-- The byte is the one that the character starts with: that of the character's own code, or, if
the character is beyond ASCII, one beyond ASCII. -/
inductive IsLead (c : Char) (b : UInt8) : Prop
  | ascii (hc : c.toNat < 0x80) (hb : Char.ofUInt8 b = c) : IsLead c b
  | beyond (hc : 0x80 ≤ c.toNat) (hb : 0x80 ≤ b.toNat) : IsLead c b

theorem ofUInt8_toUInt8 {c : Char} (h : c.toNat < 0x80) : Char.ofUInt8 c.toUInt8 = c := by
  rw [← Char.toNat_inj]
  show (UInt8.ofNat c.toNat).toUInt32.toNat = c.toNat
  rw [UInt8.toNat_toUInt32, UInt8.toNat_ofNat_of_lt' (Nat.lt_trans h (by decide))]

theorem exists_isLead (c : Char) (cs : List Char) :
    ∃ b, (encodeChars (c :: cs))[0]? = some b ∧ IsLead c b := by
  rw [encodeChars_cons]
  generalize hbytes : String.utf8EncodeChar c = bytes
  have h := hbytes ▸ isEncoding_utf8EncodeChar c
  have hbeyond : ∀ {n}, n < 256 → 0x80 ≤ n → 1 < c.utf8Size → IsLead c (.ofNat n) := by
    intro n hn hle hsize
    refine .beyond ?_ ?_
    · have hne : ¬ c.val ≤ 127 := fun hc => by
        rw [Char.utf8Size_eq_one_iff.2 hc] at hsize
        exact Nat.lt_irrefl 1 hsize
      rw [UInt32.le_iff_toNat_le] at hne
      exact Nat.lt_of_not_le hne
    · rwa [UInt8.toNat_ofNat_of_lt' hn]
  have hsize : c.utf8Size = bytes.length := by rw [← hbytes, String.length_utf8EncodeChar]
  cases h with
  | one hc => exact ⟨_, rfl, .ascii hc (ofUInt8_toUInt8 hc)⟩
  | two ha hb => exact ⟨_, rfl, hbeyond (by omega) (by omega) (by simp [hsize])⟩
  | three ha hb hd => exact ⟨_, rfl, hbeyond (by omega) (by omega) (by simp [hsize])⟩
  | four ha hb hd he => exact ⟨_, rfl, hbeyond (by omega) (by omega) (by simp [hsize])⟩

theorem toNat_of_isContinuation {b : UInt8} (h : isContinuation b = true) : 0x80 ≤ b.toNat := by
  rw [← @UInt8.ofNat_toNat b, isContinuation_ofNat _ b.toNat_lt, decide_eq_true_eq] at h
  exact h.1

theorem utf8Size_of_toNat {c : Char} (h : c.toNat < 0x80) : c.utf8Size = 1 :=
  Char.utf8Size_eq_one_iff.2 (UInt32.le_iff_toNat_le.2 (Nat.le_of_lt_succ h))

section Apply

variable {β : Type} {f : Char → β} {y : β} {b : UInt8} {c : Char}

/-- What is the same for all characters beyond ASCII is so for bytes beyond ASCII. -/
theorem apply_ofUInt8 (hf : ∀ c : Char, 0x80 ≤ c.toNat → f c = y) (hb : 0x80 ≤ b.toNat) :
    f (Char.ofUInt8 b) = y := by
  refine hf _ ?_
  show 0x80 ≤ b.toUInt32.toNat
  rwa [UInt8.toNat_toUInt32]

/-- What is the same for all characters beyond ASCII can be told by the first byte. -/
theorem IsLead.apply_eq (h : IsLead c b) (hf : ∀ c : Char, 0x80 ≤ c.toNat → f c = y) :
    f (Char.ofUInt8 b) = f c := by
  cases h with
  | ascii _ hb => rw [hb]
  | beyond hc hb => rw [hf c hc, apply_ofUInt8 hf hb]

/-- The characters that pass the test are ASCII. -/
def IsAsciiTest (p : Char → Bool) : Prop :=
  ∀ c, p c = true → c.toNat < 0x80

theorem IsAsciiTest.eq_false {p : Char → Bool} (hp : IsAsciiTest p) (hc : 0x80 ≤ c.toNat) :
    p c = false :=
  Bool.eq_false_iff.2 fun hpc => Nat.not_lt.2 hc (hp c hpc)

theorem IsAsciiTest.ofUInt8_eq_false {p : Char → Bool} (hp : IsAsciiTest p) (hb : 0x80 ≤ b.toNat) :
    p (Char.ofUInt8 b) = false :=
  apply_ofUInt8 (fun _ => hp.eq_false) hb

theorem IsLead.test_eq {p : Char → Bool} (h : IsLead c b) (hp : IsAsciiTest p) :
    p (Char.ofUInt8 b) = p c :=
  h.apply_eq fun _ => hp.eq_false

theorem IsLead.eq_iff (h : IsLead c b) {a : Char} (ha : a.toNat < 0x80) :
    Char.ofUInt8 b = a ↔ c = a :=
  iff_of_eq <| h.apply_eq fun d hd => eq_false fun hda : d = a =>
    Nat.not_lt.2 hd (hda ▸ ha)

theorem ofUInt8_ne {a : Char} (ha : a.toNat < 0x80) (hb : 0x80 ≤ b.toNat) :
    Char.ofUInt8 b ≠ a :=
  of_eq_false <| apply_ofUInt8
    (fun d hd => eq_false fun hda : d = a => Nat.not_lt.2 hd (hda ▸ ha)) hb

end Apply

/-- Two characters with the same bytes are the same. -/
theorem utf8EncodeChar_injective {c d : Char}
    (h : String.utf8EncodeChar c = String.utf8EncodeChar d) : c = d := by
  have hdecode : ∀ c,
      ((String.utf8EncodeChar c).toByteArray ++ .empty).utf8DecodeChar? 0 = some c :=
    fun c => ByteArray.utf8DecodeChar?_utf8EncodeChar_append
  have hc := hdecode c
  rw [h, hdecode d] at hc
  exact (Option.some.inj hc).symm

end GraphQLSyntax
