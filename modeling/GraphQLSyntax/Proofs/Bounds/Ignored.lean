import GraphQLSyntax.Proofs.Bounds.Reader
import GraphQLSyntax.Proofs.Lexical.Division
import GraphQLSyntax.Proofs.Source.Position

/-!
# Ignored text byte by byte

The search for the end of a line stops at each byte that a line terminator may begin with, also
at those that begin another character, and goes on behind them.  What it comes to is the first of
the line terminators that are found by looking at every byte.

Ignored text is left in as many steps as it has spaces and comments, and every offset on the way
stands between characters.
-/

namespace GraphQLSyntax

/-! ## Searching for line terminators -/

theorem terminatorLength_separator (bs : List UInt8) :
    terminatorLength (0xE2 :: bs) = if beginsWithSeparator (0xE2 :: bs) then 3 else 0 := by
  rw [terminatorLength_cons, if_neg (by decide), if_neg (by decide)]
  have hiff : beginsWithSeparator (0xE2 :: bs) = true ↔
      bs.take 2 = [0x80, 0xA8] ∨ bs.take 2 = [0x80, 0xA9] := by
    unfold beginsWithSeparator
    split
    case h_1 heq =>
      obtain rfl := (List.cons.inj heq).2
      simp
    case h_2 hnone =>
      refine ⟨nofun, fun htake => ?_⟩
      rcases bs with _ | ⟨x, _ | ⟨y, bs⟩⟩
      · simp at htake
      · simp at htake
      · simp only [List.take_succ_cons, List.take_zero, List.cons.injEq, and_true] at htake
        obtain ⟨rfl, -⟩ | ⟨rfl, -⟩ := htake <;> exact absurd rfl (hnone y bs)
  simp only [hiff, true_and]

theorem terminatorLength_pos {b : UInt8} (h : b = 0x0A ∨ b = 0x0D) (bs : List UInt8) :
    0 < terminatorLength (b :: bs) := by
  rw [terminatorLength_cons]
  obtain rfl | rfl := h
  · exact Nat.one_pos
  · rw [if_pos rfl]
    split <;> decide

theorem terminatorLength_pos_of_endsLine {c : Char} (h : EndsLine c) (bs : List UInt8) :
    0 < terminatorLength (String.utf8EncodeChar c ++ bs) := by
  simp only [EndsLine, List.mem_cons, List.not_mem_nil, or_false] at h
  obtain rfl | rfl | rfl | rfl := h
  · exact terminatorLength_pos (.inl rfl) bs
  · exact terminatorLength_pos (.inr rfl) bs
  · exact (terminatorLength_separator _).symm ▸ Nat.succ_pos 2
  · exact (terminatorLength_separator _).symm ▸ Nat.succ_pos 2

/-- A search over the bytes finds none that a line terminator could begin with, and there is no
line terminator; or it finds one, and there is no line terminator before it. -/
theorem ByteSearch.FindsFirst.search_cases {search : ByteSearch} (h : search.FindsFirst)
    (offset : Nat) (bytes : List UInt8) :
    (search 0x0A 0x0D 0xE2 bytes = none ∧ lineTerminators offset bytes = []) ∨
      ∃ n b bs, search 0x0A 0x0D 0xE2 bytes = some n ∧ bytes.drop n = b :: bs ∧
        ((b = 0x0A ∨ b = 0x0D) ∨ b = 0xE2) ∧
          lineTerminators offset bytes = lineTerminators (offset + n) (b :: bs) := by
  rw [h]
  induction bytes generalizing offset with
  | nil => exact .inl ⟨rfl, by rw [lineTerminators]⟩
  | cons b bs ih =>
    rw [List.findIdx?_cons]
    by_cases hb : (b == 0x0A || b == 0x0D || b == 0xE2) = true
    · rw [if_pos hb]
      refine .inr ⟨0, b, bs, rfl, rfl, ?_, rfl⟩
      simpa only [Bool.or_eq_true, beq_iff_eq] using hb
    · rw [if_neg hb]
      simp only [Bool.or_eq_true, beq_iff_eq, not_or] at hb
      have hzero : terminatorLength (b :: bs) = 0 := by
        rw [terminatorLength_cons, if_neg hb.1.2, if_neg hb.1.1, if_neg fun h => hb.2 h.1]
      rw [lineTerminators_of_eq_zero offset hzero]
      obtain ⟨hnone, heq⟩ | ⟨n, b', bs', hsome, hdrop, hcases, heq⟩ := ih (offset + 1)
      · exact .inl ⟨by rw [hnone]; rfl, heq⟩
      · refine .inr ⟨n + 1, b', bs', by rw [hsome]; rfl, hdrop, hcases, ?_⟩
        rw [heq, Nat.add_assoc, Nat.add_comm 1 n]

theorem bytesFrom_of_drop_eq {bytes bs : List UInt8} {b : UInt8} {i : Nat}
    (h : bytes.drop i = b :: bs) :
    byteAt bytes i = some b ∧ bytesFrom bytes i = some (b :: bs) ∧ i < bytes.length ∧
      bytes.drop (i + 1) = bs := by
  have hlength := congrArg List.length h
  rw [List.length_drop, List.length_cons] at hlength
  refine ⟨?_, ?_, by omega, ?_⟩
  · rw [byteAt, ← Nat.add_zero i, ← List.getElem?_drop, h]
    rfl
  · rw [bytesFrom, if_pos (by omega), h]
  · rw [← List.drop_drop, h]
    rfl

theorem isAsciiTest_isShortBlank : IsAsciiTest isShortBlank := by
  intro c h
  simp only [isShortBlank, Bool.or_eq_true, Bool.and_eq_true, beq_iff_eq, decide_eq_true_eq] at h
  obtain (rfl | rfl) | ⟨-, hle⟩ := h
  · decide
  · decide
  · omega

theorem isBlank_iff_short {c : Char} :
    isBlank c = true ↔ isShortBlank c = true ∨ c = '\u00A0' ∨ c = '\u2028' ∨ c = '\u2029' := by
  simp only [isBlank, isShortBlank, Bool.or_eq_true, beq_iff_eq]
  grind

namespace ByteReader

variable {reader : ByteReader} {offset : Nat}

theorem lt_limit {cs : List Char} (h : RestAt reader.chars offset cs) :
    byteLength cs < reader.limit := by
  have hlength := h.length_eq
  show byteLength cs < (encodeChars reader.chars).length + 1
  omega

/-- The search found a byte that a line terminator may begin with, so many bytes behind the
offset. -/
structure FoundAt (reader : ByteReader) (offset n : Nat) (b : UInt8) (bs : List UInt8) : Prop where
  search_eq : reader.search 0x0A 0x0D 0xE2 (reader.bytes.drop offset) = some n
  drop_eq : reader.bytes.drop (offset + n) = b :: bs
  begins : (b = 0x0A ∨ b = 0x0D) ∨ b = 0xE2

/-- A loop that searches, and goes on behind what it finds unless that is a line terminator, comes
to the first of the line terminators. -/
theorem search_ends {α : Type} {step : Nat → Option (Nat ⊕ α)} {limit : Nat}
    (hsearch : reader.search.FindsFirst) (stop : Option (Nat × Nat) → α)
    (hnone : ∀ offset ≤ reader.bytes.length,
      reader.search 0x0A 0x0D 0xE2 (reader.bytes.drop offset) = none →
        step offset = some (.inr (stop none)))
    (hfound : ∀ {offset n b bs}, reader.FoundAt offset n b bs → step offset =
      some (if terminatorLength (b :: bs) = 0 then .inl (offset + n + 1)
        else .inr (stop (some (offset + n, terminatorLength (b :: bs))))))
    (h : offset ≤ reader.bytes.length) (hlimit : reader.bytes.length < offset + limit) :
    Ends step limit offset (stop (lineTerminators offset (reader.bytes.drop offset)).head?) := by
  induction limit generalizing offset with
  | zero => omega
  | succ limit ih =>
    obtain ⟨hnothing, heq⟩ | ⟨n, b, bs, hsome, hdrop, hb, heq⟩ :=
      hsearch.search_cases offset (reader.bytes.drop offset)
    · rw [heq]
      exact .last (hnone offset h hnothing)
    · rw [List.drop_drop] at hdrop
      obtain ⟨-, -, hless, hnext⟩ := bytesFrom_of_drop_eq hdrop
      have hstep := hfound ⟨hsome, hdrop, hb⟩
      rw [heq]
      by_cases hzero : terminatorLength (b :: bs) = 0
      · rw [if_pos hzero] at hstep
        rw [lineTerminators_of_eq_zero _ hzero, ← hnext]
        exact .next hstep (ih (by omega) (by omega))
      · rw [if_neg hzero] at hstep
        rw [lineTerminators_of_pos _ (Nat.pos_of_ne_zero hzero)]
        exact .last hstep

theorem commentStep_of_found {n : Nat} {b : UInt8} {bs : List UInt8}
    (h : reader.FoundAt offset n b bs) :
    reader.commentStep offset =
      some (if terminatorLength (b :: bs) = 0 then .inl (offset + n + 1)
        else .inr (offset + n)) := by
  obtain ⟨hat, hfrom, hless, -⟩ := bytesFrom_of_drop_eq h.drop_eq
  have hstart : bytesFrom reader.bytes offset = some (reader.bytes.drop offset) :=
    if_pos (by omega)
  rw [commentStep, hstart]
  simp only [Option.bind_eq_bind, Option.bind_some, h.search_eq, hat, hfrom]
  obtain hline | rfl := h.begins
  · have hne : b ≠ 0xE2 := by
      obtain rfl | rfl := hline <;> decide
    rw [if_pos hne, if_neg (Nat.ne_of_gt (terminatorLength_pos hline bs))]
  · rw [terminatorLength_separator]
    cases beginsWithSeparator (0xE2 :: bs) <;> rfl

/-- A comment ends at the first line terminator, or at the end. -/
theorem commentStep_ends (hsearch : reader.search.FindsFirst) {limit : Nat}
    (h : offset ≤ reader.bytes.length) (hlimit : reader.bytes.length < offset + limit) :
    Ends reader.commentStep limit offset
      (((lineTerminators offset (reader.bytes.drop offset)).head?.map Prod.fst).getD
        reader.bytes.length) := by
  refine search_ends hsearch (fun t => (t.map Prod.fst).getD reader.bytes.length)
    (fun offset h hnone => ?_) commentStep_of_found h hlimit
  have hstart : bytesFrom reader.bytes offset = some (reader.bytes.drop offset) := if_pos h
  rw [commentStep, hstart]
  simp [hnone]

theorem passComment_eq (hsearch : reader.search.FindsFirst) {text rest : List Char}
    (h : RestAt reader.chars offset ('#' :: (text ++ rest))) (htext : ∀ c ∈ text, ¬ EndsLine c)
    (hend : ∀ c, rest.head? = some c → EndsLine c) :
    reader.passComment offset = some (offset + 1 + byteLength text) := by
  have hinside : RestAt reader.chars (offset + 1) (text ++ rest) := h.cons
  have hlength := hinside.append.length_eq
  have hlimit : reader.bytes.length < offset + 1 + reader.limit := by
    rw [limit]
    omega
  have hends := commentStep_ends hsearch (Nat.le.intro hinside.length_eq) hlimit
  rw [passComment, hends.loop_eq (Nat.le_refl _)]
  congr 1
  rw [hinside.drop_eq, encodeChars_append, lineTerminators_of_not_endsLine _ htext]
  cases rest with
  | nil =>
    rw [show encodeChars [] = [] from rfl, lineTerminators]
    exact hlength.symm
  | cons c rest =>
    have hpos := terminatorLength_pos_of_endsLine (hend c rfl) (encodeChars rest)
    rw [encodeChars_cons, lineTerminators_of_pos _ hpos]
    rfl

/-! ## Spaces -/

theorem exists_lead {c : Char} {rest : List Char} (h : RestAt reader.chars offset (c :: rest)) :
    ∃ b, reader.bytes[offset]? = some b ∧ IsLead c b := by
  obtain ⟨b, hb, hlead⟩ := exists_isLead c rest
  exact ⟨b, (h.getElem?_eq 0).trans hb, hlead⟩

theorem seesSeparator_eq {c : Char} {rest : List Char} {b : UInt8}
    (h : RestAt reader.chars offset (c :: rest)) (hb : reader.bytes[offset]? = some b) :
    reader.seesSeparator b offset = some (decide (c = '\u2028' ∨ c = '\u2029')) := by
  obtain ⟨bs, hbytes⟩ : ∃ bs, String.utf8EncodeChar c ++ encodeChars rest = b :: bs := by
    have := (h.getElem?_eq 0).symm.trans hb
    rw [encodeChars_cons, ← List.head?_eq_getElem?] at this
    exact List.head?_eq_some_iff.1 this
  by_cases hc : EndsLine c
  · simp only [EndsLine, List.mem_cons, List.not_mem_nil, or_false] at hc
    obtain rfl | rfl | rfl | rfl := hc
    all_goals
      obtain rfl := (List.cons.inj hbytes).1
      rw [seesSeparator]
      first
        | rfl
        | rw [h.bytesFrom_eq]; rfl
  · have hnone := terminatorLength_of_not_endsLine hc (encodeChars rest)
    have hne : ¬ (c = '\u2028' ∨ c = '\u2029') := by
      rintro (rfl | rfl) <;> exact hc (by simp [EndsLine])
    rw [seesSeparator, decide_eq_false hne]
    split
    case isTrue hlead =>
      subst hlead
      rw [h.bytesFrom_eq, encodeChars_cons, hbytes]
      rw [hbytes, terminatorLength_separator] at hnone
      cases hseparator : beginsWithSeparator (0xE2 :: bs) with
      | true => rw [hseparator] at hnone; cases hnone
      | false => rw [Option.map_some, hseparator]
    case isFalse => rfl

theorem seesNoBreakSpace_iff {c : Char} {rest : List Char} {b : UInt8}
    (h : RestAt reader.chars offset (c :: rest)) (hb : reader.bytes[offset]? = some b) :
    b = 0xC2 ∧ reader.bytes[offset + 1]? = some 0xA0 ↔ c = '\u00A0' := by
  have hb0 := (h.getElem?_eq 0).symm.trans hb
  have hb1 : reader.bytes[offset + 1]? = _ := h.getElem?_eq 1
  rw [hb1]
  rw [encodeChars_cons] at hb0 ⊢
  constructor
  · rintro ⟨rfl, hnext⟩
    generalize hbytes : String.utf8EncodeChar c = bytes at hb0 hnext
    have hencoding := hbytes ▸ isEncoding_utf8EncodeChar c
    have hother : ∀ {n}, n < 256 → n ≠ 0xC2 → some (UInt8.ofNat n) ≠ some 0xC2 :=
      fun hn hne h => hne (eq_of_ofNat_eq 0xC2 hn (Option.some.inj h))
    cases hencoding with
    | one hc => exact absurd hb0 (hother (by omega) (by omega))
    | two =>
      refine utf8EncodeChar_injective (hbytes.trans ?_)
      rw [Option.some.inj hb0, Option.some.inj hnext]
      rfl
    | three ha => exact absurd hb0 (hother (by omega) (by omega))
    | four ha => exact absurd hb0 (hother (by omega) (by omega))
  · rintro rfl
    exact ⟨(Option.some.inj hb0).symm, rfl⟩

/-- Between characters, a step is taken over a space or over a comment. -/
theorem ignoredStep_eq {c : Char} {rest : List Char}
    (h : RestAt reader.chars offset (c :: rest)) :
    reader.ignoredStep offset =
      if isBlank c then some (.inl (offset + c.utf8Size))
      else if c = '#' then (reader.passComment offset).map .inl
      else some (.inr offset) := by
  obtain ⟨b, hb, hlead⟩ := exists_lead h
  have hsign := hlead.eq_iff (show '#'.toNat < 0x80 by decide)
  rw [ignoredStep, hb]
  simp only [hlead.test_eq isAsciiTest_isShortBlank, hsign, seesNoBreakSpace_iff h hb,
    seesSeparator_eq h hb]
  by_cases hfirst : isShortBlank c = true
  · rw [if_pos hfirst, if_pos (isBlank_iff_short.2 (.inl hfirst)),
      utf8Size_of_toNat (isAsciiTest_isShortBlank c hfirst)]
  rw [if_neg hfirst]
  by_cases hsecond : c = '\u00A0'
  · rw [if_pos hsecond, if_pos (isBlank_iff_short.2 (.inr (.inl hsecond))), hsecond]
    rfl
  rw [if_neg hsecond]
  by_cases hthird : c = '\u2028' ∨ c = '\u2029'
  · rw [if_pos (isBlank_iff_short.2 (.inr (.inr hthird))), decide_eq_true hthird]
    obtain rfl | rfl := hthird <;> rfl
  · have hblank : ¬ isBlank c = true := fun hc =>
      (isBlank_iff_short.1 hc).elim hfirst fun hc => hc.elim hsecond hthird
    rw [if_neg hblank, decide_eq_false hthird]
    rfl

/-- Ignored text is left out step by step, up to something that is not ignored. -/
theorem ignoredStep_ends (hsearch : reader.search.FindsFirst) {gap rest : List Char} {limit : Nat}
    (h : RestAt reader.chars offset (gap ++ rest)) (hgap : Ignored rest gap)
    (hink : ∀ c, rest.head? = some c → IsInk c) (hlimit : byteLength gap < limit) :
    Ends reader.ignoredStep limit offset (offset + byteLength gap) := by
  induction hgap generalizing offset limit with
  | nil =>
    obtain ⟨limit, rfl⟩ := Nat.exists_eq_add_of_lt hlimit
    refine .last ?_
    cases rest with
    | nil =>
      have hnone : reader.bytes[offset]? = none := h.getElem?_eq 0
      rw [ignoredStep, hnone]
      rfl
    | cons c rest =>
      obtain ⟨hblank, hsign⟩ := hink c rfl
      rw [ignoredStep_eq h, hblank, if_neg Bool.false_ne_true, if_neg hsign]
      rfl
  | @spacing c cs hc _ ih =>
    rw [byteLength_cons] at hlimit ⊢
    obtain ⟨limit, rfl⟩ := Nat.exists_eq_add_of_lt hlimit
    have hpos := c.utf8Size_pos
    rw [← Nat.add_assoc]
    refine .next ?_ (ih h.cons (by omega))
    rw [ignoredStep_eq h, if_pos (isBlank_iff.2 hc)]
  | @comment text cs htext hend _ ih =>
    have hsize : byteLength ('#' :: text ++ cs) = 1 + byteLength text + byteLength cs := by
      rw [List.cons_append, byteLength_cons, byteLength_append, ← Nat.add_assoc]
      rfl
    rw [List.cons_append, List.cons_append, List.append_assoc] at h
    rw [hsize] at hlimit ⊢
    obtain ⟨limit, rfl⟩ := Nat.exists_eq_add_of_lt hlimit
    have hafter : RestAt reader.chars (offset + 1 + byteLength text) (cs ++ rest) := h.cons.append
    rw [← Nat.add_assoc, ← Nat.add_assoc]
    refine .next ?_ (ih hafter (by omega))
    rw [ignoredStep_eq h, if_neg (by decide), if_pos rfl, passComment_eq hsearch h htext hend]
    rfl

/-- What is left out is what scanning skips, and what comes then is at the offset come to. -/
theorem passIgnored_eq (hsearch : reader.search.FindsFirst) {cs rest : List Char} {start : Nat}
    (h : RestAt reader.chars offset cs) (hskip : skipIgnored false offset cs = (start, rest)) :
    reader.passIgnored offset = some start ∧ RestAt reader.chars start rest := by
  obtain ⟨hink, gap, rfl, rfl, hgap⟩ := ignored_of_skipIgnored hskip
  have hlimit := lt_limit h
  rw [byteLength_append] at hlimit
  have hends : Ends reader.ignoredStep reader.limit offset (offset + byteLength gap) :=
    ignoredStep_ends hsearch h hgap hink (by omega)
  exact ⟨hends.loop_eq (Nat.le_refl _), h.append⟩

end ByteReader

end GraphQLSyntax
