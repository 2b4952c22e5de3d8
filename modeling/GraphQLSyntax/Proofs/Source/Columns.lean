import Mathlib.Data.List.Basic
import Mathlib.Data.Prod.Lex
import Mathlib.Order.Monotone.Basic
import GraphQLSyntax.Proofs.Lexical.Division
import GraphQLSyntax.Proofs.Source.Position

/-!
# Lines and columns told by characters

Line terminators are looked for in bytes and columns are counted in bytes.  Here both are said
of the characters of a text, for every offset, be it inside a character or inside a line end.
It follows that positions are in the order of their offsets, and that offsets between characters
have positions of their own unless they are inside a line end.  A comment is left out up to the
same terminators.
-/

namespace GraphQLSyntax

variable {offset : Nat} {cs before after text ending rest : List Char} {t : Nat × Nat}

/-! ## Line terminators -/

/-- The offset and the length are those of a line end in the text, the first character of which
stands at `offset`.  A line end is as long as it can be. -/
def IsTerminatorIn (offset : Nat) (cs : List Char) (t : Nat × Nat) : Prop :=
  ∃ before ending after, cs = before ++ ending ++ after ∧ IsLineEnd ending after ∧
    ¬ InsideLineEnd before (ending ++ after) ∧
      t = (offset + byteLength before, byteLength ending)

/-- At one place, there is one line end at most. -/
theorem IsLineEnd.unique {ending' rest' : List Char} (h : IsLineEnd ending rest)
    (h' : IsLineEnd ending' rest') (heq : ending ++ rest = ending' ++ rest') :
    ending = ending' := by
  cases h with
  | pair =>
    cases h' with
    | pair => rfl
    | single _ hpair =>
      obtain ⟨rfl, rfl⟩ := List.cons.inj heq
      exact absurd rfl (hpair rfl)
  | single _ hpair =>
    cases h' with
    | pair =>
      obtain ⟨rfl, rfl⟩ := List.cons.inj heq
      exact absurd rfl (hpair rfl)
    | single => rw [(List.cons.inj heq).1]

/-- The place behind a line end is not inside a line end. -/
theorem IsLineEnd.not_insideLineEnd (h : IsLineEnd ending rest) (front : List Char) :
    ¬ InsideLineEnd (front ++ ending) rest := by
  rintro ⟨hlast, hhead⟩
  cases h with
  | pair => simp at hlast
  | single _ hpair =>
    rw [List.getLast?_append] at hlast
    exact hpair (Option.some.inj hlast) hhead

theorem not_insideLineEnd_of_not_endsLine (hbefore : ∀ c ∈ before, ¬ EndsLine c) :
    ¬ InsideLineEnd before after := by
  rintro ⟨hlast, -⟩
  exact hbefore _ (List.mem_of_getLast? hlast) (by simp [EndsLine])

/-- Behind something else, a place is inside a line end only if it is without that. -/
theorem InsideLineEnd.of_append_left (h : InsideLineEnd (cs ++ before) after) (hne : before ≠ []) :
    InsideLineEnd before after := by
  refine ⟨?_, h.2⟩
  obtain ⟨before, c, rfl⟩ := List.eq_nil_or_concat before |>.resolve_left hne
  have hlast := h.1
  simpa using hlast

/-- A line end of a text ends the first line or is behind that. -/
theorem IsLineEnd.first_or_behind {ending' : List Char} (htext : ∀ c ∈ text, ¬ EndsLine c)
    (hending : IsLineEnd ending rest) (hending' : IsLineEnd ending' after)
    (hinside : ¬ InsideLineEnd before (ending' ++ after))
    (heq : text ++ (ending ++ rest) = before ++ (ending' ++ after)) :
    before = text ∧ ending' = ending ∨
      ∃ before', before = text ++ ending ++ before' ∧ rest = before' ++ ending' ++ after := by
  obtain ⟨a, rfl, ha⟩ | ⟨a, rfl, ha⟩ := List.append_eq_append_iff.1 heq
  · cases a with
    | nil =>
      exact .inl ⟨List.append_nil _, hending'.unique hending ha.symm⟩
    | cons c a =>
      obtain ⟨b, hb, hcut⟩ | ⟨b, rfl, hcut⟩ := List.append_eq_append_iff.1 ha
      · exact .inr ⟨b, by simp [hb], by simp [hcut]⟩
      · cases b with
        | nil => exact .inr ⟨[], by simp, by simpa using hcut.symm⟩
        | cons d b =>
          have hcut' := hending.insideLineEnd_of_append (List.cons_ne_nil _ _)
            (List.cons_ne_nil _ _) rest
          rw [← hcut] at hcut'
          exact absurd (hcut'.append_left text) hinside
  · cases a with
    | nil => exact .inl ⟨(List.append_nil _).symm, hending'.unique hending ha⟩
    | cons c a =>
      have hhead : (ending' ++ after).head? = some c := by rw [ha]; rfl
      exact absurd (hending'.head?_append_endsLine after c hhead) (htext c (by simp))

/-- The line terminators that are found are those of the text. -/
theorem mem_lineTerminators_iff (offset : Nat) (cs : List Char) (t : Nat × Nat) :
    t ∈ lineTerminators offset (encodeChars cs) ↔ IsTerminatorIn offset cs t := by
  obtain ⟨lines, h, -⟩ := exists_hasLines cs
  rw [h.lineTerminators_eq]
  induction h generalizing offset with
  | @last text htext =>
    refine ⟨nofun, ?_⟩
    rintro ⟨before, ending, after, rfl, hending, -, -⟩
    obtain ⟨c, ending, rfl⟩ := List.exists_cons_of_ne_nil hending.ne_nil
    exact absurd (hending.head?_endsLine c rfl) (htext c (by simp))
  | @cons text ending rest lines htext hending hrest ih =>
    rw [List.dropLast_cons_of_ne_nil hrest.ne_nil, lineEnds, List.mem_cons, ih]
    constructor
    · rintro (rfl | ⟨before, ending', after, rfl, hending', hinside, rfl⟩)
      · exact ⟨text, ending, rest, rfl, hending, not_insideLineEnd_of_not_endsLine htext, rfl⟩
      · refine ⟨text ++ ending ++ before, ending', after, by simp, hending', fun hnot => ?_, ?_⟩
        · by_cases hne : before = []
          · subst hne
            rw [List.append_nil] at hnot
            exact hending.not_insideLineEnd text (by simpa using hnot)
          · exact hinside (hnot.of_append_left hne)
        · simp [Line.chars, Nat.add_assoc]
    · rintro ⟨before, ending', after, heq, hending', hinside, rfl⟩
      rw [List.append_assoc, List.append_assoc] at heq
      obtain ⟨rfl, rfl⟩ | ⟨before', rfl, rfl⟩ := hending.first_or_behind htext hending' hinside heq
      · exact .inl rfl
      · refine .inr ⟨before', ending', after, rfl, hending', fun hnot => ?_, ?_⟩
        · exact hinside (hnot.append_left _)
        · simp [Line.chars, Nat.add_assoc]

theorem le_of_mem_lineEnds {lines : List Line} (h : t ∈ lineEnds offset lines) : offset ≤ t.1 := by
  induction lines generalizing offset with
  | nil => cases h
  | cons line lines ih =>
    cases h with
    | head => exact Nat.le_add_right _ _
    | tail _ h => exact Nat.le_trans (Nat.le_add_right _ _) (ih h)

/-- Line terminators come one after the other. -/
theorem pairwise_lineTerminators (offset : Nat) (cs : List Char) :
    (lineTerminators offset (encodeChars cs)).Pairwise fun t t' => t.1 + t.2 ≤ t'.1 := by
  obtain ⟨lines, h, -⟩ := exists_hasLines cs
  rw [h.lineTerminators_eq]
  generalize lines.dropLast = lines
  induction lines generalizing offset with
  | nil => exact .nil
  | cons line lines ih =>
    refine .cons (fun t ht => ?_) (ih _)
    have := le_of_mem_lineEnds ht
    rw [Line.chars, byteLength_append] at this
    omega

/-! ## Characters -/

/-- Where the characters start, the first of them at the offset. -/
def charStarts : Nat → List Char → List Nat
  | _, [] => []
  | offset, c :: cs => offset :: charStarts (offset + c.utf8Size) cs

theorem le_of_mem_charStarts {s : Nat} (h : s ∈ charStarts offset cs) : offset ≤ s := by
  induction cs generalizing offset with
  | nil => cases h
  | cons c cs ih =>
    cases h with
    | head => exact Nat.le_refl _
    | tail _ h => exact Nat.le_trans (Nat.le_add_right _ _) (ih h)

theorem byteLength_mem_charStarts (hafter : after ≠ []) :
    offset + byteLength before ∈ charStarts offset (before ++ after) := by
  induction before generalizing offset with
  | nil =>
    cases after with
    | nil => exact absurd rfl hafter
    | cons => exact List.mem_cons_self
  | cons c before ih =>
    rw [byteLength_cons, ← Nat.add_assoc]
    exact List.mem_cons_of_mem _ ih

/-- The bytes before an offset that are no continuations are the first bytes of the characters
that start before it. -/
theorem countP_take_encodeChars (offset n : Nat) (cs : List Char) :
    ((encodeChars cs).take n).countP (fun b => !isContinuation b) =
      (charStarts offset cs).countP (fun s => s < offset + n) := by
  induction cs generalizing offset n with
  | nil => simp [encodeChars, charStarts]
  | cons c cs ih =>
    obtain ⟨b, bs, heq, hb, hbs⟩ := (isEncoding_utf8EncodeChar c).exists_cons
    have hsize : bs.length + 1 = c.utf8Size := by
      rw [← String.length_utf8EncodeChar, heq, List.length_cons]
    cases n with
    | zero =>
      refine (List.countP_eq_zero.2 fun s hs => ?_).symm
      have := le_of_mem_charStarts hs
      simp only [decide_eq_true_eq]
      omega
    | succ n =>
      have hnone : (bs.take n).countP (fun b => !isContinuation b) = 0 :=
        List.countP_eq_zero.2 fun d hd => by simp [hbs d (List.mem_of_mem_take hd)]
      rw [encodeChars_cons, heq, List.cons_append, List.take_succ_cons,
        List.countP_cons_of_pos (by simp [hb]), List.take_append, List.countP_append, hnone,
        Nat.zero_add, ih (offset + c.utf8Size), charStarts, List.countP_cons_of_pos (by simp)]
      congr 1
      refine List.countP_congr fun s hs => ?_
      have := le_of_mem_charStarts hs
      simp only [decide_eq_true_eq]
      omega

/-- The bytes between two offsets that are no continuations are the first bytes of the
characters that start there. -/
theorem countP_drop_encodeChars (lineStart n : Nat) (cs : List Char) :
    (((encodeChars cs).take n).drop lineStart).countP (fun b => !isContinuation b) =
      ((charStarts 0 cs).filter fun s => lineStart ≤ s ∧ s < n).length := by
  by_cases hle : lineStart ≤ n
  · have hbytes : ((encodeChars cs).take n).countP (fun b => !isContinuation b) =
        ((encodeChars cs).take lineStart).countP (fun b => !isContinuation b) +
          (((encodeChars cs).take n).drop lineStart).countP (fun b => !isContinuation b) := by
      rw [← List.countP_append]
      congr 1
      have hsplit := List.take_append_drop lineStart ((encodeChars cs).take n)
      rwa [List.take_take, Nat.min_eq_left hle, eq_comm] at hsplit
    have hstarts : (charStarts 0 cs).countP (fun s => s < n) =
        (charStarts 0 cs).countP (fun s => s < lineStart) +
          ((charStarts 0 cs).filter fun s => lineStart ≤ s ∧ s < n).length := by
      rw [List.countP_eq_countP_filter_add _ _ (fun s => decide (s < lineStart)),
        List.countP_filter, List.countP_filter, ← List.countP_eq_length_filter]
      congr 1 <;> refine List.countP_congr fun s _ => ?_ <;> grind
    rw [countP_take_encodeChars 0, countP_take_encodeChars 0, Nat.zero_add, Nat.zero_add,
      hstarts] at hbytes
    omega
  · rw [List.drop_eq_nil_of_le (Nat.le_trans (List.length_take_le _ _) (by omega))]
    refine (List.length_eq_zero_iff.2 (List.filter_eq_nil_iff.2 fun s _ => ?_)).symm
    simp only [decide_eq_true_eq]
    omega

/-! ## Positions -/

namespace Position

/-- The end of the last line terminator that starts before an offset, or the start of the
text. -/
def lineStart (terminators : List (Nat × Nat)) (offset : Nat) : Nat :=
  ((terminators.filter fun t => t.1 < offset).getLast?.map fun t => t.1 + t.2).getD 0

/-- The position of an offset among line terminators and starts of characters: it counts the
terminators that start before the offset, and the characters that start between the end of the
last of these and the offset. -/
def among (terminators : List (Nat × Nat)) (starts : List Nat) (offset : Nat) : Position where
  line := 1 + (terminators.filter fun t => t.1 < offset).length
  column := 1 + (starts.filter fun s => lineStart terminators offset ≤ s ∧ s < offset).length

/-- A position as a pair, of which the line counts more. -/
def key (position : Position) : Nat ×ₗ Nat :=
  toLex (position.line, position.column)

end Position

/-- In order, terminators that start before an offset come first. -/
theorem takeWhile_eq_filter_of_pairwise {ts : List (Nat × Nat)}
    (h : ts.Pairwise fun t t' => t.1 + t.2 ≤ t'.1) (n : Nat) :
    ts.takeWhile (fun t => t.1 < n) = ts.filter fun t => t.1 < n := by
  induction h with
  | nil => rfl
  | @cons t ts hfirst _ ih =>
    by_cases ht : t.1 < n
    · rw [List.takeWhile_cons_of_pos (by simpa using ht),
        List.filter_cons_of_pos (by simpa using ht), ih]
    · rw [List.takeWhile_cons_of_neg (by simpa using ht)]
      refine (List.filter_eq_nil_iff.2 fun t' ht' => ?_).symm
      rcases List.mem_cons.1 ht' with rfl | ht'
      · simpa using ht
      · have := hfirst t' ht'
        simp only [decide_eq_true_eq]
        omega

/-- A position that is computed on bytes is the one that is told by characters. -/
theorem Position.ofOffset_eq_among (body : String) (offset : Nat) :
    ofOffset body offset =
      among (lineTerminators 0 (encode body)) (charStarts 0 body.toList)
        (min offset (byteLength body.toList)) := by
  have hbytes : encode body = encodeChars body.toList := rfl
  have hordered := pairwise_lineTerminators 0 body.toList
  rw [ofOffset, among, lineStart]
  simp only [hbytes, length_encodeChars, takeWhile_eq_filter_of_pairwise hordered,
    countP_drop_encodeChars, Nat.add_comm 1]

/-- Inside a line end, the next line has begun, and none of its characters has. -/
example : Position.ofOffset "a\r\nb" 2 = ⟨2, 1⟩ := by
  cbv

namespace Position

variable {terminators : List (Nat × Nat)} {starts : List Nat} {m n : Nat}

/-- A later offset has more line terminators before it, or the same ones. -/
theorem before_cases (terminators : List (Nat × Nat)) (h : m ≤ n) :
    (terminators.filter fun t => t.1 < m).length < (terminators.filter fun t => t.1 < n).length ∨
      (terminators.filter fun t => t.1 < m) = terminators.filter fun t => t.1 < n := by
  have hsub : (terminators.filter fun t => t.1 < m).Sublist
      (terminators.filter fun t => t.1 < n) :=
    terminators.monotone_filter_right fun t ht => by
      simp only [decide_eq_true_eq] at ht ⊢
      omega
  exact (Nat.lt_or_eq_of_le hsub.length_le).imp_right hsub.eq_of_length

/-- A later offset has at least the characters before it in its line. -/
theorem starts_sublist (starts : List Nat) (first : Nat) (h : m ≤ n) :
    (starts.filter fun s => first ≤ s ∧ s < m).Sublist
      (starts.filter fun s => first ≤ s ∧ s < n) :=
  starts.monotone_filter_right fun s hs => by
    simp only [decide_eq_true_eq] at hs ⊢
    omega

theorem among_mono (h : m ≤ n) :
    (among terminators starts m).key ≤ (among terminators starts n).key := by
  rw [key, key, Prod.Lex.toLex_le_toLex]
  obtain hless | hsame := before_cases terminators h
  · exact .inl (Nat.add_lt_add_left hless 1)
  · have hline : lineStart terminators m = lineStart terminators n := by
      rw [lineStart, hsame, lineStart]
    refine .inr ⟨congrArg (1 + List.length ·) hsame, ?_⟩
    rw [among, among, hline]
    exact Nat.add_le_add_left (starts_sublist starts _ h).length_le 1

/-- Behind a character that starts in the line of an offset, positions are later. -/
theorem among_lt (h : m < n) (hm : m ∈ starts) (hfirst : lineStart terminators m ≤ m) :
    (among terminators starts m).key < (among terminators starts n).key := by
  rw [key, key, Prod.Lex.toLex_lt_toLex]
  obtain hless | hsame := before_cases terminators (Nat.le_of_lt h)
  · exact .inl (Nat.add_lt_add_left hless 1)
  · have hline : lineStart terminators m = lineStart terminators n := by
      rw [lineStart, hsame, lineStart]
    refine .inr ⟨congrArg (1 + List.length ·) hsame, ?_⟩
    rw [hline] at hfirst
    rw [among, among, hline]
    have hsub := starts_sublist starts (lineStart terminators n) (Nat.le_of_lt h)
    refine Nat.add_lt_add_left (Nat.lt_of_le_of_ne hsub.length_le fun hlength => ?_) 1
    -- The character at the first offset is before the second one only.
    have hmem : m ∈ starts.filter fun s => lineStart terminators n ≤ s ∧ s < n :=
      List.mem_filter.2 ⟨hm, decide_eq_true ⟨hfirst, h⟩⟩
    rw [← hsub.eq_of_length hlength, List.mem_filter] at hmem
    simp at hmem

theorem lineStart_le (h : ∀ t ∈ terminators, t.1 < m → t.1 + t.2 ≤ m) :
    lineStart terminators m ≤ m := by
  rw [lineStart]
  cases hlast : (terminators.filter fun t => t.1 < m).getLast? with
  | none => exact Nat.zero_le m
  | some t =>
    obtain ⟨ht, hlt⟩ := List.mem_filter.1 (List.mem_of_getLast? hlast)
    exact h t ht (of_decide_eq_true hlt)

end Position

/-- Only inside a line end, a place is behind the start of a line terminator and before its
end. -/
theorem stop_le_of_not_insideLineEnd (h : IsTerminatorIn 0 (before ++ after) t)
    (hinside : ¬ InsideLineEnd before after) (hlt : t.1 < byteLength before) :
    t.1 + t.2 ≤ byteLength before := by
  obtain ⟨front, ending, back, heq, hending, -, rfl⟩ := h
  simp only [Nat.zero_add] at hlt ⊢
  rw [List.append_assoc] at heq
  obtain ⟨a, rfl, -⟩ | ⟨a, rfl, ha⟩ := List.append_eq_append_iff.1 heq
  · rw [byteLength_append] at hlt
    omega
  · have hne : a ≠ [] := by
      rintro rfl
      simp at hlt
    obtain ⟨b, rfl, -⟩ | ⟨b, rfl, rfl⟩ := List.append_eq_append_iff.1 ha
    · simp only [byteLength_append]
      omega
    · cases b with
      | nil => simp
      | cons c b =>
        have hcut := hending.insideLineEnd_of_append hne (List.cons_ne_nil c b) back
        exact absurd (hcut.append_left front) hinside

/-- The offset is between characters of the text and not inside a line end. -/
def IsBetween (cs : List Char) (offset : Nat) : Prop :=
  ∃ before after, cs = before ++ after ∧ ¬ InsideLineEnd before after ∧
    offset = byteLength before

namespace Position

theorem ofOffset_mono (body : String) : Monotone fun offset => (ofOffset body offset).key := by
  intro m n h
  show (ofOffset body m).key ≤ (ofOffset body n).key
  rw [ofOffset_eq_among, ofOffset_eq_among]
  exact among_mono (by omega)

theorem ofOffset_strictMonoOn (body : String) :
    StrictMonoOn (fun offset => (ofOffset body offset).key) {o | IsBetween body.toList o} := by
  rintro m ⟨before, after, hbody, hinside, rfl⟩ n ⟨before', after', hbody', -, rfl⟩ h
  have hsize := byteLength_append before' after'
  rw [← hbody'] at hsize
  have hafter : after ≠ [] := by
    rintro rfl
    rw [hbody, List.append_nil] at hsize
    omega
  have hstarts : byteLength before ∈ charStarts 0 body.toList := by
    rw [hbody, ← Nat.zero_add (byteLength before)]
    exact byteLength_mem_charStarts hafter
  show (ofOffset body _).key < (ofOffset body _).key
  rw [ofOffset_eq_among, ofOffset_eq_among, Nat.min_eq_left (by omega), Nat.min_eq_left (by omega)]
  refine among_lt h hstarts (lineStart_le fun t ht hlt => ?_)
  have hterminator := (mem_lineTerminators_iff 0 body.toList t).1 ht
  rw [hbody] at hterminator
  exact stop_le_of_not_insideLineEnd hterminator hinside hlt

end Position

/-! ## Comments -/

/-- A comment is left out up to the first line terminator behind its sign, or up to the end. -/
theorem skipIgnored_comment (offset : Nat) (cs : List Char) :
    ∃ text rest, cs = text ++ rest ∧
      offset + 1 + byteLength text =
        ((lineTerminators (offset + 1) (encodeChars cs)).head?.map Prod.fst).getD
          (offset + 1 + byteLength cs) ∧
      skipIgnored false offset ('#' :: cs) =
        skipIgnored false (offset + 1 + byteLength text) rest := by
  obtain ⟨lines, h, -⟩ := exists_hasLines cs
  rw [h.lineTerminators_eq]
  cases h with
  | last htext =>
    have hend := skipIgnored_sign htext (fun _ => nofun : ∀ c, [].head? = some c → EndsLine c)
      offset
    rw [List.append_nil] at hend
    exact ⟨cs, [], (List.append_nil cs).symm, rfl, hend⟩
  | @cons text ending rest lines htext hending hrest =>
    rw [List.dropLast_cons_of_ne_nil hrest.ne_nil, List.append_assoc]
    exact ⟨text, ending ++ rest, rfl, rfl,
      skipIgnored_sign htext (hending.head?_append_endsLine rest) offset⟩

/-! ## The whole account -/

/-- The line terminators that are found are those of the text, one after the other.  For every
offset, a position counts the terminators before it and the characters behind the last of them.
Positions are in the order of their offsets, and of places between characters that are not inside
a line end no two have the same position.  A comment goes on to the first terminator behind its
sign, or to the end. -/
theorem Position.ofOffset_byCharacters (body : String) :
    (lineTerminators 0 (encode body)).Pairwise (fun t t' => t.1 + t.2 ≤ t'.1) ∧
      (∀ t, t ∈ lineTerminators 0 (encode body) ↔ IsTerminatorIn 0 body.toList t) ∧
      (∀ offset, ofOffset body offset =
        among (lineTerminators 0 (encode body)) (charStarts 0 body.toList)
          (min offset (byteLength body.toList))) ∧
      Monotone (fun offset => (ofOffset body offset).key) ∧
      StrictMonoOn (fun offset => (ofOffset body offset).key) {o | IsBetween body.toList o} ∧
      ∀ offset cs, ∃ text rest, cs = text ++ rest ∧
        offset + 1 + byteLength text =
          ((lineTerminators (offset + 1) (encodeChars cs)).head?.map Prod.fst).getD
            (offset + 1 + byteLength cs) ∧
        skipIgnored false offset ('#' :: cs) =
          skipIgnored false (offset + 1 + byteLength text) rest :=
  ⟨pairwise_lineTerminators 0 body.toList, mem_lineTerminators_iff 0 body.toList,
    ofOffset_eq_among body, ofOffset_mono body, ofOffset_strictMonoOn body, skipIgnored_comment⟩

end GraphQLSyntax
