import GraphQLSyntax.Proofs.Text.Encoding

/-!
# Positions and lines

A position is computed on bytes, from the line terminators before an offset.  Those are the
ends of the lines of the text, so the position of an offset that lies between characters is
where that place is among the lines, provided it is not inside a line end.
-/

namespace GraphQLSyntax

/-! ## Line terminators -/

/-- The offset and the length of the end of each line, the first line beginning at the
offset. -/
def lineEnds : Nat → List Line → List (Nat × Nat)
  | _, [] => []
  | offset, line :: lines =>
    (offset + byteLength line.text, byteLength line.ending) ::
      lineEnds (offset + byteLength line.chars) lines

theorem length_lineEnds (offset : Nat) (lines : List Line) :
    (lineEnds offset lines).length = lines.length := by
  induction lines generalizing offset with
  | nil => rfl
  | cons line lines ih => exact congrArg (· + 1) (ih _)

theorem lineEnds_append (offset : Nat) (xs ys : List Line) :
    lineEnds offset (xs ++ ys) =
      lineEnds offset xs ++ lineEnds (offset + byteLength (xs.flatMap Line.chars)) ys := by
  induction xs generalizing offset with
  | nil => rfl
  | cons x xs ih =>
    rw [List.cons_append, lineEnds, ih, lineEnds, List.flatMap_cons, byteLength_append,
      List.cons_append, Nat.add_assoc]

/-- Lines end before what comes after them. -/
theorem lt_of_mem_lineEnds {offset : Nat} {lines : List Line} {t : Nat × Nat}
    (h : t ∈ lineEnds offset lines) (hends : ∀ line ∈ lines, line.ending ≠ []) :
    t.1 < offset + byteLength (lines.flatMap Line.chars) := by
  induction lines generalizing offset with
  | nil => cases h
  | cons line lines ih =>
    obtain ⟨hline, hends⟩ := List.forall_mem_cons.1 hends
    have hpos := byteLength_pos hline
    rw [List.flatMap_cons, byteLength_append, Line.chars, byteLength_append]
    cases h with
    | head =>
      show offset + byteLength line.text < _
      omega
    | tail _ h =>
      have := ih h hends
      rw [Line.chars, byteLength_append] at this
      omega

/-- The last line ends where the next one begins. -/
theorem stop_of_getLast?_lineEnds (offset : Nat) (lines : List Line) :
    ((lineEnds offset lines).getLast?.map fun t => t.1 + t.2).getD offset =
      offset + byteLength (lines.flatMap Line.chars) := by
  induction lines generalizing offset with
  | nil => rfl
  | cons line lines ih =>
    have hstop : offset + byteLength line.text + byteLength line.ending =
        offset + byteLength line.chars := by
      rw [Line.chars, byteLength_append, Nat.add_assoc]
    rw [List.flatMap_cons, byteLength_append, ← Nat.add_assoc, ← ih, lineEnds, List.getLast?_cons]
    cases (lineEnds (offset + byteLength line.chars) lines).getLast? with
    | none => exact hstop
    | some t => rfl

theorem lineTerminators_of_eq_zero (offset : Nat) {b : UInt8} {bs : List UInt8}
    (h : terminatorLength (b :: bs) = 0) :
    lineTerminators offset (b :: bs) = lineTerminators (offset + 1) bs := by
  rw [lineTerminators]
  exact if_pos h

theorem lineTerminators_of_pos (offset : Nat) {bytes : List UInt8}
    (h : 0 < terminatorLength bytes) :
    lineTerminators offset bytes = (offset, terminatorLength bytes) ::
      lineTerminators (offset + terminatorLength bytes) (bytes.drop (terminatorLength bytes)) := by
  cases bytes with
  | nil => exact absurd h (Nat.lt_irrefl 0)
  | cons b bs =>
    obtain ⟨length, hlength⟩ := Nat.exists_eq_succ_of_ne_zero (Nat.ne_of_gt h)
    rw [lineTerminators, hlength]
    rfl

/-- No line ends inside a character. -/
theorem lineTerminators_of_isContinuation (offset : Nat) {bs : List UInt8}
    (hbs : ∀ b ∈ bs, isContinuation b = true) (rest : List UInt8) :
    lineTerminators offset (bs ++ rest) = lineTerminators (offset + bs.length) rest := by
  induction bs generalizing offset with
  | nil => rfl
  | cons b bs ih =>
    obtain ⟨hb, hbs⟩ := List.forall_mem_cons.1 hbs
    rw [List.cons_append, lineTerminators_of_eq_zero _ (terminatorLength_of_isContinuation hb _),
      ih _ hbs, List.length_cons, Nat.add_assoc, Nat.add_comm 1]

theorem lineTerminators_of_not_endsLine (offset : Nat) {cs : List Char}
    (hcs : ∀ c ∈ cs, ¬ EndsLine c) (bs : List UInt8) :
    lineTerminators offset (encodeChars cs ++ bs) =
      lineTerminators (offset + byteLength cs) bs := by
  induction cs generalizing offset with
  | nil => rfl
  | cons c cs ih =>
    obtain ⟨hc, hcs⟩ := List.forall_mem_cons.1 hcs
    obtain ⟨b, rest, heq, -, hrest⟩ := (isEncoding_utf8EncodeChar c).exists_cons
    have hsize : rest.length + 1 = c.utf8Size := by
      rw [← String.length_utf8EncodeChar, heq, List.length_cons]
    have hnone := terminatorLength_of_not_endsLine hc (encodeChars cs ++ bs)
    rw [heq, List.cons_append] at hnone
    rw [encodeChars_cons, heq, List.append_assoc, List.cons_append,
      lineTerminators_of_eq_zero _ hnone, lineTerminators_of_isContinuation _ hrest, ih _ hcs,
      byteLength_cons, ← hsize, Nat.add_assoc, Nat.add_assoc, Nat.add_assoc, Nat.add_left_comm 1]

theorem IsLineEnd.lineTerminators_eq (offset : Nat) {ending rest : List Char}
    (h : IsLineEnd ending rest) :
    lineTerminators offset (encodeChars (ending ++ rest)) =
      (offset, byteLength ending) ::
        lineTerminators (offset + byteLength ending) (encodeChars rest) := by
  have hlength := h.terminatorLength_eq
  rw [lineTerminators_of_pos _ (hlength ▸ byteLength_pos h.ne_nil), hlength, encodeChars_append,
    List.drop_left' (length_encodeChars ending)]

/-- The line terminators of a text are the ends of its lines but the last one. -/
theorem HasLines.lineTerminators_eq {cs : List Char} {lines : List Line} (h : HasLines cs lines)
    (offset : Nat) : lineTerminators offset (encodeChars cs) = lineEnds offset lines.dropLast := by
  induction h generalizing offset with
  | @last text htext =>
    have := lineTerminators_of_not_endsLine offset htext []
    rw [List.append_nil] at this
    rw [this, lineTerminators]
    rfl
  | @cons text ending rest lines htext hending hrest ih =>
    rw [List.append_assoc, encodeChars_append, lineTerminators_of_not_endsLine _ htext,
      hending.lineTerminators_eq, ih, List.dropLast_cons_of_ne_nil hrest.ne_nil, lineEnds,
      Line.chars, byteLength_append, Nat.add_assoc]

/-! ## Positions -/

theorem HasLines.chars_eq {cs : List Char} {lines : List Line} (h : HasLines cs lines) :
    cs = lines.flatMap Line.chars := by
  induction h with
  | last => simp [Line.chars]
  | cons _ _ _ ih => rw [List.flatMap_cons, ← ih, Line.chars]

theorem HasLines.ending_ne_nil {cs : List Char} {lines : List Line} (h : HasLines cs lines) :
    ∀ line ∈ lines.dropLast, line.ending ≠ [] := by
  induction h with
  | last => exact List.forall_mem_nil _
  | cons _ hending hrest ih =>
    rw [List.dropLast_cons_of_ne_nil hrest.ne_nil]
    exact List.forall_mem_cons.2 ⟨hending.ne_nil, ih⟩

namespace InLine

variable {before after left right : List Char} {lines earlier : List Line} {line : Line}

theorem byteLength_before (h : InLine before after lines earlier line left right) :
    byteLength before = byteLength (earlier.flatMap Line.chars) + byteLength left := by
  rw [h.before_eq, byteLength_append]

/-- The line terminators before a place are the ends of the lines before its line. -/
theorem takeWhile_lineTerminators (h : InLine before after lines earlier line left right)
    {cs : List Char} (hlines : HasLines cs lines) :
    ((lineTerminators 0 (encodeChars cs)).takeWhile fun t => t.1 < byteLength before) =
      lineEnds 0 earlier := by
  obtain ⟨later, rfl⟩ := h.lines_eq
  have hends := hlines.ending_ne_nil
  rw [hlines.lineTerminators_eq, List.dropLast_append_of_ne_nil (List.cons_ne_nil _ _),
    lineEnds_append, List.takeWhile_append_of_pos, Nat.zero_add]
  · suffices hnone : (lineEnds (byteLength (earlier.flatMap Line.chars))
        (line :: later).dropLast).takeWhile (fun t => t.1 < byteLength before) = [] by
      rw [hnone, List.append_nil]
    cases later with
    | nil => rfl
    | cons =>
      -- The end of the line is not before the place.
      refine List.takeWhile_cons_of_neg ?_
      rw [h.byteLength_before, h.text_eq, byteLength_append]
      simp
  · intro t ht
    have hlt := lt_of_mem_lineEnds ht fun x hx => hends x (by
      rw [List.dropLast_append_of_ne_nil (List.cons_ne_nil _ _)]
      exact List.mem_append_left _ hx)
    rw [h.byteLength_before]
    simp only [decide_eq_true_eq]
    omega

/-- The position of a place tells which line it is in and how many characters of that line
are before it. -/
theorem ofOffset_eq (h : InLine before after lines earlier line left right) {body : String}
    (hbody : body.toList = before ++ after) (hlines : HasLines body.toList lines) :
    Position.ofOffset body (byteLength before) = ⟨earlier.length + 1, left.length + 1⟩ := by
  have hbytes : encode body = encodeChars body.toList := rfl
  have hmin : min (byteLength before) (encode body).length = byteLength before := by
    rw [hbytes, length_encodeChars, hbody, byteLength_append]
    omega
  have htake : (encode body).take (byteLength before) = encodeChars before := by
    rw [hbytes, hbody, encodeChars_append, List.take_left' (length_encodeChars before)]
  have hstart := stop_of_getLast?_lineEnds 0 earlier
  rw [Nat.zero_add] at hstart
  have hline : (encodeChars before).drop (byteLength (earlier.flatMap Line.chars)) =
      encodeChars left := by
    rw [h.before_eq, encodeChars_append, List.drop_left' (length_encodeChars _)]
  have hends := h.takeWhile_lineTerminators hlines
  rw [Position.ofOffset]
  simp only [hmin, htake]
  rw [hbytes, hends, hstart, hline, length_lineEnds, countP_encodeChars]

end InLine

end GraphQLSyntax
