import Mathlib.Data.List.Forall2
import GraphQLSyntax.Source.Position

/-!
# Excerpts

An excerpt shows a line between its neighbours, each after its number, and a caret below a
certain place of it.  What an excerpt consists of is said here row by row.
-/

namespace GraphQLSyntax

/-- A number is right-aligned to a width. -/
structure IsRightAligned (width n : Nat) (cs : List Char) : Prop where
  length_eq : cs.length = width
  exists_pad : ∃ pad, cs = List.replicate pad ' ' ++ (toString n).toList

/-- A row shows a line: its number, right-aligned to the width, then a colon and a space, and
the whole text of the line. -/
structure ShowsLine (lines : List (List Char)) (width n : Nat) (row : List Char) : Prop where
  pos : 1 ≤ n
  exists_text : ∃ number text, IsRightAligned width n number ∧ lines[n - 1]? = some text ∧
    row = number ++ [':', ' '] ++ text

/-- Those of the numbers that some line has. -/
def existing (lines : List (List Char)) (numbers : List Nat) : List Nat :=
  numbers.filter fun n => 1 ≤ n ∧ n ≤ lines.length

/-- The rows of an excerpt. -/
structure Excerpt where
  /-- The width that numbers are right-aligned to. -/
  width : Nat
  above : List (List Char)
  shown : List Char
  caret : List Char
  below : List (List Char)

namespace Excerpt

/-- The rows, each on a line of its own. -/
def chars (excerpt : Excerpt) : List Char :=
  (excerpt.above ++ [excerpt.shown, excerpt.caret] ++ excerpt.below).flatMap (· ++ ['\n'])

/-- The excerpt shows the line with the number, with its neighbours as far as they exist, and
the caret is below the place of the line from which there is only `right` left. -/
structure IsAround (excerpt : Excerpt) (lines : List (List Char)) (n : Nat) (right : List Char) :
    Prop where
  above : List.Forall₂ (ShowsLine lines excerpt.width) (existing lines [n - 1]) excerpt.above
  shown : ShowsLine lines excerpt.width n excerpt.shown
  below : List.Forall₂ (ShowsLine lines excerpt.width) (existing lines [n + 1]) excerpt.below
  caret : ∃ front, excerpt.shown = front ++ right ∧
    excerpt.caret = List.replicate front.length ' ' ++ ['^']

end Excerpt

/-! ## Rows -/

/-- A greater number has no fewer digits. -/
theorem length_toString_le {m n : Nat} (h : m ≤ n) : (toString m).length ≤ (toString n).length := by
  have hpos : 0 < n.repr.length := Nat.length_repr_pos
  exact (Nat.length_repr_le_iff hpos).2
    (Nat.lt_of_le_of_lt h ((Nat.length_repr_le_iff hpos).1 (Nat.le_refl _)))

theorem toList_pushn (cs : String) (c : Char) (n : Nat) :
    (cs.pushn c n).toList = cs.toList ++ List.replicate n c := by
  rw [String.pushn_eq_repeat_push]
  induction n with
  | zero => simp [Nat.repeat]
  | succ n ih => rw [Nat.repeat, String.toList_push, ih, List.append_assoc, List.replicate_succ']

namespace Position

theorem isRightAligned_alignRight {width n : Nat} (h : (toString n).length ≤ width) :
    IsRightAligned width n (alignRight width n).toList := by
  have heq : (alignRight width n).toList =
      List.replicate (width - (toString n).length) ' ' ++ (toString n).toList := by
    rw [alignRight, String.toList_append, toList_pushn]
    rfl
  refine ⟨?_, _, heq⟩
  rw [heq, List.length_append, List.length_replicate, String.length_toList]
  omega

/-- The row that shows a text under a number. -/
def row (width n : Nat) (text : List Char) : List Char :=
  (alignRight width n).toList ++ [':', ' '] ++ text

theorem toList_numberedLine (width n : Nat) (text : List Char) :
    (numberedLine width n text).toList = row width n text ++ ['\n'] := by
  simp [numberedLine, row]

theorem showsLine_row {lines : List (List Char)} {width n : Nat} {text : List Char} (hpos : 1 ≤ n)
    (htext : lines[n - 1]? = some text) (hwidth : (toString n).length ≤ width) :
    ShowsLine lines width n (row width n text) :=
  ⟨hpos, _, text, isRightAligned_alignRight hwidth, htext, rfl⟩

/-- The row that a neighbour is shown in, if there is such a line. -/
theorem exists_neighbour (lines : List (List Char)) {width n : Nat}
    (hwidth : (toString n).length ≤ width) :
    ∃ rows, List.Forall₂ (ShowsLine lines width) (existing lines [n]) rows ∧
      rows.flatMap (· ++ ['\n']) =
        if 1 ≤ n ∧ n ≤ lines.length then
          (numberedLine width n (lines[n - 1]?.getD [])).toList
        else [] := by
  by_cases hn : 1 ≤ n ∧ n ≤ lines.length
  · have htext : lines[n - 1]? = some lines[n - 1] := List.getElem?_eq_getElem (by omega)
    refine ⟨[row width n lines[n - 1]], ?_, ?_⟩
    · rw [existing, List.filter_cons_of_pos (by simpa using hn), List.filter_nil]
      exact .cons (showsLine_row hn.1 htext hwidth) .nil
    · rw [if_pos hn, htext, Option.getD_some, toList_numberedLine, List.flatMap_singleton]
  · refine ⟨[], ?_, (if_neg hn).symm⟩
    rw [existing, List.filter_cons_of_neg (by simpa using hn), List.filter_nil]
    exact .nil

/-- The excerpt at a position is around its line, and its caret is below the place. -/
theorem exists_excerpt {body : String} {line column : Nat} {left right : List Char}
    (hpos : 1 ≤ line) (htext : (splitLines body.toList)[line - 1]? = some (left ++ right))
    (hcolumn : column = left.length + 1) :
    ∃ e : Excerpt, (excerpt body ⟨line, column⟩).toList = e.chars ∧
      e.IsAround (splitLines body.toList) line right := by
  generalize hlines : splitLines body.toList = lines at htext
  generalize hnext : (toString (line + 1)).length = width
  obtain ⟨hlength, -⟩ := List.getElem?_eq_some_iff.1 htext
  have hwidth : ∀ {n}, n ≤ line + 1 → (toString n).length ≤ width :=
    fun hn => hnext ▸ length_toString_le hn
  have hnumber := isRightAligned_alignRight (hwidth (Nat.le_succ line))
  obtain ⟨above, habove, hrows⟩ := exists_neighbour lines (hwidth (by omega : line - 1 ≤ line + 1))
  obtain ⟨below, hbelow, hrows'⟩ := exists_neighbour lines (hwidth (Nat.le_refl _))
  let front := (alignRight width line).toList ++ [':', ' '] ++ left
  have hfront : front.length = 2 + width + (column - 1) := by
    rw [List.length_append, List.length_append, hnumber.length_eq, hcolumn]
    simp only [List.length_cons, List.length_nil]
    omega
  have hbefore : (if 2 ≤ line then numberedLine width (line - 1) (lines[line - 2]?.getD [])
      else "").toList = above.flatMap (· ++ ['\n']) := by
    rw [hrows]
    by_cases hsecond : 2 ≤ line
    · rw [if_pos hsecond, if_pos ⟨by omega, by omega⟩]
      rfl
    · rw [if_neg hsecond, if_neg (by omega)]
      rfl
  have hshown := showsLine_row hpos htext (hwidth (Nat.le_succ line))
  refine ⟨⟨width, above, row width line (left ++ right), List.replicate front.length ' ' ++ ['^'],
    below⟩, ?_, habove, hshown, hbelow, front, ?_, rfl⟩
  · rw [excerpt, hlines, hnext]
    simp only [String.toList_append, hbefore, Excerpt.chars, List.flatMap_append]
    rw [hrows', Nat.add_sub_cancel]
    split
    case h_1 next hlast =>
      obtain ⟨hlt, -⟩ := List.getElem?_eq_some_iff.1 hlast
      rw [if_pos ⟨Nat.le_add_left 1 line, hlt⟩, hlast]
      simp [htext, toList_numberedLine, toList_pushn, ← hfront]
    case h_2 hlast =>
      have hle := List.getElem?_eq_none_iff.1 hlast
      rw [if_neg (by omega)]
      simp [htext, toList_numberedLine, toList_pushn, ← hfront]
  · exact (List.append_assoc _ left right).symm

end Position

end GraphQLSyntax
