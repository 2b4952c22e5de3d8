import GraphQLSyntax.Proofs.Printing.Passage

/-!
# How printed texts are indented

The lines of a text, which are found by cutting it at its line ends, tell how it is indented:
how many spaces each of them begins with, and which of them begin or end a block.  In a text that
is printed by depth every line is indented by two spaces for each block that is open around it,
no line ends with a space, and there are no other empty lines than those between two passages.
-/

namespace GraphQLSyntax

/-! ## Lines with a depth -/

/-- The number of spaces that a line begins with. -/
def indentation (line : List Char) : Nat :=
  (line.takeWhile (· == ' ')).length

/-- The line ends with the brace that opens a block. -/
def opensBlock (line : List Char) : Bool :=
  line.getLast? == some '\x7b'

/-- The line begins with the brace that closes a block, apart from its indentation. -/
def closesBlock (line : List Char) : Bool :=
  (line.dropWhile (· == ' ')).head? == some '\x7d'

/-- Where so many blocks are open before the first line, each line is indented by two spaces for
each block that is open around it. -/
def IndentedFrom : Nat → List (List Char) → Prop
  | _, [] => True
  | depth, line :: lines =>
    ∃ around, around + (closesBlock line).toNat = depth ∧ indentation line = 2 * around ∧
      IndentedFrom (around + (opensBlock line).toNat) lines

theorem countP_cons_toNat {β : Type} (p : β → Bool) (x : β) (xs : List β) :
    (x :: xs).countP p = xs.countP p + (p x).toNat := by
  rw [List.countP_cons]
  cases p x <;> rfl

/-- How many blocks are open around a line can be counted in the lines before it. -/
theorem IndentedFrom.indentation_eq {depth : Nat} {before after : List (List Char)}
    {line : List Char} (h : IndentedFrom depth (before ++ line :: after)) :
    indentation line + 2 * (before ++ [line]).countP closesBlock =
      2 * (depth + before.countP opensBlock) := by
  induction before generalizing depth with
  | nil =>
    obtain ⟨around, hdepth, hindentation, -⟩ := h
    rw [List.nil_append, countP_cons_toNat, List.countP_nil, List.countP_nil, hindentation]
    omega
  | cons first before ih =>
    obtain ⟨around, hdepth, -, hrest⟩ := h
    have hline := ih hrest
    rw [List.cons_append, countP_cons_toNat, countP_cons_toNat]
    omega

/-! ## Lines of printed passages -/

namespace PrintedLine

variable {line : PrintedLine} {depth : Nat} {text : String}

theorem takeWhile_chars (h : text.toList.head? ≠ some ' ') :
    indentation (chars ⟨depth, text⟩) = 2 * depth ∧
      (chars ⟨depth, text⟩).dropWhile (· == ' ') = text.toList := by
  have hspaces : ∀ c ∈ List.replicate (2 * depth) ' ', (c == ' ') = true := by
    intro c hc
    rw [List.eq_of_mem_replicate hc]
    rfl
  have hfirst : text.toList.takeWhile (· == ' ') = [] ∧
      text.toList.dropWhile (· == ' ') = text.toList := by
    cases htext : text.toList with
    | nil => exact ⟨rfl, rfl⟩
    | cons c cs =>
      have hc : (c == ' ') = false := by simpa [htext] using h
      simp [hc]
  refine ⟨?_, ?_⟩
  · rw [indentation, chars, List.takeWhile_append_of_pos hspaces, hfirst.1, List.append_nil,
      List.length_replicate]
  · rw [chars, List.dropWhile_append_of_pos hspaces, hfirst.2]

theorem indentation_chars (h : text.toList.head? ≠ some ' ') :
    indentation (chars ⟨depth, text⟩) = 2 * depth :=
  (takeWhile_chars h).1

theorem closesBlock_chars (h : text.toList.head? ≠ some ' ') :
    closesBlock (chars ⟨depth, text⟩) = (text.toList.head? == some '\x7d') := by
  rw [closesBlock, (takeWhile_chars h).2]

theorem getLast?_chars (h : text ≠ "") :
    (chars ⟨depth, text⟩).getLast? = text.toList.getLast? := by
  have hne : text.toList ≠ [] := mt String.toList_eq_nil_iff.1 h
  rw [chars, List.getLast?_append, List.getLast?_eq_some_getLast hne, Option.some_or]

end PrintedLine

open PrintedLine (chars)

theorem BeginsPlainly.head?_ne {text : String} (h : BeginsPlainly text) :
    text.toList.head? ≠ some ' ' ∧ text.toList.head? ≠ some '\x7d' := by
  obtain ⟨c, hc, hspace, hbrace⟩ := h
  rw [Option.mem_def.1 hc]
  exact ⟨fun heq => hspace (Option.some.inj heq), fun heq => hbrace (Option.some.inj heq)⟩

theorem BeginsPlainly.closesBlock_eq {text : String} (h : BeginsPlainly text) (depth : Nat) :
    closesBlock (chars ⟨depth, text⟩) = false := by
  rw [PrintedLine.closesBlock_chars h.head?_ne.1]
  exact beq_eq_false_iff_ne.2 h.head?_ne.2

theorem EndsPlainly.getLast?_ne {text : String} (h : EndsPlainly text) :
    text.toList.getLast? ≠ some ' ' ∧ text.toList.getLast? ≠ some '\x7b' := by
  obtain ⟨c, hc, hspace, hbrace⟩ := h
  rw [Option.mem_def.1 hc]
  exact ⟨fun heq => hspace (Option.some.inj heq), fun heq => hbrace (Option.some.inj heq)⟩

theorem IsPhrase.opensBlock_eq {text : String} (h : IsPhrase text) (depth : Nat) :
    opensBlock (chars ⟨depth, text⟩) = false := by
  rw [opensBlock, PrintedLine.getLast?_chars h.ne_empty]
  exact beq_eq_false_iff_ne.2 h.ends.getLast?_ne.2

theorem Passage.IsOpening.opensBlock_eq {text : String} (h : IsOpening text) (depth : Nat) :
    opensBlock (chars ⟨depth, text⟩) = true := by
  rw [opensBlock, PrintedLine.getLast?_chars h.begins.ne_empty, h.getLast?_eq]
  rfl

/-- A line that stands in as many blocks as it is indented for. -/
theorem IndentedFrom.cons {depth : Nat} {text : String} {closes opens : Bool}
    {rest : List (List Char)} (hfirst : text.toList.head? ≠ some ' ')
    (hcloses : closesBlock (chars ⟨depth, text⟩) = closes)
    (hopens : opensBlock (chars ⟨depth, text⟩) = opens)
    (hrest : IndentedFrom (depth + opens.toNat) rest) :
    IndentedFrom (depth + closes.toNat) (chars ⟨depth, text⟩ :: rest) := by
  subst hcloses hopens
  exact ⟨depth, rfl, PrintedLine.indentation_chars hfirst, hrest⟩

namespace NestedLines

variable {depth : Nat} {lines : List PrintedLine}

/-- Nested lines are indented, and when they are over, no more blocks are open than before. -/
theorem indentedFrom_append (h : NestedLines depth lines) {rest : List (List Char)}
    (hrest : IndentedFrom depth rest) : IndentedFrom depth (lines.map chars ++ rest) := by
  induction h generalizing rest with
  | nil => exact hrest
  | @line depth text lines h _ ih =>
    exact .cons h.begins.head?_ne.1 (h.begins.closesBlock_eq depth) (h.opensBlock_eq depth)
      (ih hrest)
  | @block depth text inner lines h _ _ ihinner ih =>
    have hcloses : closesBlock (chars ⟨depth, "\x7d"⟩) = true := by
      rw [PrintedLine.closesBlock_chars (by decide)]
      rfl
    have hopens : opensBlock (chars ⟨depth, "\x7d"⟩) = false := by
      rw [opensBlock, PrintedLine.getLast?_chars (by decide)]
      rfl
    have hclosing : IndentedFrom (depth + 1)
        (chars ⟨depth, "\x7d"⟩ :: (lines.map chars ++ rest)) :=
      .cons (by decide) hcloses hopens (ih hrest)
    have hinner : IndentedFrom (depth + 1)
        ((inner ++ ⟨depth, "\x7d"⟩ :: lines).map chars ++ rest) := by
      rw [List.map_append, List.append_assoc]
      exact ihinner hclosing
    exact .cons h.begins.head?_ne.1 (h.begins.closesBlock_eq depth) (h.opensBlock_eq depth) hinner

/-- No line is empty or ends with a space. -/
theorem chars_ends (h : NestedLines depth lines) :
    ∀ line ∈ lines, line.chars ≠ [] ∧ line.chars.getLast? ≠ some ' ' := by
  have htexts := h.forall_mem (P := fun text => text ≠ "" ∧ text.toList.getLast? ≠ some ' ')
    (fun _ h => ⟨h.ne_empty, h.ends.getLast?_ne.1⟩)
    (fun _ h => ⟨h.begins.ne_empty, by simp [h.getLast?_eq]⟩) (by decide)
  intro line hline
  obtain ⟨hne, hlast⟩ := htexts line hline
  refine ⟨fun hnil => hne ?_, ?_⟩
  · exact String.toList_eq_nil_iff.1 (List.append_eq_nil_iff.1 hnil).2
  · rwa [PrintedLine.getLast?_chars hne]

end NestedLines

/-! ## Cutting printed lines -/

namespace PrintedLine

theorem not_endsLine_chars {line : PrintedLine} (h : IsOneLine line.text) :
    ∀ c ∈ line.chars, ¬ EndsLine c := by
  have hprint := isOneLine_print h
  rwa [IsOneLine, print, String.toList_ofList] at hprint

/-- Printed lines are found again when the text is cut at its line ends. -/
theorem splitLines_printAll {lines : List PrintedLine} (hne : lines ≠ [])
    (h : ∀ line ∈ lines, IsOneLine line.text) :
    splitLines (printAll lines).toList = lines.map chars := by
  induction lines with
  | nil => exact absurd rfl hne
  | cons line lines ih =>
    obtain ⟨hline, hlines⟩ := List.forall_mem_cons.1 h
    by_cases hnil : lines = []
    · rw [hnil, printAll_singleton, print, String.toList_ofList,
        splitLines_of_forall (not_endsLine_chars hline)]
      rfl
    · have htext : (printAll (line :: lines)).toList =
          line.chars ++ '\n' :: (printAll lines).toList := by
        rw [printAll_cons hnil]
        simp [print]
      rw [htext, splitLines_append_lineFeed (not_endsLine_chars hline), ih hnil hlines]
      rfl

end PrintedLine

/-! ## Separated passages -/

/-- The text is indented by blocks, and its parts are separated by empty lines: no line ends with
a space, each line is indented by two spaces for each block that is open around it, the lines are
those of the parts with one empty line between each two parts, and there is a single line feed
at the end. -/
structure IsIndented (text : String) (parts : List String) : Prop where
  getLast?_ne : ∀ line ∈ splitLines text.toList, line.getLast? ≠ some ' '
  indentation_eq : ∀ before line after, splitLines text.toList = before ++ line :: after →
    indentation line + 2 * (before ++ [line]).countP closesBlock = 2 * before.countP opensBlock
  lines_eq : splitLines text.toList =
    [[]].intercalate (parts.map fun part => splitLines part.toList) ++ [[]]
  ne_nil : ∀ part ∈ parts, ∀ line ∈ splitLines part.toList, line ≠ []
  exists_end : ∃ front c, text.toList = front ++ [c, '\n'] ∧ ¬ EndsLine c

namespace Passage

variable {passages : List Passage}

theorem map_chars_linesSeparated (passages : List Passage) :
    (linesSeparated passages).map chars =
      [[]].intercalate (passages.map fun passage => (passage.lines 0).map chars) := by
  induction passages with
  | nil => rfl
  | cons passage passages ih =>
    by_cases hnil : passages = []
    · rw [hnil, linesSeparated_singleton, List.map_singleton, List.intercalate_singleton]
    · rw [linesSeparated_cons passage hnil, List.map_append, List.map_cons, ih, List.map_cons,
        List.intercalate_cons_of_ne_nil (by simpa using hnil), List.append_assoc]
      rfl

theorem mem_linesSeparated {line : PrintedLine} (h : line ∈ linesSeparated passages) :
    line = ⟨0, ""⟩ ∨ ∃ passage ∈ passages, line ∈ passage.lines 0 := by
  induction passages with
  | nil => cases h
  | cons passage passages ih =>
    by_cases hnil : passages = []
    · rw [hnil, linesSeparated_singleton] at h
      exact .inr ⟨passage, List.mem_cons_self, h⟩
    · rw [linesSeparated_cons passage hnil, List.mem_append, List.mem_cons] at h
      rcases h with h | h | h
      · exact .inr ⟨passage, List.mem_cons_self, h⟩
      · exact .inl h
      · obtain hblank | ⟨other, hother, hline⟩ := ih h
        · exact .inl hblank
        · exact .inr ⟨other, List.mem_cons_of_mem _ hother, hline⟩

/-- The last line is that of a passage. -/
theorem exists_linesSeparated_eq (hne : passages ≠ []) :
    ∃ front line, linesSeparated passages = front ++ [line] ∧
      ∃ passage ∈ passages, line ∈ passage.lines 0 := by
  induction passages with
  | nil => exact absurd rfl hne
  | cons passage passages ih =>
    by_cases hnil : passages = []
    · have hlines := passage.lines_ne_nil 0
      refine ⟨(passage.lines 0).dropLast, (passage.lines 0).getLast hlines, ?_, passage,
        List.mem_cons_self, List.getLast_mem hlines⟩
      rw [hnil, linesSeparated_singleton, List.dropLast_concat_getLast]
    · obtain ⟨front, line, heq, other, hother, hline⟩ := ih hnil
      refine ⟨passage.lines 0 ++ ⟨0, ""⟩ :: front, line, ?_, other,
        List.mem_cons_of_mem _ hother, hline⟩
      rw [linesSeparated_cons passage hnil, heq, List.append_assoc]
      rfl

theorem printSeparated_eq (hne : passages ≠ []) :
    printSeparated passages =
      PrintedLine.printAll (linesSeparated passages ++ [⟨0, ""⟩]) := by
  rw [PrintedLine.printAll_append (linesSeparated_ne_nil hne) (by simp), PrintedLine.printAll_zero,
    String.append_empty, printSeparated]

section Tidy

variable (htidy : ∀ passage ∈ passages, passage.IsTidy)
include htidy

theorem isOneLine_linesSeparated : ∀ line ∈ linesSeparated passages, IsOneLine line.text := by
  intro line hline
  obtain rfl | ⟨passage, hpassage, hline⟩ := mem_linesSeparated hline
  · exact isOneLine_empty
  · exact ((htidy passage hpassage).nested 0).isOneLine line hline

theorem splitLines_printSeparated (hne : passages ≠ []) :
    splitLines (printSeparated passages).toList = (linesSeparated passages).map chars ++ [[]] := by
  have hlines : ∀ line ∈ linesSeparated passages ++ [⟨0, ""⟩], IsOneLine line.text :=
    List.forall_mem_append.2 ⟨isOneLine_linesSeparated htidy,
      List.forall_mem_singleton.2 isOneLine_empty⟩
  rw [printSeparated_eq hne, PrintedLine.splitLines_printAll (by simp) hlines, List.map_append]
  rfl

theorem indentedFrom_linesSeparated :
    IndentedFrom 0 ((linesSeparated passages).map chars ++ [[]]) := by
  have hblank : ∀ {rest : List (List Char)}, IndentedFrom 0 rest → IndentedFrom 0 ([] :: rest) :=
    fun h => ⟨0, rfl, rfl, h⟩
  induction passages with
  | nil => exact hblank trivial
  | cons passage passages ih =>
    obtain ⟨hpassage, hpassages⟩ := List.forall_mem_cons.1 htidy
    by_cases hnil : passages = []
    · rw [hnil, linesSeparated_singleton]
      exact (hpassage.nested 0).indentedFrom_append (hblank trivial)
    · rw [linesSeparated_cons passage hnil, List.map_append, List.append_assoc]
      exact (hpassage.nested 0).indentedFrom_append (hblank (ih hpassages))

theorem exists_printSeparated_eq (hne : passages ≠ []) :
    ∃ front c, (printSeparated passages).toList = front ++ [c, '\n'] ∧ ¬ EndsLine c := by
  obtain ⟨front, line, heq, passage, hpassage, hline⟩ := exists_linesSeparated_eq hne
  have hnested := (htidy passage hpassage).nested 0
  obtain ⟨hlast, -⟩ := hnested.chars_ends line hline
  obtain ⟨before, hbefore⟩ : ∃ before,
      (PrintedLine.printAll (linesSeparated passages)).toList = before ++ line.chars := by
    rw [heq]
    by_cases hfront : front = []
    · exact ⟨[], by simp [hfront, PrintedLine.printAll_singleton, PrintedLine.print]⟩
    · refine ⟨(PrintedLine.printAll front ++ "\n").toList, ?_⟩
      rw [PrintedLine.printAll_append hfront (by simp), PrintedLine.printAll_singleton]
      simp [PrintedLine.print]
  obtain ⟨start, c, hchars⟩ : ∃ start c, line.chars = start ++ [c] :=
    ⟨_, _, (List.dropLast_concat_getLast hlast).symm⟩
  refine ⟨before ++ start, c, ?_, ?_⟩
  · rw [printSeparated, String.toList_append, hbefore, hchars]
    simp
  · refine PrintedLine.not_endsLine_chars (hnested.isOneLine line hline) c ?_
    rw [hchars]
    exact List.mem_concat_self

end Tidy

/-- What is printed by depth is indented by blocks. -/
theorem isIndented_printSeparated {β : Type} {passage : β → Passage} {print : β → String}
    {xs : List β} (hne : xs ≠ []) (h : ∀ x ∈ xs, (passage x).Renders (print x)) :
    IsIndented (printSeparated (xs.map passage)) (xs.map print) := by
  have hne' : xs.map passage ≠ [] := by simpa using hne
  have htidy : ∀ y ∈ xs.map passage, y.IsTidy := by
    intro y hy
    obtain ⟨x, hx, rfl⟩ := List.mem_map.1 hy
    exact (h x hx).isTidy
  have hparts : ∀ x ∈ xs, splitLines (print x).toList = ((passage x).lines 0).map chars := by
    intro x hx
    rw [(h x hx).text_eq]
    exact PrintedLine.splitLines_printAll (lines_ne_nil _ 0) (h x hx).nested.isOneLine
  have hlines := splitLines_printSeparated htidy hne'
  refine ⟨?_, ?_, ?_, ?_, exists_printSeparated_eq htidy hne'⟩
  · rw [hlines, List.forall_mem_append, List.forall_mem_map]
    refine ⟨fun line hline => ?_, by simp⟩
    obtain rfl | ⟨y, hy, hline⟩ := mem_linesSeparated hline
    · decide
    · exact (((htidy y hy).nested 0).chars_ends line hline).2
  · intro before line after hsplit
    have hindented := indentedFrom_linesSeparated htidy
    rw [← hlines, hsplit] at hindented
    have hline := hindented.indentation_eq
    rwa [Nat.zero_add] at hline
  · rw [hlines, map_chars_linesSeparated, List.map_map, List.map_map]
    exact congrArg (fun parts => [[]].intercalate parts ++ [[]])
      (List.map_congr_left fun x hx => (hparts x hx).symm)
  · intro part hpart line hline
    obtain ⟨x, hx, rfl⟩ := List.mem_map.1 hpart
    rw [hparts x hx] at hline
    obtain ⟨printed, hprinted, rfl⟩ := List.mem_map.1 hline
    exact ((h x hx).nested.chars_ends printed hprinted).1

end Passage

end GraphQLSyntax
