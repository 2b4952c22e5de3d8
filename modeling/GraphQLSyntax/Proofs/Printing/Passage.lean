import Mathlib.Data.List.Basic
import GraphQLSyntax.Proofs.Printing.Phrase

/-!
# Printing by depth

A block is printed by printing what is in it and then moving all its lines to the right, so that
the lines of a block in a block are moved twice.  The same text comes of a printer that knows
how many blocks it is in and begins every line with two spaces for each of them.

What is printed is taken here as passages, which are lines and blocks of passages.  A passage
says nothing of indentation, and both ways to print it are compared by induction.
-/

namespace GraphQLSyntax

/-! ## Lines at a depth -/

/-- A line of a printed document, and in how many blocks it stands. -/
structure PrintedLine where
  depth : Nat
  text : String

namespace PrintedLine

/-- The characters of a line: two spaces for each block that it stands in, and its text. -/
def chars (line : PrintedLine) : List Char :=
  List.replicate (2 * line.depth) ' ' ++ line.text.toList

/-- A line as it is printed. -/
def print (line : PrintedLine) : String :=
  String.ofList line.chars

/-- Lines as they are printed. -/
def printAll (lines : List PrintedLine) : String :=
  "\n".intercalate (lines.map print)

/-- The same line in one block more. -/
def deeper (line : PrintedLine) : PrintedLine :=
  ⟨line.depth + 1, line.text⟩

theorem printAll_singleton (line : PrintedLine) : printAll [line] = line.print := by
  simp [printAll]

theorem printAll_zero (text : String) : printAll [⟨0, text⟩] = text := by
  apply String.toList_injective
  simp [printAll, print, chars]

theorem printAll_cons {lines : List PrintedLine} (h : lines ≠ []) (line : PrintedLine) :
    printAll (line :: lines) = line.print ++ "\n" ++ printAll lines :=
  String.intercalate_cons_of_ne_nil (by simpa using h)

theorem printAll_append {lines lines' : List PrintedLine} (h : lines ≠ []) (h' : lines' ≠ []) :
    printAll (lines ++ lines') = printAll lines ++ "\n" ++ printAll lines' := by
  induction lines with
  | nil => exact absurd rfl h
  | cons line lines ih =>
    by_cases hlines : lines = []
    · rw [hlines, List.singleton_append, printAll_cons h', printAll_singleton]
    · rw [List.cons_append, printAll_cons (by simp [hlines]), ih hlines, printAll_cons hlines]
      simp only [String.append_assoc]

/-- Lines between a first and a last one that stand in no block. -/
theorem printAll_block {inner : List PrintedLine} (h : inner ≠ []) (first last : String) :
    printAll (⟨0, first⟩ :: inner ++ [⟨0, last⟩]) =
      first ++ "\n" ++ printAll inner ++ "\n" ++ last := by
  rw [List.cons_append, ← List.singleton_append, printAll_append (by simp) (by simp),
    printAll_append h (by simp), printAll_zero, printAll_zero]
  simp only [String.append_assoc]

theorem print_deeper (line : PrintedLine) : line.deeper.print = "  " ++ line.print := by
  apply String.toList_injective
  simp [print, chars, deeper, Nat.mul_succ, List.replicate_succ]

end PrintedLine

/-! ## Indenting lines -/

namespace PrintedLine

theorem isOneLine_print {line : PrintedLine} (h : IsOneLine line.text) : IsOneLine line.print := by
  intro c hc
  rw [print, String.toList_ofList, chars, List.mem_append] at hc
  rcases hc with hc | hc
  · rw [List.eq_of_mem_replicate hc]
    simp [EndsLine]
  · exact h c hc

/-- To indent all lines of a text by replacing its line feeds is to print them one block deeper. -/
theorem indentLines_printAll {lines : List PrintedLine} (hne : lines ≠ [])
    (h : ∀ line ∈ lines, IsOneLine line.text) :
    "  " ++ indentLines (printAll lines) = printAll (lines.map deeper) := by
  induction lines with
  | nil => exact absurd rfl hne
  | cons line lines ih =>
    obtain ⟨hline, hlines⟩ := List.forall_mem_cons.1 h
    have hprint : indentLines line.print = line.print :=
      indentLines_of_isOneLine (isOneLine_print hline)
    by_cases hnil : lines = []
    · rw [hnil, printAll_singleton, hprint, ← print_deeper]
      exact (printAll_singleton _).symm
    · have hfeed : indentLines "\n" = "\n" ++ "  " := by decide
      rw [printAll_cons hnil, indentLines_append, indentLines_append, hprint, hfeed,
        List.map_cons, printAll_cons (by simpa using hnil), ← ih hnil hlines, print_deeper]
      simp only [String.append_assoc]

end PrintedLine

/-! ## Passages -/

/-- A piece of a printed document: a line, or a block of pieces behind a phrase. -/
inductive Passage
  | line (text : String)
  | block (phrase : String) (items : List Passage)

namespace Passage

/-- What is shown of all passages in a block is shown of the block. -/
@[elab_as_elim]
theorem inductionOn {P : Passage → Prop} (passage : Passage) (line : ∀ text, P (.line text))
    (block : ∀ phrase items, (∀ x ∈ items, P x) → P (.block phrase items)) : P passage :=
  Passage.rec (motive_2 := fun items => ∀ x ∈ items, P x) line block
    (List.forall_mem_nil _) (fun _ _ hx hxs => List.forall_mem_cons.2 ⟨hx, hxs⟩) passage

/-- A phrase and a text, with a space between them if there is a phrase. -/
def heading (phrase text : String) : String :=
  joinParts [phrase, text] " "

mutual

/-- The lines of a passage that stands in `depth` blocks.  A block without passages is written
on one line. -/
def lines (depth : Nat) : Passage → List PrintedLine
  | .line text => [⟨depth, text⟩]
  | .block phrase items =>
    if items.isEmpty then [⟨depth, heading phrase "\x7b\x7d"⟩]
    else ⟨depth, heading phrase "\x7b"⟩ :: linesAll (depth + 1) items ++ [⟨depth, "\x7d"⟩]
termination_by structural passage => passage

def linesAll (depth : Nat) : List Passage → List PrintedLine
  | [] => []
  | x :: xs => x.lines depth ++ linesAll depth xs
termination_by structural xs => xs

end

mutual

/-- All lines of the passage have texts of one line without spaces at the ends. -/
def IsTidy : Passage → Prop
  | .line text => IsPhrase text
  | .block phrase items => IsPhraseOrEmpty phrase ∧ AllTidy items
termination_by structural passage => passage

def AllTidy : List Passage → Prop
  | [] => True
  | x :: xs => x.IsTidy ∧ AllTidy xs
termination_by structural xs => xs

end

@[simp] theorem linesAll_eq_flatMap (depth : Nat) (xs : List Passage) :
    linesAll depth xs = xs.flatMap (lines depth) := by
  induction xs with
  | nil => rfl
  | cons x xs ih => simp [linesAll, ih]

@[simp] theorem allTidy_iff (xs : List Passage) : AllTidy xs ↔ ∀ x ∈ xs, x.IsTidy := by
  induction xs with
  | nil => simp [AllTidy]
  | cons x xs ih => simp [AllTidy, ih]

theorem lines_block_nil (depth : Nat) (phrase : String) :
    (block phrase []).lines depth = [⟨depth, heading phrase "\x7b\x7d"⟩] := by
  simp [lines]

theorem lines_block {items : List Passage} (h : items ≠ []) (depth : Nat) (phrase : String) :
    (block phrase items).lines depth =
      ⟨depth, heading phrase "\x7b"⟩ :: items.flatMap (lines (depth + 1)) ++ [⟨depth, "\x7d"⟩] := by
  simp [lines, h]

theorem lines_ne_nil (passage : Passage) (depth : Nat) : passage.lines depth ≠ [] := by
  cases passage with
  | line text => simp [lines]
  | block phrase items =>
    by_cases h : items = []
    · simp [h, lines_block_nil]
    · simp [lines_block h]

/-- In one block more, the lines are the same but deeper. -/
theorem lines_succ (passage : Passage) (depth : Nat) :
    passage.lines (depth + 1) = (passage.lines depth).map PrintedLine.deeper := by
  induction passage using inductionOn generalizing depth with
  | line text => simp [lines, PrintedLine.deeper]
  | block phrase items ih =>
    by_cases hnil : items = []
    · simp [hnil, lines_block_nil, PrintedLine.deeper]
    · have hitems : items.flatMap (lines (depth + 1 + 1)) =
          (items.flatMap (lines (depth + 1))).map PrintedLine.deeper := by
        rw [List.map_flatMap]
        exact List.flatMap_congr fun x hx => ih x hx (depth + 1)
      rw [lines_block hnil, lines_block hnil, hitems]
      simp [PrintedLine.deeper]

/-! ## Headings -/

theorem heading_empty (text : String) : heading "" text = text := by
  rw [heading, joinParts_cons_empty, joinParts_singleton]

theorem heading_of_ne_empty {phrase text : String} (hphrase : phrase ≠ "") (htext : text ≠ "") :
    heading phrase text = phrase ++ " " ++ text := by
  obtain ⟨hnothing, -⟩ | ⟨-, heq⟩ := joinParts_cons hphrase [text] " "
  · rw [joinParts_singleton] at hnothing
    exact absurd hnothing htext
  · rw [joinParts_singleton] at heq
    exact heq

theorem heading_append (phrase : String) {s : String} (hs : s ≠ "") (t : String) :
    heading phrase (s ++ t) = heading phrase s ++ t := by
  by_cases hphrase : phrase = ""
  · rw [hphrase, heading_empty, heading_empty]
  · have hne : s ++ t ≠ "" := fun h => hs (String.append_eq_empty_iff.1 h).1
    rw [heading_of_ne_empty hphrase hne, heading_of_ne_empty hphrase hs, String.append_assoc,
      String.append_assoc, String.append_assoc]

theorem heading_block (phrase : String) {items : List String} (h : joinParts items "\n" ≠ "") :
    heading phrase (GraphQLSyntax.block items) =
      heading phrase "\x7b" ++ "\n" ++ ("  " ++ indentLines (joinParts items "\n")) ++ "\n" ++
        "\x7d" := by
  have hparts : GraphQLSyntax.block items =
      "\x7b" ++ ("\n" ++ ("  " ++ indentLines (joinParts items "\n")) ++ "\n" ++ "\x7d") := by
    rw [block_of_ne_empty h]
    apply String.toList_injective
    simp
  rw [hparts, heading_append _ (by decide)]
  simp only [String.append_assoc]

theorem isPhrase_heading {phrase text : String} (hphrase : IsPhraseOrEmpty phrase)
    (htext : IsPhrase text) : IsPhrase (heading phrase text) := by
  rcases hphrase with rfl | hphrase
  · rwa [heading_empty]
  · refine hphrase.joinParts_cons (by decide) (.inr ?_)
    rwa [joinParts_singleton]

/-- The line with which a block begins. -/
structure IsOpening (text : String) : Prop where
  begins : BeginsPlainly text
  getLast?_eq : text.toList.getLast? = some '\x7b'
  isOneLine : IsOneLine text

theorem isOpening_heading {phrase : String} (hphrase : IsPhraseOrEmpty phrase) :
    IsOpening (heading phrase "\x7b") := by
  rcases hphrase with rfl | hphrase
  · rw [heading_empty]
    exact ⟨by decide, by decide, by decide⟩
  · rw [heading_of_ne_empty hphrase.ne_empty (by decide), String.append_assoc]
    refine ⟨hphrase.begins.append _, ?_, ?_⟩
    · rw [String.toList_append, List.getLast?_append]
      rfl
    · rw [isOneLine_append_iff]
      exact ⟨hphrase.isOneLine, by decide⟩

end Passage

/-! ## Nested lines -/

/-- The lines stand in `depth` blocks: each is a phrase, or belongs to a block in which the lines
stand in one more. -/
inductive NestedLines : Nat → List PrintedLine → Prop
  | nil (depth : Nat) : NestedLines depth []
  | line {depth : Nat} {text : String} {lines : List PrintedLine} (h : IsPhrase text)
      (hrest : NestedLines depth lines) : NestedLines depth (⟨depth, text⟩ :: lines)
  | block {depth : Nat} {text : String} {inner lines : List PrintedLine}
      (h : Passage.IsOpening text) (hinner : NestedLines (depth + 1) inner)
      (hrest : NestedLines depth lines) :
      NestedLines depth (⟨depth, text⟩ :: inner ++ ⟨depth, "\x7d"⟩ :: lines)

namespace NestedLines

variable {depth : Nat} {lines lines' : List PrintedLine}

theorem append (h : NestedLines depth lines) (h' : NestedLines depth lines') :
    NestedLines depth (lines ++ lines') := by
  induction h with
  | nil => exact h'
  | line h _ ih => exact .line h (ih h')
  | block h hinner _ _ ih =>
    rw [List.append_assoc]
    exact .block h hinner (ih h')

theorem flatMap {β : Type} {f : β → List PrintedLine} {xs : List β}
    (h : ∀ x ∈ xs, NestedLines depth (f x)) : NestedLines depth (xs.flatMap f) := by
  induction xs with
  | nil => exact .nil depth
  | cons x xs ih =>
    obtain ⟨hx, hxs⟩ := List.forall_mem_cons.1 h
    exact hx.append (ih hxs)

/-- What holds of each sort of lines holds of nested lines. -/
theorem forall_mem {P : String → Prop} (h : NestedLines depth lines)
    (hphrase : ∀ text, IsPhrase text → P text)
    (hopening : ∀ text, Passage.IsOpening text → P text) (hclosing : P "\x7d") :
    ∀ line ∈ lines, P line.text := by
  induction h with
  | nil => exact List.forall_mem_nil _
  | line h _ ih => exact List.forall_mem_cons.2 ⟨hphrase _ h, ih⟩
  | block h _ _ ihinner ih =>
    exact List.forall_mem_append.2 ⟨List.forall_mem_cons.2 ⟨hopening _ h, ihinner⟩,
      List.forall_mem_cons.2 ⟨hclosing, ih⟩⟩

theorem isOneLine (h : NestedLines depth lines) : ∀ line ∈ lines, IsOneLine line.text :=
  h.forall_mem (fun _ h => h.isOneLine) (fun _ h => h.isOneLine) (by decide)

theorem printAll_ne_empty (h : NestedLines depth lines) (hne : lines ≠ []) :
    PrintedLine.printAll lines ≠ "" := by
  obtain ⟨line, lines, rfl⟩ := List.exists_cons_of_ne_nil hne
  have hall := h.forall_mem (P := fun text => text ≠ "") (fun _ h => h.ne_empty)
    (fun _ h => h.begins.ne_empty) (by decide)
  refine intercalate_ne_empty fun hempty => hall line List.mem_cons_self ?_
  have hnil := congrArg String.toList hempty
  rw [PrintedLine.print, String.toList_ofList, PrintedLine.chars] at hnil
  exact String.toList_eq_nil_iff.1 (List.append_eq_nil_iff.1 hnil).2

end NestedLines

namespace Passage

theorem IsTidy.nested {passage : Passage} (h : passage.IsTidy) (depth : Nat) :
    NestedLines depth (passage.lines depth) := by
  induction passage using inductionOn generalizing depth with
  | line text => exact .line h (.nil depth)
  | block phrase items ih =>
    obtain ⟨hphrase, hitems⟩ := h
    rw [allTidy_iff] at hitems
    by_cases hnil : items = []
    · rw [hnil, lines_block_nil]
      exact .line (isPhrase_heading hphrase ⟨by decide, by decide, by decide⟩) (.nil depth)
    · rw [lines_block hnil]
      exact .block (isOpening_heading hphrase)
        (.flatMap fun x hx => ih x hx (hitems x hx) (depth + 1)) (.nil depth)

/-! ## The two ways to print -/

/-- The text is what is printed of the passage by depth. -/
structure Renders (passage : Passage) (text : String) : Prop where
  isTidy : passage.IsTidy
  text_eq : text = PrintedLine.printAll (passage.lines 0)

theorem Renders.line {text : String} (h : IsPhrase text) : (line text).Renders text where
  isTidy := h
  text_eq := (PrintedLine.printAll_zero text).symm

theorem Renders.nested {passage : Passage} {text : String} (h : passage.Renders text) :
    NestedLines 0 (passage.lines 0) :=
  h.isTidy.nested 0

theorem Renders.ne_empty {passage : Passage} {text : String} (h : passage.Renders text) :
    text ≠ "" := by
  rw [h.text_eq]
  exact h.nested.printAll_ne_empty (passage.lines_ne_nil 0)

section Items

variable {β : Type} {passage : β → Passage} {print : β → String} {xs : List β}

theorem flatMap_lines_ne_nil (hne : xs ≠ []) (depth : Nat) :
    (xs.flatMap fun x => (passage x).lines depth) ≠ [] := by
  obtain ⟨x, xs, rfl⟩ := List.exists_cons_of_ne_nil hne
  simp [lines_ne_nil]

theorem joinParts_map_ne_empty (hne : xs ≠ []) (h : ∀ x ∈ xs, (passage x).Renders (print x))
    (separator : String) : joinParts (xs.map print) separator ≠ "" := by
  obtain ⟨x, xs, rfl⟩ := List.exists_cons_of_ne_nil hne
  exact joinParts_cons_ne_empty (h x List.mem_cons_self).ne_empty _ _

/-- Texts are joined with the separator between each two of them, as none of them is empty. -/
theorem joinParts_map_cons {x : β} (hnil : xs ≠ [])
    (h : ∀ y ∈ x :: xs, (passage y).Renders (print y)) (separator : String) :
    joinParts ((x :: xs).map print) separator =
      print x ++ separator ++ joinParts (xs.map print) separator := by
  obtain ⟨hx, hxs⟩ := List.forall_mem_cons.1 h
  obtain ⟨hnothing, -⟩ | ⟨-, heq⟩ := joinParts_cons hx.ne_empty (xs.map print) separator
  · exact absurd hnothing (joinParts_map_ne_empty hnil hxs separator)
  · exact heq

/-- Texts that are joined by line feeds are the lines of all of them. -/
theorem joinParts_eq_printAll (hne : xs ≠ []) (h : ∀ x ∈ xs, (passage x).Renders (print x)) :
    joinParts (xs.map print) "\n" =
      PrintedLine.printAll (xs.flatMap fun x => (passage x).lines 0) := by
  induction xs with
  | nil => exact absurd rfl hne
  | cons x xs ih =>
    obtain ⟨hx, hxs⟩ := List.forall_mem_cons.1 h
    by_cases hnil : xs = []
    · simp [hnil, hx.text_eq]
    · rw [joinParts_map_cons hnil h, ih hnil hxs, List.flatMap_cons,
        PrintedLine.printAll_append (lines_ne_nil _ 0) (flatMap_lines_ne_nil hnil 0), ← hx.text_eq]

/-- A block is printed by moving the lines in it to the right. -/
theorem Renders.block {phrase : String} (hphrase : IsPhraseOrEmpty phrase)
    (h : ∀ x ∈ xs, (passage x).Renders (print x)) :
    (Passage.block phrase (xs.map passage)).Renders
      (heading phrase (GraphQLSyntax.block (xs.map print))) where
  isTidy := by
    refine ⟨hphrase, (allTidy_iff _).2 fun y hy => ?_⟩
    obtain ⟨x, hx, rfl⟩ := List.mem_map.1 hy
    exact (h x hx).isTidy
  text_eq := by
    by_cases hnil : xs = []
    · rw [hnil, List.map_nil, List.map_nil, lines_block_nil, PrintedLine.printAll_zero]
      rfl
    · have hdeeper : (xs.map passage).flatMap (lines 1) =
          (xs.flatMap fun x => (passage x).lines 0).map PrintedLine.deeper := by
        rw [List.flatMap_map, List.map_flatMap]
        exact List.flatMap_congr fun x _ => lines_succ (passage x) 0
      have hlines : (xs.flatMap fun x => (passage x).lines 0) ≠ [] :=
        flatMap_lines_ne_nil hnil 0
      have hinner : NestedLines 0 (xs.flatMap fun x => (passage x).lines 0) :=
        .flatMap fun x hx => (h x hx).nested
      have hbody := joinParts_eq_printAll hnil h
      have hne : joinParts (xs.map print) "\n" ≠ "" := joinParts_map_ne_empty hnil h "\n"
      have hinner1 : (xs.map passage).flatMap (lines 1) ≠ [] := by
        rw [hdeeper]
        simpa using hlines
      rw [heading_block _ hne, lines_block (by simpa using hnil),
        PrintedLine.printAll_block hinner1,
        hdeeper, hbody, PrintedLine.indentLines_printAll hlines hinner.isOneLine]

end Items

/-! ## Separated passages -/

/-- The lines of passages with an empty line between each two of them. -/
def linesSeparated (passages : List Passage) : List PrintedLine :=
  [⟨0, ""⟩].intercalate (passages.map (lines 0))

/-- Prints passages by depth, with an empty line between each two of them and a line feed behind
the last one. -/
def printSeparated (passages : List Passage) : String :=
  PrintedLine.printAll (linesSeparated passages) ++ "\n"

theorem linesSeparated_singleton (passage : Passage) :
    linesSeparated [passage] = passage.lines 0 :=
  List.intercalate_singleton

theorem linesSeparated_cons (passage : Passage) {passages : List Passage} (h : passages ≠ []) :
    linesSeparated (passage :: passages) =
      passage.lines 0 ++ ⟨0, ""⟩ :: linesSeparated passages := by
  rw [linesSeparated, List.map_cons, List.intercalate_cons_of_ne_nil (by simpa using h),
    List.append_assoc]
  rfl

theorem linesSeparated_ne_nil {passages : List Passage} (h : passages ≠ []) :
    linesSeparated passages ≠ [] := by
  obtain ⟨passage, passages, rfl⟩ := List.exists_cons_of_ne_nil h
  by_cases hnil : passages = []
  · rw [hnil, linesSeparated_singleton]
    exact lines_ne_nil passage 0
  · rw [linesSeparated_cons passage hnil]
    exact List.append_ne_nil_of_left_ne_nil (lines_ne_nil passage 0) _

/-- Texts that are joined by two line feeds have an empty line between each two of them. -/
theorem joinParts_eq_printSeparated {β : Type} {passage : β → Passage} {print : β → String}
    {xs : List β} (hne : xs ≠ []) (h : ∀ x ∈ xs, (passage x).Renders (print x)) :
    joinParts (xs.map print) "\n\n" ++ "\n" = printSeparated (xs.map passage) := by
  suffices htext : joinParts (xs.map print) "\n\n" =
      PrintedLine.printAll (linesSeparated (xs.map passage)) by
    rw [htext, printSeparated]
  induction xs with
  | nil => exact absurd rfl hne
  | cons x xs ih =>
    obtain ⟨hx, hxs⟩ := List.forall_mem_cons.1 h
    by_cases hnil : xs = []
    · rw [hnil, List.map_singleton, List.map_singleton, joinParts_singleton,
        linesSeparated_singleton, hx.text_eq]
    · have hrest : linesSeparated (xs.map passage) ≠ [] :=
        linesSeparated_ne_nil (by simpa using hnil)
      rw [joinParts_map_cons hnil h, ih hnil hxs, List.map_cons,
        linesSeparated_cons _ (by simpa using hnil),
        PrintedLine.printAll_append (lines_ne_nil _ 0) (by simp),
        PrintedLine.printAll_cons hrest, ← hx.text_eq]
      apply String.toList_injective
      simp [PrintedLine.print, PrintedLine.chars]

end Passage

end GraphQLSyntax
