import GraphQLSyntax.Proofs.Lexical.Literal
import GraphQLSyntax.Text.Line

/-!
# The lines of a text

A text is lines with line ends between them.  That is said here of characters, and without
regard to how a text is cut; the cut pieces are then those lines.  A place in a text that is
not inside a line end is in exactly one line, or at the end of it.
-/

namespace GraphQLSyntax

/-- There is no line end in the text. -/
def IsOneLine (text : String) : Prop :=
  ∀ c ∈ text.toList, ¬ EndsLine c

theorem all_not_isLineTerminator_iff {text : String} :
    (text.toList.all fun c => !isLineTerminator c) = true ↔ IsOneLine text := by
  simp [IsOneLine, ← isLineTerminator_iff]

instance (text : String) : Decidable (IsOneLine text) :=
  decidable_of_iff _ all_not_isLineTerminator_iff

theorem isOneLine_append_iff {text text' : String} :
    IsOneLine (text ++ text') ↔ IsOneLine text ∧ IsOneLine text' := by
  unfold IsOneLine
  rw [String.toList_append, List.forall_mem_append]

/-! ## Lines and line ends -/

/-- A line with what ends it, which is nothing for the last line of a text. -/
structure Line where
  text : List Char
  ending : List Char

namespace Line

/-- All characters of a line. -/
def chars (line : Line) : List Char :=
  line.text ++ line.ending

end Line

/-- Before the rest, the characters are what ends a line: a carriage return and a line feed
together, or a single line terminator. -/
inductive IsLineEnd : List Char → List Char → Prop
  | pair (rest : List Char) : IsLineEnd ['\r', '\n'] rest
  | single {c : Char} {rest : List Char} (hc : EndsLine c)
      (hpair : c = '\r' → rest.head? ≠ some '\n') : IsLineEnd [c] rest

/-- The text has the lines. -/
inductive HasLines : List Char → List Line → Prop
  | last {text : List Char} (htext : ∀ c ∈ text, ¬ EndsLine c) : HasLines text [⟨text, []⟩]
  | cons {text ending rest : List Char} {lines : List Line} (htext : ∀ c ∈ text, ¬ EndsLine c)
      (hending : IsLineEnd ending rest) (hrest : HasLines rest lines) :
      HasLines (text ++ ending ++ rest) (⟨text, ending⟩ :: lines)

/-- The place between the two texts is inside a line end. -/
def InsideLineEnd (before after : List Char) : Prop :=
  before.getLast? = some '\r' ∧ after.head? = some '\n'

theorem InsideLineEnd.append_left {before after : List Char} (h : InsideLineEnd before after)
    (cs : List Char) : InsideLineEnd (cs ++ before) after :=
  ⟨by rw [List.getLast?_append, h.1, Option.some_or], h.2⟩

namespace IsLineEnd

variable {ending rest : List Char}

theorem ne_nil (h : IsLineEnd ending rest) : ending ≠ [] := by
  cases h <;> exact List.cons_ne_nil _ _

theorem head?_endsLine (h : IsLineEnd ending rest) : ∀ c, ending.head? = some c → EndsLine c := by
  rintro c hhead
  cases h with
  | pair =>
    obtain rfl := Option.some.inj hhead
    exact List.mem_cons_of_mem _ List.mem_cons_self
  | single hc =>
    obtain rfl := Option.some.inj hhead
    exact hc

theorem head?_append_endsLine (h : IsLineEnd ending rest) (tail : List Char) :
    ∀ c, (ending ++ tail).head? = some c → EndsLine c := by
  obtain ⟨a, ending, rfl⟩ := List.exists_cons_of_ne_nil h.ne_nil
  exact h.head?_endsLine

/-- A line end is cut in two only between a carriage return and a line feed. -/
theorem insideLineEnd_of_append {before after : List Char} (h : IsLineEnd (before ++ after) rest)
    (hbefore : before ≠ []) (hafter : after ≠ []) (tail : List Char) :
    InsideLineEnd before (after ++ tail) := by
  generalize hending : before ++ after = ending at h
  cases h with
  | pair =>
    obtain ⟨hnil, -⟩ | ⟨before, rfl, hrest⟩ := List.append_eq_cons_iff.1 hending
    · exact absurd hnil hbefore
    · obtain ⟨rfl, rfl⟩ | ⟨_, -, hnil⟩ := List.append_eq_cons_iff.1 hrest.symm
      · exact ⟨rfl, rfl⟩
      · exact absurd (List.append_eq_nil_iff.1 hnil.symm).2 hafter
  | single =>
    obtain ⟨hnil, -⟩ | ⟨_, -, hnil⟩ := List.append_eq_cons_iff.1 hending
    · exact absurd hnil hbefore
    · exact absurd (List.append_eq_nil_iff.1 hnil.symm).2 hafter

end IsLineEnd

namespace HasLines

variable {cs : List Char} {lines : List Line}

theorem ne_nil (h : HasLines cs lines) : lines ≠ [] := by
  cases h <;> exact List.cons_ne_nil _ _

/-- A character that ends no line goes on with the first line. -/
theorem cons_char {c : Char} {line : Line} (hc : ¬ EndsLine c) (h : HasLines cs (line :: lines)) :
    HasLines (c :: cs) (⟨c :: line.text, line.ending⟩ :: lines) := by
  cases h with
  | last htext => exact .last (List.forall_mem_cons.2 ⟨hc, htext⟩)
  | cons htext hending hrest => exact .cons (List.forall_mem_cons.2 ⟨hc, htext⟩) hending hrest

/-- A line end makes an empty line in front. -/
theorem cons_end {ending : List Char} (hending : IsLineEnd ending cs) (h : HasLines cs lines) :
    HasLines (ending ++ cs) (⟨[], ending⟩ :: lines) :=
  .cons (List.forall_mem_nil _) hending h

end HasLines

/-- Cutting a text yields its lines, where the first one also has the characters that were
read before. -/
theorem exists_hasLines_linesFrom (current cs : List Char) :
    ∃ line lines, HasLines cs (line :: lines) ∧
      linesFrom current cs = (current.reverse ++ line.text) :: lines.map Line.text := by
  fun_induction linesFrom current cs with
  | case1 current => exact ⟨_, [], .last (List.forall_mem_nil _), by simp⟩
  | case2 current c cs hpair ih =>
    obtain ⟨rfl, hhead⟩ := hpair
    obtain ⟨rest, rfl⟩ := List.head?_eq_some_iff.1 hhead
    obtain ⟨line, lines, h, hcut⟩ := ih
    exact ⟨_, _, .cons_end (.pair rest) h, by simpa using hcut⟩
  | case3 current c cs hpair hline ih =>
    obtain ⟨line, lines, h, hcut⟩ := ih
    have hend : IsLineEnd [c] cs :=
      .single (isLineTerminator_iff.1 hline) fun hc hhead => hpair ⟨hc, hhead⟩
    exact ⟨_, _, .cons_end hend h, by simpa using hcut⟩
  | case4 current c cs hpair hline ih =>
    obtain ⟨line, lines, h, hcut⟩ := ih
    rw [isLineTerminator_iff] at hline
    exact ⟨_, _, h.cons_char hline, by simpa using hcut⟩

/-- A text is cut into its lines. -/
theorem exists_hasLines (cs : List Char) :
    ∃ lines, HasLines cs lines ∧ splitLines cs = lines.map Line.text := by
  obtain ⟨line, lines, h, hcut⟩ := exists_hasLines_linesFrom [] cs
  exact ⟨_, h, hcut⟩

/-- Characters that end no line go on with the current one. -/
theorem linesFrom_append {cs : List Char} (h : ∀ c ∈ cs, ¬ EndsLine c) (current rest : List Char) :
    linesFrom current (cs ++ rest) = linesFrom (cs.reverse ++ current) rest := by
  induction cs generalizing current with
  | nil => rfl
  | cons c cs ih =>
    obtain ⟨hc, hcs⟩ := List.forall_mem_cons.1 h
    have hreturn : ¬ (c = '\r' ∧ (cs ++ rest).head? = some '\n') := by
      rintro ⟨rfl, -⟩
      exact hc (by simp [EndsLine])
    rw [List.cons_append, linesFrom, if_neg hreturn, if_neg (mt isLineTerminator_iff.1 hc),
      ih hcs, List.reverse_cons, List.append_assoc, List.singleton_append]

/-- A text without line ends is its only line. -/
theorem splitLines_of_forall {cs : List Char} (h : ∀ c ∈ cs, ¬ EndsLine c) :
    splitLines cs = [cs] := by
  have hcut := linesFrom_append h [] []
  rw [List.append_nil, List.append_nil] at hcut
  rw [splitLines, hcut, linesFrom, List.reverse_reverse]

/-- A line feed ends a line. -/
theorem splitLines_append_lineFeed {cs : List Char} (h : ∀ c ∈ cs, ¬ EndsLine c)
    (rest : List Char) : splitLines (cs ++ '\n' :: rest) = cs :: splitLines rest := by
  rw [splitLines, linesFrom_append h, linesFrom, if_neg fun hpair => absurd hpair.1 (by decide),
    if_pos (by decide), List.append_nil, List.reverse_reverse]
  rfl

/-- A place in a text that is not inside a line end: which lines are before it, how its line
is divided by it, and which lines come after it. -/
structure InLine (before after : List Char) (lines : List Line) (earlier : List Line) (line : Line)
    (left right : List Char) : Prop where
  lines_eq : ∃ later, lines = earlier ++ line :: later
  text_eq : line.text = left ++ right
  before_eq : before = earlier.flatMap Line.chars ++ left
  after_eq : ∃ rest, after = right ++ rest ∧ ∀ c, rest.head? = some c → EndsLine c
  right_no_end : ∀ c ∈ right, ¬ EndsLine c

/-- The same place, with one more line in front of the text. -/
theorem InLine.cons {before after left right : List Char} {lines earlier : List Line} {line : Line}
    (h : InLine before after lines earlier line left right) (first : Line) :
    InLine (first.chars ++ before) after (first :: lines) (first :: earlier) line left right where
  lines_eq := by
    obtain ⟨later, rfl⟩ := h.lines_eq
    exact ⟨later, rfl⟩
  text_eq := h.text_eq
  before_eq := by rw [h.before_eq, List.flatMap_cons, List.append_assoc]
  after_eq := h.after_eq
  right_no_end := h.right_no_end

/-- Every place that is not inside a line end is in a line, or at the end of it. -/
theorem HasLines.exists_inLine {before after : List Char} {lines : List Line}
    (h : HasLines (before ++ after) lines) (hinside : ¬ InsideLineEnd before after) :
    ∃ earlier line left right, InLine before after lines earlier line left right := by
  generalize hcs : before ++ after = cs at h
  induction h generalizing before with
  | last htext =>
    subst hcs
    refine ⟨[], _, before, after, ⟨[], rfl⟩, rfl, rfl, ⟨[], (List.append_nil _).symm, nofun⟩, ?_⟩
    exact fun c hc => htext c (List.mem_append_right before hc)
  | @cons text ending rest lines htext hending hrest ih =>
    have hbehind : ∀ before', before = text ++ ending ++ before' → before' ++ after = rest →
        ∃ earlier line left right,
          InLine before after (⟨text, ending⟩ :: lines) earlier line left right := by
      rintro before' rfl hcs'
      obtain ⟨earlier, line, left, right, h⟩ := ih (fun h => hinside (h.append_left _)) hcs'
      exact ⟨_, line, left, right, h.cons ⟨text, ending⟩⟩
    rw [List.append_assoc] at hcs
    obtain ⟨right, rfl, rfl⟩ | ⟨x, rfl, hx⟩ := List.append_eq_append_iff.1 hcs
    · -- The place is in the first line.
      refine ⟨[], _, before, right, ⟨lines, rfl⟩, rfl, rfl,
        ⟨ending ++ rest, rfl, hending.head?_append_endsLine rest⟩, ?_⟩
      exact fun c hc => htext c (List.mem_append_right before hc)
    · obtain ⟨before', rfl, hrest'⟩ | ⟨ending', rfl, rfl⟩ := List.append_eq_append_iff.1 hx
      · exact hbehind before' (List.append_assoc ..).symm hrest'.symm
      · by_cases hx : x = []
        · subst hx
          exact ⟨[], _, text, [], ⟨lines, rfl⟩, (List.append_nil _).symm, List.append_nil _,
            ⟨ending' ++ rest, rfl, hending.head?_append_endsLine rest⟩, List.forall_mem_nil _⟩
        · by_cases hending' : ending' = []
          · subst hending'
            exact hbehind [] (by simp) rfl
          · -- Only a line end of two characters has a place inside.
            have hcut := hending.insideLineEnd_of_append hx hending' rest
            exact absurd (hcut.append_left text) hinside

end GraphQLSyntax
