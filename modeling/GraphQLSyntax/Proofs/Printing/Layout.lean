import GraphQLSyntax.Proofs.Lexical.Written
import GraphQLSyntax.Proofs.Yield.Value
import GraphQLSyntax.Proofs.Recognition.Language
import GraphQLSyntax.Proofs.Text.Lines

/-!
# Laying out written texts

The texts that printing lays out are written from lexemes if their parts are: parts
that are joined by blanks, items in parentheses and blocks of indented lines.  Parts
without text are left out, which does not matter, since no lexeme is written without
text.
-/

namespace GraphQLSyntax

variable {β : Type}

theorem Written.eq_nil {ls : List Lexeme} (h : Written [] ls) : ls = [] := by
  generalize hcs : ([] : List Char) = cs at h
  cases h with
  | nil => rfl
  | blank => cases hcs
  | token hspelled _ _ =>
    obtain ⟨c, cs, rfl, -⟩ := hspelled.exists_cons
    cases hcs

theorem Written.ne_empty {text : String} {ls : List Lexeme} (h : Written text.toList ls)
    (hne : ls ≠ []) : text ≠ "" := by
  rintro rfl
  exact hne h.eq_nil

/-- Two texts, one after the other. -/
theorem Written.concat {s t : String} {ls ms : List Lexeme} (h : Written s.toList ls)
    (h' : Written t.toList ms) (hapart : Apart s.toList t.toList) :
    Written (s ++ t).toList (ls ++ ms) := by
  rw [String.toList_append]
  exact h.append h' hapart

theorem isNameRest_of_isBlank {c : Char} (h : isBlank c = true) : isNameRest c = false :=
  Bool.eq_false_iff.2 fun hrest => absurd h (by simp [(isInk_of_isNameRest hrest).1])

theorem endsWord_of_isBlank {c : Char} {cs : List Char} (h : isBlank c = true) :
    EndsWord (c :: cs) := by
  refine endsWord_cons.2 ⟨isNameRest_of_isBlank h, ?_⟩
  rintro rfl
  exact absurd h (by decide)

/-- A text that begins with what is part of no word. -/
theorem endsWord_of_all {cs : List Char}
    (h : cs.head?.all (fun c => !(isNameRest c || c == '.')) = true) : EndsWord cs := by
  cases cs with
  | nil => exact endsWord_nil
  | cons c cs => simpa [EndsWord] using h

/-- A text that ends in what is part of no word. -/
theorem apart_of_all {cs ds : List Char}
    (h : cs.getLast?.all (fun c => !isNameRest c) = true) : Apart cs ds := by
  intro c hc hrest
  rw [Option.mem_def.1 hc] at h
  simp [hrest] at h

theorem endsWord_concat {s : String} (hne : s.toList ≠ []) (h : EndsWord s.toList) (t : String) :
    EndsWord (s ++ t).toList := by
  rw [String.toList_append]
  exact h.append hne

/-! ## Joined parts -/

theorem joinParts_cons_empty (parts : List String) (separator : String) :
    joinParts ("" :: parts) separator = joinParts parts separator := by
  simp [joinParts]

@[simp] theorem joinParts_singleton (part separator : String) :
    joinParts [part] separator = part := by
  by_cases hpart : part = "" <;> simp [joinParts, hpart]

theorem intercalate_ne_empty {separator part : String} {parts : List String} (hpart : part ≠ "") :
    separator.intercalate (part :: parts) ≠ "" := by
  by_cases hnil : parts = []
  · rwa [hnil, String.intercalate_singleton]
  · rw [String.intercalate_cons_of_ne_nil hnil, String.append_assoc]
    exact fun h => hpart (String.append_eq_empty_iff.1 h).1

theorem joinParts_cons {part : String} (hpart : part ≠ "") (parts : List String)
    (separator : String) :
    (joinParts parts separator = "" ∧ joinParts (part :: parts) separator = part) ∨
      (joinParts parts separator ≠ "" ∧
        joinParts (part :: parts) separator = part ++ separator ++ joinParts parts separator) := by
  have hfilter : (part :: parts).filter (fun part => !part.isEmpty) =
      part :: parts.filter fun part => !part.isEmpty := by
    simp [hpart]
  unfold joinParts
  rw [hfilter]
  by_cases hnil : parts.filter (fun part => !part.isEmpty) = []
  · exact .inl (by simp [hnil])
  · refine .inr ⟨?_, String.intercalate_cons_of_ne_nil hnil⟩
    obtain ⟨first, others, heq⟩ := List.exists_cons_of_ne_nil hnil
    have hmem : first ∈ parts.filter fun part => !part.isEmpty := by
      rw [heq]
      exact List.mem_cons_self
    rw [heq]
    exact intercalate_ne_empty (by simpa using (List.mem_filter.1 hmem).2)

theorem joinParts_cons_ne_empty {part : String} (hpart : part ≠ "") (parts : List String)
    (separator : String) : joinParts (part :: parts) separator ≠ "" := by
  obtain ⟨-, heq⟩ | ⟨-, heq⟩ := joinParts_cons hpart parts separator
  · rwa [heq]
  · rw [heq, String.append_assoc]
    exact fun hempty => hpart (String.append_eq_empty_iff.1 hempty).1

theorem joinParts_concat_empty (parts : List String) (separator : String) :
    joinParts (parts ++ [""]) separator = joinParts parts separator := by
  simp [joinParts, List.filter_append]

/-- All parts but the last one may be joined first. -/
theorem joinParts_concat {last : String} (hlast : last ≠ "") (parts : List String)
    (separator : String) :
    joinParts (parts ++ [last]) separator =
      joinParts [joinParts parts separator, last] separator := by
  have hpair : ∀ {part : String}, part ≠ "" →
      joinParts [part, last] separator = part ++ separator ++ last := by
    intro part hpart
    obtain ⟨hnothing, -⟩ | ⟨-, heq⟩ := joinParts_cons hpart [last] separator
    · rw [joinParts_singleton] at hnothing
      exact absurd hnothing hlast
    · rwa [joinParts_singleton] at heq
  induction parts with
  | nil =>
    have hnothing : joinParts [] separator = "" := rfl
    rw [List.nil_append, hnothing, joinParts_cons_empty]
  | cons part parts ih =>
    by_cases hpart : part = ""
    · rw [hpart, List.cons_append, joinParts_cons_empty, joinParts_cons_empty, ih]
    · obtain ⟨hnothing, -⟩ | ⟨-, hall⟩ := joinParts_cons hpart (parts ++ [last]) separator
      · refine absurd (ih.symm.trans hnothing) ?_
        by_cases hparts : joinParts parts separator = ""
        · rwa [hparts, joinParts_cons_empty, joinParts_singleton]
        · exact joinParts_cons_ne_empty hparts [last] separator
      rw [List.cons_append, hall, ih]
      obtain ⟨hparts, heq⟩ | ⟨hparts, heq⟩ := joinParts_cons hpart parts separator
      · rw [heq, hparts, joinParts_cons_empty, joinParts_singleton, hpair hpart]
      · rw [heq, hpair hparts, hpair (by simp [hpart])]
        simp only [String.append_assoc]

/-- What may stand between parts. -/
structure IsSeparator (separator : String) : Prop where
  ne_nil : separator.toList ≠ []
  all_isBlank : separator.toList.all isBlank = true

theorem IsSeparator.isBlank {separator : String} (h : IsSeparator separator) :
    ∀ c ∈ separator.toList, isBlank c = true :=
  List.all_eq_true.1 h.all_isBlank

/-- One part and then others, with blanks between them if there is text on both sides. -/
theorem Written.joinParts_cons {separator : String} (hseparator : IsSeparator separator)
    {part : String} {parts : List String} {ls ms : List Lexeme} (h : Written part.toList ls)
    (h' : Written (joinParts parts separator).toList ms) :
    Written (joinParts (part :: parts) separator).toList (ls ++ ms) := by
  by_cases hempty : part = ""
  · subst hempty
    obtain rfl := h.eq_nil
    rw [joinParts_cons_empty]
    exact h'
  · obtain ⟨hnothing, heq⟩ | ⟨-, heq⟩ := GraphQLSyntax.joinParts_cons hempty parts separator
    · rw [hnothing] at h'
      rw [heq, h'.eq_nil, List.append_nil]
      exact h
    · rw [heq, String.toList_append, String.toList_append, List.append_assoc]
      refine h.append (.blanks hseparator.isBlank h') (apart_of_endsWord ?_)
      cases hlist : separator.toList with
      | nil => exact absurd hlist hseparator.ne_nil
      | cons c cs => exact endsWord_of_isBlank (hseparator.isBlank c (by simp [hlist]))

theorem Written.joinParts_nil (separator : String) :
    Written (joinParts [] separator).toList [] := by
  simpa [GraphQLSyntax.joinParts] using Written.nil

/-- Items that are printed one by one. -/
theorem Written.joinParts_map {separator : String} (hseparator : IsSeparator separator)
    {print : β → String} {write : β → List Terminal} {xs : List β}
    (h : ∀ x ∈ xs, Written (print x).toList (spell (write x))) :
    Written (joinParts (xs.map print) separator).toList (spell (xs.flatMap write)) := by
  induction xs with
  | nil => exact .joinParts_nil separator
  | cons x xs ih =>
    obtain ⟨hx, hxs⟩ := List.forall_mem_cons.1 h
    rw [List.map_cons, List.flatMap_cons, spell_append]
    exact .joinParts_cons hseparator hx (ih hxs)

theorem isSeparator_comma : IsSeparator ", " :=
  ⟨by decide, by decide⟩

theorem isSeparator_space : IsSeparator " " :=
  ⟨by decide, by decide⟩

theorem isSeparator_line : IsSeparator "\n" :=
  ⟨by decide, by decide⟩

theorem isSeparator_emptyLine : IsSeparator "\n\n" :=
  ⟨by decide, by decide⟩

/-! ## Enclosed texts -/

theorem enclose_empty (before after : String) : enclose before "" after = "" := by
  simp [enclose]

theorem enclose_of_ne {text : String} (h : text ≠ "") (before after : String) :
    enclose before text after = before ++ text ++ after := by
  simp [enclose, h]

theorem endsWord_enclose {before : String} (hne : before.toList ≠ []) (h : EndsWord before.toList)
    (text after : String) : EndsWord (enclose before text after).toList := by
  unfold enclose
  split
  · exact endsWord_nil
  · rw [String.append_assoc]
    exact endsWord_concat hne h _

theorem Written.enclose {before text after : String} {ls ms ns : List Lexeme}
    (h : Written text.toList ms) (hne : ms ≠ []) (hbefore : Written before.toList ls)
    (hafter : Written after.toList ns) (hapart : Apart before.toList (text ++ after).toList)
    (hends : EndsWord after.toList) :
    Written (enclose before text after).toList (ls ++ ms ++ ns) := by
  rw [enclose_of_ne (h.ne_empty hne), String.append_assoc, List.append_assoc]
  exact hbefore.concat (h.concat hafter (apart_of_endsWord hends)) hapart

/-- Items in parentheses, or nothing if there are none. -/
theorem Written.parenthesized {print : β → String} {write : β → List Terminal} {xs : List β}
    (h : ∀ x ∈ xs, Written (print x).toList (spell (write x))) (hne : ∀ x, write x ≠ []) :
    Written (GraphQLSyntax.enclose "(" (joinParts (xs.map print) ", ") ")").toList
      (spell (parenthesizedTerminals write xs)) := by
  have hitems := Written.joinParts_map isSeparator_comma h
  cases xs with
  | nil => exact .nil
  | cons x xs =>
    have hopen : Written "(".toList [.bare .parenOpen] :=
      Lexeme.SpelledAs.written (.punctuator '(' .parenOpen rfl)
    have hclose : Written ")".toList [.bare .parenClose] :=
      Lexeme.SpelledAs.written (.punctuator ')' .parenClose rfl)
    have henclosed := hitems.enclose (by simp [spell, hne x]) hopen hclose
      (apart_of_all (by decide)) (endsWord_of_all (by decide))
    simpa [parenthesizedTerminals] using henclosed

/-! ## Blocks -/

theorem lineFeed_not_mem {cs : List Char} (h : ∀ c ∈ cs, ¬ EndsLine c) : '\n' ∉ cs :=
  fun hmem => h '\n' hmem (by simp [EndsLine])

theorem block_of_ne_empty {items : List String} (h : joinParts items "\n" ≠ "") :
    block items = "\x7b\n  " ++ indentLines (joinParts items "\n") ++ "\n\x7d" := by
  simp [block, h]

theorem block_ne_empty (items : List String) : block items ≠ "" := by
  by_cases h : joinParts items "\n" = ""
  · simp [block, h]
  · simp [block_of_ne_empty h]

/-- What a line feed is replaced by when lines are indented. -/
def indentCharacter (c : Char) : List Char :=
  if c = '\n' then ['\n', ' ', ' '] else [c]

theorem toList_indentLines (text : String) :
    (indentLines text).toList = text.toList.flatMap indentCharacter := by
  rw [indentLines, String.toList_ofList]
  rfl

theorem flatMap_indentCharacter {cs : List Char} (h : '\n' ∉ cs) :
    cs.flatMap indentCharacter = cs := by
  induction cs with
  | nil => rfl
  | cons c cs ih =>
    simp only [List.mem_cons, not_or] at h
    rw [List.flatMap_cons, ih h.2, indentCharacter, if_neg (Ne.symm h.1), List.singleton_append]

theorem indentLines_append (s t : String) :
    indentLines (s ++ t) = indentLines s ++ indentLines t := by
  apply String.toList_injective
  simp only [toList_indentLines, String.toList_append, List.flatMap_append]

theorem indentLines_of_isOneLine {text : String} (h : IsOneLine text) :
    indentLines text = text := by
  apply String.toList_injective
  rw [toList_indentLines, flatMap_indentCharacter (lineFeed_not_mem h)]

theorem EndsWord.indent {cs : List Char} (h : EndsWord cs) :
    EndsWord (cs.flatMap indentCharacter) := by
  cases cs with
  | nil => exact h
  | cons c cs =>
    rw [List.flatMap_cons, indentCharacter]
    split
    · exact endsWord_cons.2 ⟨by decide, by decide⟩
    · exact endsWord_cons.2 (endsWord_cons.1 h)

/-- Indenting lines adds blanks after line feeds, so it changes no lexeme. -/
theorem Written.indent {cs : List Char} {ls : List Lexeme} (h : Written cs ls) :
    Written (cs.flatMap indentCharacter) ls := by
  induction h with
  | nil => exact .nil
  | blank c hc _ ih =>
    rw [List.flatMap_cons, indentCharacter]
    split
    · exact .blanks (List.all_eq_true.1 (by decide)) ih
    · exact .blank c hc ih
  | token hspelled hapart _ ih =>
    rw [List.flatMap_append, flatMap_indentCharacter (lineFeed_not_mem hspelled.not_endsLine)]
    exact .token hspelled (fun d hd hrest => (hapart d hd hrest).indent) ih

/-- Items in braces, each on lines of its own. -/
theorem Written.block {print : β → String} {write : β → List Terminal} {xs : List β}
    (h : ∀ x ∈ xs, Written (print x).toList (spell (write x))) :
    Written (block (xs.map print)).toList
      (.bare .braceOpen :: spell (xs.flatMap write) ++ [.bare .braceClose]) := by
  have hitems := Written.joinParts_map isSeparator_line h
  unfold GraphQLSyntax.block
  dsimp only
  split
  · rename_i hempty
    rw [String.isEmpty_iff.1 hempty] at hitems
    rw [hitems.eq_nil]
    exact .token (.punctuator '\x7b' .braceOpen rfl) (apart_of_all (by decide))
      (Lexeme.SpelledAs.written (.punctuator '\x7d' .braceClose rfl))
  · have hopen : Written "\x7b\n  ".toList [.bare .braceOpen] :=
      .token (.punctuator '\x7b' .braceOpen rfl) (apart_of_all (by decide))
        (.blank '\n' rfl (.blank ' ' rfl (.blank ' ' rfl .nil)))
    have hclose : Written "\n\x7d".toList [.bare .braceClose] :=
      .blank '\n' (by decide) (Lexeme.SpelledAs.written (.punctuator '\x7d' .braceClose rfl))
    have hbody : Written (indentLines (joinParts (xs.map print) "\n")).toList
        (spell (xs.flatMap write)) :=
      (toList_indentLines _).symm ▸ hitems.indent
    exact (hopen.concat hbody (apart_of_all (by decide))).concat hclose
      (apart_of_endsWord (endsWord_of_all (by decide)))

end GraphQLSyntax
