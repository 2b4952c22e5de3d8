import GraphQLSyntax.Printing.Executable
import GraphQLSyntax.Proofs.Printing.Value
import GraphQLSyntax.Proofs.Yield.Executable

/-!
# Printed executable documents

What is printed for a well-formed document is written from just the lexemes of the
document.  Tags have no part in it.
-/

namespace GraphQLSyntax

variable {α β : Type} {degree : Degree}

/-! ## Selections -/

/-- A text after a space, or nothing if it is empty. -/
theorem Written.spaced {text : String} {ls : List Lexeme} (h : Written text.toList ls) :
    Written (GraphQLSyntax.enclose " " text "").toList ls := by
  by_cases hempty : text = ""
  · subst hempty
    exact h
  · rw [enclose_of_ne hempty, String.append_empty, String.toList_append]
    exact .blank ' ' rfl h

/-- A head, directives and what comes after them, with spaces between them. -/
theorem Written.withDirectives {head last : String} {ls ms : List Lexeme}
    {directives : List (Directive α)} (hhead : Written head.toList ls)
    (hdirectives : ∀ x ∈ directives, x.WellFormed degree) (hlast : Written last.toList ms) :
    Written (joinParts [head, Directive.printList directives, last] " ").toList
      (ls ++ (spell (directives.flatMap Directive.terminals) ++ ms)) := by
  have hrest := Written.joinParts_cons isSeparator_space hlast (.joinParts_nil " ")
  rw [List.append_nil] at hrest
  exact .joinParts_cons isSeparator_space hhead
    (.joinParts_cons isSeparator_space (Directive.written_list hdirectives) hrest)

theorem written_spread : Written "...".toList [.bare .spread] :=
  Lexeme.SpelledAs.written .spread

theorem FragmentSpread.WellFormed.written {x : FragmentSpread α} (h : x.WellFormed degree) :
    Written x.print.toList (spell x.terminals) := by
  obtain ⟨hname, -, hdirectives⟩ := h
  have hspread := written_spread.concat hname.written (apart_of_all (by decide))
  have hall := hspread.concat (Directive.written_list hdirectives).spaced
    (apart_of_endsWord (endsWord_enclose (by decide) (endsWord_of_all (by decide)) _ _))
  simpa [FragmentSpread.terminals, FragmentSpread.print, Name.print] using hall

/-- An alias and its colon, which ends in a space. -/
theorem Name.written_alias {x : Option (Name α)} (h : ∀ y ∈ x, y.WellFormed) :
    Written (enclose "" ((x.map Name.print).getD "") ": ").toList (spell (Name.aliasTerminals x)) ∧
      ∀ ds, Apart (enclose "" ((x.map Name.print).getD "") ": ").toList ds := by
  cases x with
  | none => exact ⟨.nil, fun ds => apart_of_all rfl⟩
  | some x =>
    have hname := (h x rfl).written
    have heq : enclose "" x.print ": " = x.print ++ ": " := by
      rw [enclose_of_ne (hname.ne_empty (by simp [Name.terminals])), String.empty_append]
    refine ⟨?_, fun ds => apart_of_all ?_⟩
    · simpa [heq, Name.aliasTerminals] using
        hname.concat written_colon (apart_of_endsWord endsWord_colon)
    · simp [heq, isNameRest]

mutual

theorem SelectionSet.WellFormed.written :
    ∀ {x : SelectionSet α}, x.WellFormed degree → Written x.print.toList (spell x.terminals)
  | ⟨selections, _⟩, h => by
    have hselections : ∀ y ∈ selections, Written y.print.toList (spell y.terminals) :=
      Selection.AllWellFormed.written h.2
    simpa [SelectionSet.terminals, SelectionSet.print] using Written.block hselections

theorem Selection.AllWellFormed.written :
    ∀ {xs : List (Selection α)}, Selection.AllWellFormed degree xs →
      ∀ x ∈ xs, Written x.print.toList (spell x.terminals)
  | [], _ => nofun
  | _ :: _, h =>
    List.forall_mem_cons.2 ⟨Selection.WellFormed.written h.1, Selection.AllWellFormed.written h.2⟩

theorem Selection.WellFormed.written :
    ∀ {x : Selection α}, x.WellFormed degree → Written x.print.toList (spell x.terminals)
  | .field _, h => Field.WellFormed.written h
  | .spread _, h => FragmentSpread.WellFormed.written h
  | .inline _, h => InlineFragment.WellFormed.written h

theorem Field.WellFormed.written :
    ∀ {x : Field α}, x.WellFormed degree → Written x.print.toList (spell x.terminals)
  | ⟨aliasName, name, arguments, directives, selectionSet, _⟩,
      ⟨halias, hname, harguments, hdirectives, hset⟩ => by
    obtain ⟨haliasText, hapart⟩ := Name.written_alias halias
    have hnames := haliasText.concat hname.written (hapart _)
    have hhead := hnames.concat (Argument.written_list harguments)
      (apart_of_endsWord (endsWord_enclose (by decide) (endsWord_of_all (by decide)) _ _))
    have hall := hhead.withDirectives hdirectives (SelectionSet.OptionWellFormed.written hset)
    simpa [Field.terminals, Field.print] using hall

theorem SelectionSet.OptionWellFormed.written :
    ∀ {x : Option (SelectionSet α)}, SelectionSet.OptionWellFormed degree x →
      Written (SelectionSet.printOption x).toList (spell (SelectionSet.terminalsOption x))
  | none, _ => .nil
  | some _, h => SelectionSet.WellFormed.written h

theorem InlineFragment.WellFormed.written :
    ∀ {x : InlineFragment α}, x.WellFormed degree → Written x.print.toList (spell x.terminals)
  | ⟨typeCondition, directives, selectionSet, _⟩, ⟨htype, hdirectives, hset⟩ => by
    have hon : Written "on ".toList [.ofName "on"] := written_keyword (by decide) (by decide)
    have hspread : Written "... on ".toList [.bare .spread, .ofName "on"] :=
      written_spread.append (.blank ' ' rfl hon) (apart_of_all (by decide))
    have hhead := hspread.concat htype.written (apart_of_all (by decide))
    have hall := hhead.withDirectives hdirectives (SelectionSet.WellFormed.written hset)
    simpa [InlineFragment.terminals, InlineFragment.print] using hall

end

/-! ## Documents -/

theorem VariableDefinition.WellFormed.written {x : VariableDefinition α}
    (h : x.WellFormed degree) : Written x.print.toList (spell x.terminals) := by
  obtain ⟨hvar, htype, hdefault⟩ := h
  have hall := (hvar.written.colon htype.written).concat hdefault.written
    (apart_of_endsWord (endsWord_enclose (by decide) (endsWord_of_all (by decide)) _ _))
  simpa [VariableDefinition.terminals, VariableDefinition.print] using hall

theorem VariableDefinition.written_list {xs : List (VariableDefinition α)}
    (h : ∀ x ∈ xs, x.WellFormed degree) :
    Written (VariableDefinition.printList xs).toList
      (spell (parenthesizedTerminals VariableDefinition.terminals xs)) :=
  .parenthesized (fun x hx => (h x hx).written) fun x => by
    simp [VariableDefinition.terminals, Variable.terminals]

theorem OperationDefinition.WellFormed.written {x : OperationDefinition α}
    (h : x.WellFormed degree) : Written x.print.toList (spell x.terminals) := by
  obtain ⟨operation, _ | name, definitions, directives, selectionSet, _⟩ := x
  · obtain ⟨hbare, -, -, -, hset⟩ := h
    obtain ⟨rfl, rfl, rfl⟩ := hbare rfl
    exact hset.written
  · obtain ⟨-, hname, hvariables, hdirectives, hset⟩ := h
    have hkeyword : Written operation.keyword.toList [.ofName operation.keyword] :=
      Lexeme.SpelledAs.written (.name _ (by cases operation <;> decide))
    have hhead := (hname name rfl).written.concat (VariableDefinition.written_list hvariables)
      (apart_of_endsWord (endsWord_enclose (by decide) (endsWord_of_all (by decide)) _ _))
    have hall := Written.joinParts_cons isSeparator_space hkeyword
      (hhead.withDirectives hdirectives hset.written)
    simpa [OperationDefinition.terminals, OperationDefinition.print, OperationDefinition.isBare]
      using hall

theorem FragmentDefinition.WellFormed.written {x : FragmentDefinition α}
    (h : x.WellFormed degree) : Written x.print.toList (spell x.terminals) := by
  obtain ⟨hname, -, htype, hdirectives, hset⟩ := h
  have hkeyword : Written "fragment ".toList [.ofName "fragment"] :=
    written_keyword (by decide) (by decide)
  have hon' : Written "on ".toList [.ofName "on"] := written_keyword (by decide) (by decide)
  have hon : Written " on ".toList [.ofName "on"] := .blank ' ' rfl hon'
  have htail := hon.concat htype.written (apart_of_all (by decide))
  have hnamed := hname.written.concat htail
    (apart_of_endsWord (endsWord_concat (by decide) (endsWord_of_all (by decide)) _))
  have hhead := hkeyword.concat hnamed (apart_of_all (by decide))
  have hall := hhead.withDirectives hdirectives hset.written
  simpa [FragmentDefinition.terminals, FragmentDefinition.print, Name.print,
    Name.fragmentTerminals, Name.terminals, String.append_assoc] using hall

theorem Definition.WellFormed.written {x : Definition α} (h : x.WellFormed degree) :
    Written x.print.toList (spell x.terminals) := by
  cases x with
  | operation x => exact OperationDefinition.WellFormed.written h
  | fragment x => exact FragmentDefinition.WellFormed.written h

/-- What is printed for a document is written from the lexemes of the document. -/
theorem Document.WellFormed.written {x : Document α} (h : x.WellFormed degree) :
    Written x.print.toList x.yield := by
  have hdefinitions := Written.joinParts_map isSeparator_emptyLine
    fun y hy => (h.2 y hy).written
  have hall := hdefinitions.concat (t := "\n") (.blank '\n' rfl .nil)
    (apart_of_endsWord (endsWord_of_all (by decide)))
  rwa [List.append_nil] at hall

end GraphQLSyntax
