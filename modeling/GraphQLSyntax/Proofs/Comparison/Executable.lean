import GraphQLSyntax.Proofs.Comparison.Value
import GraphQLSyntax.Proofs.Recognition.Executable

/-!
# Executable documents in two runs

The productions of operations, fragments and selections, one after the other.
-/

namespace GraphQLSyntax.Parser

variable {γ : Type} {c : Comparison γ} {limit : Nat}

theorem alike_fragmentName : c.Alike Name.map fragmentName fragmentName :=
  .ite_of_test (.seesKeyword "on") (.fail _) alike_name

/-! ## Selections -/

variable {set : Parser (SelectionSet Tag)}

/-- The names that a field begins with, by what their tags look like. -/
def lookAtNames (look : Tag → γ) (x : Option (Name Tag) × Name Tag) :
    Option (Name γ) × Name γ :=
  (x.1.map (Name.map look), x.2.map look)

theorem alike_fieldNames : c.Alike lookAtNames fieldNames fieldNames := by
  refine .bind alike_name fun first first' hfirst => .ite_of_test (.skip .colon) ?_ (.pure ?_)
  · exact .bind alike_name fun _ _ hname => .pure (congrArg₂ (some · , ·) hfirst hname)
  · exact congrArg (none, ·) hfirst

theorem alike_selectionSetOption (hset : c.Alike SelectionSet.map set set) :
    c.Alike (fun look => Option.map (SelectionSet.map look)) (selectionSetOption set)
      (selectionSetOption set) :=
  .ite_of_test (.sees .braceOpen) (.bind hset fun _ _ h => .pure (congrArg some h)) (.pure rfl)

theorem alike_field (hset : c.Alike SelectionSet.map set set) :
    c.Alike Field.map (field set limit) (field set limit) := by
  refine .here_bind fun _ _ ht => .bind alike_fieldNames fun _ _ hnames =>
    .bind alike_arguments fun _ _ harguments => .bind alike_directives fun _ _ hdirectives =>
      .bind (alike_selectionSetOption hset) fun _ _ hset => .mark_pure ht fun _ _ hm => ?_
  obtain ⟨halias, hname⟩ := Prod.mk.inj hnames
  simp [Field.map, halias, hname, harguments, hdirectives, hset, hm]

theorem alike_fragment (hset : c.Alike SelectionSet.map set set) :
    c.Alike Selection.map (fragment set limit) (fragment set limit) := by
  refine .here_bind fun _ _ ht => .bind (.expect .spread) fun _ _ _ =>
    .ite_of_test (.seesKeyword "on") ?_ ?_
  · refine .bind .advance fun _ _ _ => .bind alike_namedType fun _ _ htype =>
      .bind alike_directives fun _ _ hdirectives => .bind hset fun _ _ hset =>
        .mark_pure ht fun _ _ hm => ?_
    simp [Selection.map, InlineFragment.map, htype, hdirectives, hset, hm]
  · refine .bind alike_fragmentName fun _ _ hname => .bind alike_directives fun _ _ hdirectives =>
      .mark_pure ht fun _ _ hm => ?_
    simp [Selection.map, FragmentSpread.map, hname, hdirectives, hm]

theorem alike_selection (hset : c.Alike SelectionSet.map set set) :
    c.Alike Selection.map (selection set limit) (selection set limit) := by
  refine .ite_of_test (.sees .spread) (alike_fragment hset) ?_
  refine .bind (alike_field hset) fun _ _ hfield => .pure ?_
  simp [Selection.map, hfield]

theorem alike_selectionSet {depth : Nat} :
    c.Alike SelectionSet.map (selectionSet limit depth) (selectionSet limit depth) := by
  induction depth with
  | zero => exact .unexpected
  | succ depth ih =>
    rw [selectionSet_succ]
    refine .here_bind fun _ _ ht => .bind (.many (alike_selection ih)) fun _ _ hselections =>
      .mark_pure ht fun _ _ hm => ?_
    simp [SelectionSet.map, hselections, hm]

/-! ## Definitions -/

theorem alike_variableDefinition :
    c.Alike VariableDefinition.map (variableDefinition limit)
      (variableDefinition limit) := by
  refine .here_bind fun _ _ ht => .bind alike_var fun _ _ hvar => .bind (.expect .colon)
    fun _ _ _ => .bind alike_typeRef fun _ _ htype => .bind alike_defaultValue
      fun _ _ hdefault => .mark_pure ht fun _ _ hm => ?_
  simp [VariableDefinition.map, hvar, htype, hdefault, hm]

theorem alike_operationDefinition :
    c.Alike OperationDefinition.map (operationDefinition limit)
      (operationDefinition limit) := by
  refine .here_bind fun _ _ ht => .ite_of_test (.sees .braceOpen) ?_ ?_
  · refine .bind alike_selectionSet fun _ _ hset => .mark_pure ht fun _ _ hm => ?_
    simp [OperationDefinition.map, hset, hm]
  · refine .bind .peek fun token token' htoken => ?_
    rw [htoken]
    cases OperationType.ofKeyword? token'.lexeme.text with
    | none => exact .unexpected
    | some operation =>
      refine .bind .advance fun _ _ _ => .bind alike_name fun _ _ hname =>
        .bind (.parenthesized alike_variableDefinition) fun _ _ hvariables =>
          .bind alike_directives fun _ _ hdirectives => .bind alike_selectionSet
            fun _ _ hset => .mark_pure ht fun _ _ hm => ?_
      simp [OperationDefinition.map, hname, hvariables, hdirectives, hset, hm]

theorem alike_fragmentDefinition :
    c.Alike FragmentDefinition.map (fragmentDefinition limit)
      (fragmentDefinition limit) := by
  refine .here_bind fun _ _ ht => .bind (.expectKeyword "fragment") fun _ _ _ =>
    .bind alike_fragmentName fun _ _ hname => .bind (.expectKeyword "on") fun _ _ _ =>
      .bind alike_namedType fun _ _ htype => .bind alike_directives fun _ _ hdirectives =>
        .bind alike_selectionSet fun _ _ hset => .mark_pure ht fun _ _ hm => ?_
  simp [FragmentDefinition.map, hname, htype, hdirectives, hset, hm]

theorem alike_definition :
    c.Alike Definition.map (definition limit) (definition limit) := by
  refine .bind (.sees .braceOpen) fun b b' hb => .bind (.seesKeyword "query") fun c c' hc =>
    .bind (.seesKeyword "mutation") fun d d' hd => ?_
  obtain ⟨rfl, rfl, rfl⟩ : b = b' ∧ c = c' ∧ d = d' := ⟨hb, hc, hd⟩
  refine .ite ?_ (.ite_of_test (.seesKeyword "fragment") ?_ .unexpected)
  · exact .bind alike_operationDefinition fun _ _ h => .pure (congrArg Definition.operation h)
  · exact .bind alike_fragmentDefinition fun _ _ h => .pure (congrArg Definition.fragment h)

theorem alike_document : c.Alike Document.map (document limit) (document limit) :=
  .here_bind fun _ _ ht => .bind (.untilEnd alike_definition) fun _ _ hdefinitions =>
    .mark_pure ht fun _ _ hm => congrArg₂ Document.mk hdefinitions hm

end GraphQLSyntax.Parser
