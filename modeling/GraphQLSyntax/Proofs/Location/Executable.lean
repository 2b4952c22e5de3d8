import GraphQLSyntax.Proofs.Location.Value
import GraphQLSyntax.Proofs.Recognition.Executable

/-!
# Where operations, fragments and selections lie

The productions of executable documents, one after the other.  An operation without a name
lies over the tokens of its selection set.
-/

namespace GraphQLSyntax.Parser

open Piece

variable {starts : Lexeme → Prop} {limit : Nat}

theorem laysOut_fragmentName : LaysOut starts fragmentName fun x => [part x] :=
  .of_extends fun _ => .ite_seesKeyword .fail laysOut_name.toExtends

/-! ## Selections -/

variable {set : Parser (SelectionSet Tag)}

theorem laysOut_fieldNames :
    LaysOut starts fieldNames fun x => aliasName x.1 ++ [part x.2] :=
  .of_extends fun _ => .part_bind laysOut_name fun _ => .ite_skip (by decide) rfl
    (.part_bind laysOut_name fun _ => .pure rfl) (.pure rfl)

theorem laysOut_selectionSetOption (hset : LaysOut anything set fun x => [part x]) :
    LaysOut starts (selectionSetOption set) fun x => parts x.toList :=
  .of_extends fun _ => .ite_sees
    (.part_bind (hset.mono fun _ _ => trivial) fun _ => .pure rfl) (.pure rfl)

theorem laysOut_field (hset : LaysOut anything set fun x => [part x]) :
    LaysOut starts (field set limit) fun x => [.child (.field x)] := by
  refine .here_bind fun _ => .part_bind laysOut_fieldNames fun _ =>
    .part_bind laysOut_arguments fun _ => .part_bind laysOut_directives fun _ =>
      .part_bind (laysOut_selectionSetOption hset) fun _ =>
        .mark_node (by simp) (fun _ => rfl) fun _ => ⟨?_, rfl, trivial⟩
  simp [Node.pieces]

theorem laysOut_fragment (hset : LaysOut anything set fun x => [part x]) :
    LaysOut starts (fragment set limit) fun x => [part x] := by
  refine .here_bind fun _ => .part_bind (.expect_bare (by decide) rfl) fun _ =>
    .ite_seesKeyword ?_ ?_
  · exact .part_bind .advance_keyword fun _ => .part_bind laysOut_namedType fun _ =>
      .part_bind laysOut_directives fun _ => .part_bind hset fun _ =>
        .mark_part nofun fun _ => ⟨rfl, rfl, trivial⟩
  · exact .part_bind laysOut_fragmentName fun _ => .part_bind laysOut_directives fun _ =>
      .mark_part nofun fun _ => ⟨rfl, rfl, trivial⟩

theorem laysOut_selection (hset : LaysOut anything set fun x => [part x]) :
    LaysOut starts (selection set limit) fun x => [part x] :=
  .of_extends fun _ => .ite_sees (laysOut_fragment hset).toExtends
    (.part_bind (laysOut_field hset) fun _ => .pure rfl)

theorem laysOut_selectionSet {depth : Nat} :
    LaysOut starts (selectionSet limit depth) fun x => [part x] := by
  induction depth generalizing starts with
  | zero => exact .of_extends fun _ => .unexpected
  | succ depth ih =>
    rw [selectionSet_succ]
    exact .here_bind fun _ => .part_bind
      (.many (laysOut_selection ih) ⟨by decide, rfl⟩ ⟨by decide, rfl⟩ fun _ _ => rfl) fun _ =>
        .mark_part nofun fun _ => ⟨rfl, rfl, trivial⟩

/-! ## Definitions -/

theorem laysOut_variableDefinition :
    LaysOut starts (variableDefinition limit) fun x => [part x] :=
  .here_bind fun _ => .part_bind laysOut_var fun _ => .part_bind (.expect_bare (by decide) rfl)
    fun _ => .part_bind laysOut_typeRef fun _ => .part_bind laysOut_defaultValue fun _ =>
      .mark_part nofun fun _ => ⟨rfl, rfl, trivial⟩

theorem laysOut_operationDefinition :
    LaysOut beginsOperation (operationDefinition limit) fun x =>
      [.child (.operationDefinition x)] := by
  refine .here_bind fun start => .ite_sees ?_ (.peek_bind fun token htoken => ?_)
  · exact .part_bind laysOut_selectionSet fun _ =>
      .mark_node nofun (fun _ => rfl) fun _ => ⟨rfl, rfl, fun _ => ⟨rfl, rfl⟩⟩
  · obtain ⟨hbrace | ⟨operation, hkeyword⟩, hne⟩ := htoken
    · exact absurd hbrace hne
    rw [hkeyword, Lexeme.text_ofName, ofKeyword?_keyword]
    refine .part_bind (.advance (f := fun _ => .ofName operation.keyword) ?_ fun _ ht _ => ht)
      fun _ => ?_
    · rintro _ rfl
      simp
    · exact .part_bind laysOut_name fun _ =>
        .part_bind (.parenthesized laysOut_variableDefinition) fun _ =>
          .part_bind laysOut_directives fun _ => .part_bind laysOut_selectionSet fun _ =>
            .mark_node nofun (fun _ => rfl) fun _ => ⟨rfl, rfl, nofun⟩

theorem laysOut_fragmentDefinition :
    LaysOut starts (fragmentDefinition limit) fun x => [.child (.fragmentDefinition x)] :=
  .here_bind fun _ => .part_bind .expectKeyword fun _ => .part_bind laysOut_fragmentName fun _ =>
    .part_bind .expectKeyword fun _ => .part_bind laysOut_namedType fun _ =>
      .part_bind laysOut_directives fun _ => .part_bind laysOut_selectionSet fun _ =>
        .mark_node nofun (fun _ => rfl) fun _ => ⟨rfl, rfl, trivial⟩

theorem laysOut_definition : LaysOut starts (definition limit) fun x => [part x] := by
  refine .of_extends fun _ => .sees_bind fun brace => .seesKeyword_bind fun query =>
    .seesKeyword_bind fun mutation => .ite (fun hany => ?_) fun _ =>
      .ite_seesKeyword (.part_bind laysOut_fragmentDefinition fun _ => .pure rfl) .unexpected
  refine .mono (.part_bind laysOut_operationDefinition fun _ => .pure rfl) ?_
  rintro x ⟨⟨⟨-, rfl⟩, rfl⟩, rfl⟩
  exact beginsOperation_of_test hany

end GraphQLSyntax.Parser
