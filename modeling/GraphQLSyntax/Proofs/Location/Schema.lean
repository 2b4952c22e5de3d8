import GraphQLSyntax.Proofs.Location.Value
import GraphQLSyntax.Grammar.Schema

/-!
# Where definitions of schemas lie

The productions of schema documents, one after the other.
-/

namespace GraphQLSyntax.Parser

open Piece

variable {starts : Lexeme → Prop} {limit : Nat}

/-! ## Fields and arguments -/

theorem laysOut_argumentDefinition :
    LaysOut starts (argumentDefinition limit) fun x => [part x] :=
  .here_bind fun _ => .part_bind laysOut_name fun _ => .part_bind (.expect_bare (by decide) rfl)
    fun _ => .part_bind laysOut_typeRef fun _ => .part_bind laysOut_defaultValue fun _ =>
      .mark_part nofun fun _ => ⟨rfl, rfl, trivial⟩

theorem laysOut_fieldDefinition : LaysOut starts (fieldDefinition limit) fun x => [part x] := by
  refine .here_bind fun _ => .part_bind laysOut_name fun _ =>
    .part_bind (.parenthesized laysOut_argumentDefinition) fun _ =>
      .part_bind (.expect_bare (by decide) rfl) fun _ => .part_bind laysOut_typeRef fun _ =>
        .mark_part (by simp) fun _ => ⟨?_, rfl, trivial⟩
  simp [Part.toNode, Node.pieces]

theorem laysOut_inputFieldDefinition :
    LaysOut starts (inputFieldDefinition limit) fun x => [part x] :=
  .here_bind fun _ => .part_bind laysOut_name fun _ => .part_bind (.expect_bare (by decide) rfl)
    fun _ => .part_bind laysOut_typeRef fun _ => .part_bind laysOut_defaultValue fun _ =>
      .mark_part nofun fun _ => ⟨rfl, rfl, trivial⟩

/-! ## Interfaces and members -/

theorem laysOut_namedTypesUntilBrace : LaysOut starts (namedTypesUntilBrace limit) parts := by
  induction limit generalizing starts with
  | zero => exact .of_extends fun _ => .unexpected
  | succ limit ih =>
    exact .of_extends fun _ => .part_bind laysOut_namedType fun _ =>
      .ite_sees (.pure rfl) (.part_bind ih fun _ => .pure rfl)

theorem laysOut_implementsInterfaces :
    LaysOut starts (implementsInterfaces limit) interfaces := by
  refine .of_extends fun _ => .ite_seesKeyword (.part_bind .advance_keyword fun _ => ?_) (.pure rfl)
  -- At least one interface comes after the keyword, so that this is written.
  cases limit with
  | zero => exact .unexpected
  | succ limit =>
    exact .part_bind laysOut_namedType fun _ => .ite_sees (.pure rfl)
      (.part_bind laysOut_namedTypesUntilBrace fun _ => .pure rfl)

theorem laysOut_unionMembers : LaysOut starts (unionMembers limit) (each .pipe) := by
  induction limit generalizing starts with
  | zero => exact .of_extends fun _ => .unexpected
  | succ limit ih =>
    exact .of_extends fun _ => .ite_skip (by decide) rfl
      (.part_bind laysOut_namedType fun _ => .part_bind ih fun _ => .pure rfl) (.pure rfl)

/-! ## Definitions -/

theorem laysOut_typeDefinition :
    LaysOut starts (typeDefinition limit) fun x => [.child (.typeDefinition x)] :=
  .here_bind fun _ => .part_bind .expectKeyword fun _ => .part_bind laysOut_name fun _ =>
    .part_bind laysOut_implementsInterfaces fun _ =>
      .part_bind (.any laysOut_fieldDefinition ⟨by decide, rfl⟩ ⟨by decide, rfl⟩) fun _ =>
        .mark_node nofun (fun _ => rfl) fun _ => ⟨rfl, rfl, trivial⟩

theorem laysOut_interfaceDefinition :
    LaysOut starts (interfaceDefinition limit) fun x => [.child (.interfaceDefinition x)] :=
  .here_bind fun _ => .part_bind .expectKeyword fun _ => .part_bind laysOut_name fun _ =>
    .part_bind (.any laysOut_fieldDefinition ⟨by decide, rfl⟩ ⟨by decide, rfl⟩) fun _ =>
      .mark_node nofun (fun _ => rfl) fun _ => ⟨rfl, rfl, trivial⟩

theorem laysOut_unionDefinition :
    LaysOut starts (unionDefinition limit) fun x => [.child (.unionDefinition x)] :=
  .here_bind fun _ => .part_bind .expectKeyword fun _ => .part_bind laysOut_name fun _ =>
    .part_bind (.expect_bare (by decide) rfl) fun _ => .part_bind laysOut_namedType fun _ =>
      .part_bind laysOut_unionMembers fun _ =>
        .mark_node nofun (fun _ => rfl) fun _ => ⟨rfl, rfl, trivial⟩

theorem laysOut_scalarDefinition :
    LaysOut starts scalarDefinition fun x => [.child (.scalarDefinition x)] :=
  .here_bind fun _ => .part_bind .expectKeyword fun _ => .part_bind laysOut_name fun _ =>
    .mark_node nofun (fun _ => rfl) fun _ => ⟨rfl, rfl, trivial⟩

theorem laysOut_enumValueDefinition :
    LaysOut starts enumValueDefinition fun x => [part x] :=
  .here_bind fun _ => .part_bind laysOut_name fun _ =>
    .mark_part nofun fun _ => ⟨rfl, rfl, trivial⟩

theorem laysOut_enumDefinition :
    LaysOut starts (enumDefinition limit) fun x => [.child (.enumDefinition x)] :=
  .here_bind fun _ => .part_bind .expectKeyword fun _ => .part_bind laysOut_name fun _ =>
    .part_bind (.many laysOut_enumValueDefinition ⟨by decide, rfl⟩ ⟨by decide, rfl⟩
      fun _ _ => rfl) fun _ => .mark_node nofun (fun _ => rfl) fun _ => ⟨rfl, rfl, trivial⟩

theorem laysOut_inputObjectDefinition :
    LaysOut starts (inputObjectDefinition limit) fun x => [.child (.inputObjectDefinition x)] :=
  .here_bind fun _ => .part_bind .expectKeyword fun _ => .part_bind laysOut_name fun _ =>
    .part_bind (.any laysOut_inputFieldDefinition ⟨by decide, rfl⟩ ⟨by decide, rfl⟩) fun _ =>
      .mark_node nofun (fun _ => rfl) fun _ => ⟨rfl, rfl, trivial⟩

theorem laysOut_schemaDefinition :
    LaysOut starts (schemaDefinition limit) fun x => [part x] :=
  .of_extends fun _ =>
    .ite_seesKeyword (.part_bind laysOut_typeDefinition fun _ => .pure rfl) <|
    .ite_seesKeyword (.part_bind laysOut_interfaceDefinition fun _ => .pure rfl) <|
    .ite_seesKeyword (.part_bind laysOut_unionDefinition fun _ => .pure rfl) <|
    .ite_seesKeyword (.part_bind laysOut_scalarDefinition fun _ => .pure rfl) <|
    .ite_seesKeyword (.part_bind laysOut_enumDefinition fun _ => .pure rfl) <|
    .ite_seesKeyword (.part_bind laysOut_inputObjectDefinition fun _ => .pure rfl) .unexpected

end GraphQLSyntax.Parser
