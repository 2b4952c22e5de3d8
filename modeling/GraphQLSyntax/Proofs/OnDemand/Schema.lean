import GraphQLSyntax.Proofs.OnDemand.Value

/-!
# Schema documents, with tokens read when they are needed

The productions of schema documents, one after the other.
-/

namespace GraphQLSyntax.OnDemand

variable {source : Source} {b limit limit' : Nat}

/-! ## Fields and arguments -/

theorem tracks_argumentDefinition (hb : b ≤ limit) (hb' : b ≤ limit') :
    Tracks source b 1 (Parser.argumentDefinition limit) (Parser.argumentDefinition limit') :=
  .andThen .here fun start => .first tracks_name fun _ =>
    .andThen (.expect (by decide : TokenKind.colon ≠ .eof)) fun _ =>
      .andThen (tracks_typeRef hb hb') fun _ => .andThen (tracks_defaultValue hb hb') fun _ =>
        .mark_pure start

theorem tracks_fieldDefinition (hb : b ≤ limit) (hb' : b ≤ limit') :
    Tracks source b 1 (Parser.fieldDefinition limit) (Parser.fieldDefinition limit') :=
  .andThen .here fun start => .first tracks_name fun _ =>
    .andThen (.parenthesized (tracks_argumentDefinition hb hb') hb hb') fun _ =>
      .andThen (.expect (by decide : TokenKind.colon ≠ .eof)) fun _ =>
        .andThen (tracks_typeRef hb hb') fun _ => .mark_pure start

theorem tracks_inputFieldDefinition (hb : b ≤ limit) (hb' : b ≤ limit') :
    Tracks source b 1 (Parser.inputFieldDefinition limit) (Parser.inputFieldDefinition limit') :=
  .andThen .here fun start => .first tracks_name fun _ =>
    .andThen (.expect (by decide : TokenKind.colon ≠ .eof)) fun _ =>
      .andThen (tracks_typeRef hb hb') fun _ => .andThen (tracks_defaultValue hb hb') fun _ =>
        .mark_pure start

/-! ## Interfaces and members -/

theorem tracks_namedTypesUntilBrace (hb : b ≤ limit) (hb' : b ≤ limit') :
    Tracks source b 1 (Parser.namedTypesUntilBrace limit) (Parser.namedTypesUntilBrace limit') := by
  refine .limited (p := Parser.namedTypesUntilBrace) (q := Parser.namedTypesUntilBrace) hb hb'
    fun c _ limit limit' _ _ ih => ?_
  exact .thenFewer tracks_namedType.round fun _ =>
    .ite_of_test (.sees .braceOpen) (.pure _) (.andThen ih.forget fun _ => .pure _)

theorem tracks_implementsInterfaces (hb : b ≤ limit) (hb' : b ≤ limit') :
    Tracks source b 0 (Parser.implementsInterfaces limit) (Parser.implementsInterfaces limit') :=
  .ite_seesKeyword_advance "implements" (fun _ => (tracks_namedTypesUntilBrace hb hb').fewer)
    (.pure _) (Nat.zero_le _)

theorem tracks_unionMembers (hb : b ≤ limit) (hb' : b ≤ limit') :
    Tracks source b 0 (Parser.unionMembers limit) (Parser.unionMembers limit') := by
  refine .limited (p := Parser.unionMembers) (q := Parser.unionMembers) hb hb'
    fun c _ limit limit' _ _ ih => ?_
  refine .ite_skip (by decide) ?_ (.pure _) (Nat.zero_le 1)
  exact .andThen tracks_namedType.round fun _ => .andThen ih fun _ => .pure _

/-! ## Definitions -/

/-- Between braces, each field has a token less to read. -/
theorem tracks_anyField {β : Type} {item : Parser β} {item' : OnDemand β}
    (hitem : Tracks source b 1 item item') (hb : b ≤ limit) (hb' : b ≤ limit') :
    Tracks source b 1 (Parser.any .braceOpen item .braceClose limit)
      (Parser.any .braceOpen item' .braceClose limit') :=
  .any (by decide) (by decide) hitem.fewer (by omega) (by omega)

theorem tracks_typeDefinition (hb : b ≤ limit) (hb' : b ≤ limit') :
    Tracks source b 1 (Parser.typeDefinition limit) (Parser.typeDefinition limit') :=
  .andThen .here fun start => .first (.expectKeyword "type") fun _ => .andThen tracks_name fun _ =>
    .andThen (tracks_implementsInterfaces hb hb') fun _ =>
      .andThen (tracks_anyField (tracks_fieldDefinition hb hb') hb hb') fun _ => .mark_pure start

theorem tracks_interfaceDefinition (hb : b ≤ limit) (hb' : b ≤ limit') :
    Tracks source b 1 (Parser.interfaceDefinition limit) (Parser.interfaceDefinition limit') :=
  .andThen .here fun start => .first (.expectKeyword "interface") fun _ =>
    .andThen tracks_name fun _ =>
      .andThen (tracks_anyField (tracks_fieldDefinition hb hb') hb hb') fun _ => .mark_pure start

theorem tracks_unionDefinition (hb : b ≤ limit) (hb' : b ≤ limit') :
    Tracks source b 1 (Parser.unionDefinition limit) (Parser.unionDefinition limit') :=
  .andThen .here fun start => .first (.expectKeyword "union") fun _ =>
    .andThen tracks_name fun _ => .andThen (.expect (by decide : TokenKind.equals ≠ .eof)) fun _ =>
      .andThen tracks_namedType fun _ => .andThen (tracks_unionMembers hb hb') fun _ =>
        .mark_pure start

theorem tracks_scalarDefinition :
    Tracks source b 1 Parser.scalarDefinition Parser.scalarDefinition :=
  .andThen .here fun start => .first (.expectKeyword "scalar") fun _ =>
    .andThen tracks_name fun _ => .mark_pure start

theorem tracks_enumValueDefinition :
    Tracks source b 1 Parser.enumValueDefinition Parser.enumValueDefinition :=
  .andThen .here fun start => .first tracks_name fun _ => .mark_pure start

theorem tracks_enumDefinition (hb : b ≤ limit) (hb' : b ≤ limit') :
    Tracks source b 1 (Parser.enumDefinition limit) (Parser.enumDefinition limit') := by
  refine .andThen .here fun start => .first (.expectKeyword "enum") fun _ =>
    .andThen tracks_name fun _ => .andThen (j := 1) ?_ fun _ => .mark_pure start
  exact .many (by decide) (by decide) tracks_enumValueDefinition (by omega) (by omega)

theorem tracks_inputObjectDefinition (hb : b ≤ limit) (hb' : b ≤ limit') :
    Tracks source b 1 (Parser.inputObjectDefinition limit) (Parser.inputObjectDefinition limit') :=
  .andThen .here fun start => .first (.expectKeyword "input") fun _ => .andThen tracks_name fun _ =>
    .andThen (tracks_anyField (tracks_inputFieldDefinition hb hb') hb hb') fun _ =>
      .mark_pure start

theorem tracks_schemaDefinition (hb : b ≤ limit) (hb' : b ≤ limit') :
    Tracks source b 1 (Parser.schemaDefinition limit) (Parser.schemaDefinition limit') := by
  refine .ite_of_test (.seesKeyword "type") ?_ <| .ite_of_test (.seesKeyword "interface") ?_ <|
    .ite_of_test (.seesKeyword "union") ?_ <| .ite_of_test (.seesKeyword "scalar") ?_ <|
      .ite_of_test (.seesKeyword "enum") ?_ <| .ite_of_test (.seesKeyword "input") ?_ .unexpected
  · exact .first (tracks_typeDefinition hb hb') fun _ => .pure _
  · exact .first (tracks_interfaceDefinition hb hb') fun _ => .pure _
  · exact .first (tracks_unionDefinition hb hb') fun _ => .pure _
  · exact .first tracks_scalarDefinition fun _ => .pure _
  · exact .first (tracks_enumDefinition hb hb') fun _ => .pure _
  · exact .first (tracks_inputObjectDefinition hb hb') fun _ => .pure _

end GraphQLSyntax.OnDemand
