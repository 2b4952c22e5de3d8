import GraphQLSyntax.Proofs.Comparison.Executable

/-!
# Schema documents in two runs

The productions of schema documents, one after the other; and then the parsers of both grammars,
which go along with each other if runs do.
-/

namespace GraphQLSyntax.Parser

variable {γ : Type} {c : Comparison γ} {limit : Nat}

/-! ## Fields and arguments -/

theorem alike_argumentDefinition :
    c.Alike ArgumentDefinition.map (argumentDefinition limit)
      (argumentDefinition limit) := by
  refine .here_bind fun _ _ ht => .bind alike_name fun _ _ hname => .bind (.expect .colon)
    fun _ _ _ => .bind alike_typeRef fun _ _ htype => .bind alike_defaultValue
      fun _ _ hdefault => .mark_pure ht fun _ _ hm => ?_
  simp [ArgumentDefinition.map, hname, htype, hdefault, hm]

theorem alike_fieldDefinition :
    c.Alike FieldDefinition.map (fieldDefinition limit) (fieldDefinition limit) := by
  refine .here_bind fun _ _ ht => .bind alike_name fun _ _ hname =>
    .bind (.parenthesized alike_argumentDefinition) fun _ _ harguments =>
      .bind (.expect .colon) fun _ _ _ => .bind alike_typeRef fun _ _ htype =>
        .mark_pure ht fun _ _ hm => ?_
  simp [FieldDefinition.map, hname, harguments, htype, hm]

theorem alike_inputFieldDefinition :
    c.Alike InputFieldDefinition.map (inputFieldDefinition limit)
      (inputFieldDefinition limit) := by
  refine .here_bind fun _ _ ht => .bind alike_name fun _ _ hname => .bind (.expect .colon)
    fun _ _ _ => .bind alike_typeRef fun _ _ htype => .bind alike_defaultValue
      fun _ _ hdefault => .mark_pure ht fun _ _ hm => ?_
  simp [InputFieldDefinition.map, hname, htype, hdefault, hm]

/-! ## Interfaces and members -/

theorem alike_namedTypesUntilBrace :
    c.Alike (fun look => List.map (NamedType.map look)) (namedTypesUntilBrace limit)
      (namedTypesUntilBrace limit) := by
  induction limit with
  | zero => exact .unexpected
  | succ limit ih =>
    refine .bind alike_namedType fun _ _ hx => .ite_of_test (.sees .braceOpen) (.pure ?_) ?_
    · exact List.cons_eq_cons.2 ⟨hx, rfl⟩
    · exact .bind ih fun _ _ hxs => .pure (List.cons_eq_cons.2 ⟨hx, hxs⟩)

theorem alike_implementsInterfaces :
    c.Alike (fun look => List.map (NamedType.map look)) (implementsInterfaces limit)
      (implementsInterfaces limit) :=
  .ite_of_test (.seesKeyword "implements")
    (.bind .advance fun _ _ _ => alike_namedTypesUntilBrace) (.pure rfl)

theorem alike_unionMembers :
    c.Alike (fun look => List.map (NamedType.map look)) (unionMembers limit)
      (unionMembers limit) := by
  induction limit with
  | zero => exact .unexpected
  | succ limit ih =>
    refine .ite_of_test (.skip .pipe) (.bind alike_namedType fun _ _ hx => ?_) (.pure rfl)
    exact .bind ih fun _ _ hxs => .pure (List.cons_eq_cons.2 ⟨hx, hxs⟩)

/-! ## Definitions -/

theorem alike_typeDefinition :
    c.Alike TypeDefinition.map (typeDefinition limit) (typeDefinition limit) := by
  refine .here_bind fun _ _ ht => .bind (.expectKeyword "type") fun _ _ _ =>
    .bind alike_name fun _ _ hname => .bind alike_implementsInterfaces fun _ _ hinterfaces =>
      .bind (.any alike_fieldDefinition) fun _ _ hfields => .mark_pure ht fun _ _ hm => ?_
  simp [TypeDefinition.map, hname, hinterfaces, hfields, hm]

theorem alike_interfaceDefinition :
    c.Alike InterfaceDefinition.map (interfaceDefinition limit)
      (interfaceDefinition limit) := by
  refine .here_bind fun _ _ ht => .bind (.expectKeyword "interface") fun _ _ _ =>
    .bind alike_name fun _ _ hname => .bind (.any alike_fieldDefinition) fun _ _ hfields =>
      .mark_pure ht fun _ _ hm => ?_
  simp [InterfaceDefinition.map, hname, hfields, hm]

theorem alike_unionDefinition :
    c.Alike UnionDefinition.map (unionDefinition limit) (unionDefinition limit) := by
  refine .here_bind fun _ _ ht => .bind (.expectKeyword "union") fun _ _ _ =>
    .bind alike_name fun _ _ hname => .bind (.expect .equals) fun _ _ _ =>
      .bind alike_namedType fun _ _ hfirst => .bind alike_unionMembers fun _ _ hothers =>
        .mark_pure ht fun _ _ hm => ?_
  simp [UnionDefinition.map, hname, hfirst, hothers, hm]

theorem alike_scalarDefinition :
    c.Alike ScalarDefinition.map scalarDefinition scalarDefinition :=
  .here_bind fun _ _ ht => .bind (.expectKeyword "scalar") fun _ _ _ => .bind alike_name
    fun _ _ hname => .mark_pure ht fun _ _ hm => congrArg₂ ScalarDefinition.mk hname hm

theorem alike_enumValueDefinition :
    c.Alike EnumValueDefinition.map enumValueDefinition enumValueDefinition :=
  .here_bind fun _ _ ht => .bind alike_name fun _ _ hname =>
    .mark_pure ht fun _ _ hm => congrArg₂ EnumValueDefinition.mk hname hm

theorem alike_enumDefinition :
    c.Alike EnumDefinition.map (enumDefinition limit) (enumDefinition limit) := by
  refine .here_bind fun _ _ ht => .bind (.expectKeyword "enum") fun _ _ _ =>
    .bind alike_name fun _ _ hname => .bind (.many alike_enumValueDefinition)
      fun _ _ hvalues => .mark_pure ht fun _ _ hm => ?_
  simp [EnumDefinition.map, hname, hvalues, hm]

theorem alike_inputObjectDefinition :
    c.Alike InputObjectDefinition.map (inputObjectDefinition limit)
      (inputObjectDefinition limit) := by
  refine .here_bind fun _ _ ht => .bind (.expectKeyword "input") fun _ _ _ =>
    .bind alike_name fun _ _ hname => .bind (.any alike_inputFieldDefinition)
      fun _ _ hfields => .mark_pure ht fun _ _ hm => ?_
  simp [InputObjectDefinition.map, hname, hfields, hm]

theorem alike_schemaDefinition :
    c.Alike SchemaDefinition.map (schemaDefinition limit) (schemaDefinition limit) := by
  refine .ite_of_test (.seesKeyword "type") ?_ <| .ite_of_test (.seesKeyword "interface") ?_ <|
    .ite_of_test (.seesKeyword "union") ?_ <| .ite_of_test (.seesKeyword "scalar") ?_ <|
      .ite_of_test (.seesKeyword "enum") ?_ <| .ite_of_test (.seesKeyword "input") ?_ .unexpected
  · exact .bind alike_typeDefinition fun _ _ h => .pure (congrArg SchemaDefinition.type h)
  · exact .bind alike_interfaceDefinition fun _ _ h =>
      .pure (congrArg SchemaDefinition.interface h)
  · exact .bind alike_unionDefinition fun _ _ h => .pure (congrArg SchemaDefinition.union h)
  · exact .bind alike_scalarDefinition fun _ _ h => .pure (congrArg SchemaDefinition.scalar h)
  · exact .bind alike_enumDefinition fun _ _ h => .pure (congrArg SchemaDefinition.enum h)
  · exact .bind alike_inputObjectDefinition fun _ _ h =>
      .pure (congrArg SchemaDefinition.inputObject h)

theorem alike_schemaDocument :
    c.Alike SchemaDocument.map (schemaDocument limit) (schemaDocument limit) :=
  .here_bind fun _ _ ht => .bind (.untilEnd alike_schemaDefinition) fun _ _ hdefinitions =>
    .mark_pure ht fun _ _ hm => congrArg₂ SchemaDocument.mk hdefinitions hm

end GraphQLSyntax.Parser

/-! ## Both grammars -/

/-- If parsers that are alike go along with each other on what reading two sources yields, so do the
parsers of the grammars. -/
theorem GraphQLSyntax.Source.runs_runParser {γ : Type} {c : Comparison γ} {source source' : Source}
    {options options' : ParseOptions}
    (hrun : ∀ {β δ : Type} {view : (Tag → γ) → β → δ} {p : Nat → Parser β},
      (∀ n, c.Alike view (p n) (p n)) →
        c.Runs view (Parser.run p source options source.tokens)
          (Parser.run p source' options' source'.tokens))
    (grammar : Grammar) :
    c.Runs Node.map (source.runParser grammar options) (source'.runParser grammar options') := by
  cases grammar with
  | executable =>
    have hdocument := hrun fun n : Nat => (Parser.alike_document : c.Alike _ (Parser.document n) _)
    exact hdocument.map fun _ _ => rfl
  | schema =>
    have hdocument := hrun fun n : Nat =>
      (Parser.alike_schemaDocument : c.Alike _ (Parser.schemaDocument n) _)
    exact hdocument.map fun _ _ => rfl
