import Mathlib.Logic.Basic
import GraphQLSyntax.Proofs.Comparison.Parser
import GraphQLSyntax.Proofs.Recognition.Value

/-!
# Types, values and directives in two runs

One production after the other: where the tags look the same, the trees do.
-/

namespace GraphQLSyntax.Parser

variable {γ : Type} {c : Comparison γ} {limit : Nat}

theorem alike_name : c.Alike Name.map name name :=
  .here_bind fun _ _ ht => .bind (.expect .name) fun _ _ hlexeme =>
    .mark_pure ht fun _ _ hm => congrArg₂ (fun (x : Lexeme) m => Name.mk x.text m) hlexeme hm

theorem alike_namedType : c.Alike NamedType.map namedType namedType :=
  .here_bind fun _ _ ht => .bind alike_name fun _ _ hname =>
    .mark_pure ht fun _ _ hm => congrArg₂ NamedType.mk hname hm

theorem alike_var : c.Alike Variable.map var var :=
  .here_bind fun _ _ ht => .bind (.expect .dollar) fun _ _ _ => .bind alike_name fun _ _ hname =>
    .mark_pure ht fun _ _ hm => congrArg₂ Variable.mk hname hm

/-! ## Types -/

theorem alike_nullableTypeRef {item : Parser (TypeRef Tag)} {t t' : Token}
    (hitem : c.Alike TypeRef.map item item) (ht : c.Tokens t t') :
    c.Alike NullableTypeRef.map (nullableTypeRef item t.start)
      (nullableTypeRef item t'.start) := by
  refine .ite_of_test (.skip .bracketOpen) ?_ ?_
  · exact .bind hitem fun _ _ htype => .bind (.expect .bracketClose) fun _ _ _ =>
      .mark_pure ht fun _ _ hm => congrArg₂ (fun x m => NullableTypeRef.list ⟨x, m⟩) htype hm
  · exact .bind alike_namedType fun _ _ hname => .pure (congrArg NullableTypeRef.named hname)

theorem map_toTypeRef (f : Tag → γ) (x : NullableTypeRef Tag) :
    x.toTypeRef.map f = (x.map f).toTypeRef := by
  cases x <;> rfl

theorem alike_typeRef : c.Alike TypeRef.map (typeRef limit) (typeRef limit) := by
  induction limit with
  | zero => exact .unexpected
  | succ limit ih =>
    rw [typeRef_succ]
    refine .here_bind fun t t' ht => .bind (alike_nullableTypeRef ih ht) fun x x' hx => ?_
    refine .ite_of_test (.skip .bang) ?_ (.pure ?_)
    · exact .mark_pure ht fun _ _ hm => congrArg₂ (fun x m => TypeRef.nonNull ⟨x, m⟩) hx hm
    · rw [map_toTypeRef, map_toTypeRef, hx]

/-! ## Values -/

theorem alike_literal : c.Alike Literal.map literal literal :=
  .here_bind fun _ _ ht => .bind .advance fun _ _ hlexeme =>
    .mark_pure ht fun _ _ hm => congrArg₂ (fun (x : Lexeme) m => Literal.mk x.text m) hlexeme hm

theorem alike_namedValue : c.Alike Value.map namedValue namedValue := by
  rw [namedValue_eq]
  refine .bind alike_literal fun x x' hx => .pure ?_
  rw [map_valueOfName, map_valueOfName]
  exact congrArg (fun x : Literal γ => valueOfName x.text x.tag) hx

variable {value : Parser (Value Tag)}

theorem alike_objectField (hvalue : c.Alike Value.map value value) (taken : List String) :
    c.Alike ObjectField.map (objectField value taken) (objectField value taken) := by
  refine .here_bind fun t t' ht => .bind .peek fun token token' htoken => ?_
  rw [htoken]
  refine .ite ?_ ?_
  · rw [fail_bind]
    exact .fail _
  · refine .bind alike_name fun _ _ hname => .bind (.expect .colon) fun _ _ _ =>
      .bind hvalue fun _ _ hvalue => .mark_pure ht fun _ _ hm => ?_
    simp [ObjectField.map, hname, hvalue, hm]

theorem value_name_map (f : Tag → γ) (x : ObjectField Tag) :
    (x.map f).name.value = x.name.value := by
  cases x
  rfl

theorem alike_objectFields (hvalue : c.Alike Value.map value value)
    (taken : List String) :
    c.Alike (fun look => List.map (ObjectField.map look)) (objectFields value taken limit)
      (objectFields value taken limit) := by
  induction limit generalizing taken with
  | zero => exact .unexpected
  | succ limit ih =>
    refine .ite_of_test (.skip .braceClose) (.pure rfl) ?_
    refine .bind (alike_objectField hvalue taken) fun x x' hx => ?_
    have hname : x.name.value = x'.name.value := by
      rw [← value_name_map c.left x, hx, value_name_map c.right x']
    rw [hname]
    exact .bind (ih _) fun xs xs' hxs => .pure (List.cons_eq_cons.2 ⟨hx, hxs⟩)

theorem alike_value (const : Bool) :
    c.Alike Value.map (Parser.value const limit) (Parser.value const limit) := by
  induction limit with
  | zero => exact .unexpected
  | succ limit ih =>
    rw [value_succ]
    refine .here_bind fun t t' ht => .bind .peek fun token token' htoken => ?_
    have hkind : token.kind = token'.kind := congrArg Lexeme.kind htoken
    rw [hkind]
    cases token'.kind with
    | bracketOpen =>
      refine .bind (.any ih) fun _ _ hvalues => .mark_pure ht fun _ _ hm => ?_
      simp [Value.map, ListValue.map, hvalues, hm]
    | braceOpen =>
      refine .bind (.expect .braceOpen) fun _ _ _ => .bind (alike_objectFields ih [])
        fun _ _ hfields => .mark_pure ht fun _ _ hm => ?_
      simp [Value.map, ObjectValue.map, hfields, hm]
    | int => exact .bind alike_literal fun _ _ h => .pure (congrArg Value.int h)
    | float => exact .bind alike_literal fun _ _ h => .pure (congrArg Value.float h)
    | string => exact .bind alike_literal fun _ _ h => .pure (congrArg Value.string h)
    | name => exact alike_namedValue
    | dollar =>
      exact .ite .unexpected (.bind alike_var fun _ _ h => .pure (congrArg Value.var h))
    | _ => exact .unexpected

/-! ## Default values, arguments and directives -/

theorem alike_defaultValue :
    c.Alike (fun look => Option.map (Value.map look)) (defaultValue limit) (defaultValue limit) :=
  .ite_of_test (.skip .equals)
    (.bind (alike_value true) fun _ _ h => .pure (congrArg some h)) (.pure rfl)

theorem alike_argument : c.Alike Argument.map (argument limit) (argument limit) :=
  .here_bind fun _ _ ht => .bind alike_name fun _ _ hname => .bind (.expect .colon) fun _ _ _ =>
    .bind (alike_value false) fun _ _ hvalue =>
      .mark_pure ht fun _ _ hm => by simp [Argument.map, hname, hvalue, hm]

theorem alike_arguments :
    c.Alike (fun look => List.map (Argument.map look)) (arguments limit) (arguments limit) :=
  .parenthesized alike_argument

theorem alike_directive : c.Alike Directive.map (directive limit) (directive limit) :=
  .here_bind fun _ _ ht => .bind (.expect .atSign) fun _ _ _ => .bind alike_name fun _ _ hname =>
    .bind alike_arguments fun _ _ harguments =>
      .mark_pure ht fun _ _ hm => by simp [Directive.map, hname, harguments, hm]

theorem alike_directives :
    c.Alike (fun look => List.map (Directive.map look)) (directives limit) (directives limit) :=
  .whileSees alike_directive

end GraphQLSyntax.Parser
