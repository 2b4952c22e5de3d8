import GraphQLSyntax.Printing.Executable
import GraphQLSyntax.Printing.Schema

/-!
# Tags are not printed

What is printed for a node does not change with the tags in it.
-/

namespace GraphQLSyntax

variable {α β : Type} (f : α → β)

@[simp] theorem Name.print_map (x : Name α) : (x.map f).print = x.print :=
  rfl

@[simp] theorem NamedType.print_map (x : NamedType α) : (x.map f).print = x.print :=
  rfl

@[simp] theorem Variable.print_map (x : Variable α) : (x.map f).print = x.print :=
  rfl

mutual

@[simp] theorem TypeRef.print_map : ∀ x : TypeRef α, (x.map f).print = x.print
  | .named _ => rfl
  | .list x => ListType.print_map x
  | .nonNull x => NonNullType.print_map x
termination_by structural x => x

theorem ListType.print_map : ∀ x : ListType α, (x.map f).print = x.print
  | ⟨item, _⟩ => by simp only [ListType.map, ListType.print, TypeRef.print_map item]
termination_by structural x => x

theorem NullableTypeRef.print_map : ∀ x : NullableTypeRef α, (x.map f).print = x.print
  | .named _ => rfl
  | .list x => ListType.print_map x
termination_by structural x => x

theorem NonNullType.print_map : ∀ x : NonNullType α, (x.map f).print = x.print
  | ⟨inner, _⟩ => by
    simp only [NonNullType.map, NonNullType.print, NullableTypeRef.print_map inner]
termination_by structural x => x

end

mutual

@[simp] theorem Value.print_map : ∀ x : Value α, (x.map f).print = x.print
  | .var _ | .int _ | .float _ | .string _ | .boolean _ | .enum _ => rfl
  | .list ⟨values, _⟩ => by
    simp only [Value.map, ListValue.map, Value.print, ListValue.print, Value.printAll_map values]
  | .object ⟨fields, _⟩ => by
    simp only [Value.map, ObjectValue.map, Value.print, ObjectValue.print,
      ObjectField.printAll_map fields]

theorem Value.printAll_map :
    ∀ xs : List (Value α), Value.printAll (Value.mapAll f xs) = Value.printAll xs
  | [] => rfl
  | x :: xs => by
    simp only [Value.mapAll, Value.printAll, Value.print_map x, Value.printAll_map xs]

theorem ObjectField.printAll_map :
    ∀ xs : List (ObjectField α),
      ObjectField.printAll (ObjectField.mapAll f xs) = ObjectField.printAll xs
  | [] => rfl
  | ⟨name, value, _⟩ :: xs => by
    simp only [ObjectField.mapAll, ObjectField.printAll, ObjectField.map, ObjectField.print,
      Name.map, Value.print_map value, ObjectField.printAll_map xs]

end

@[simp] theorem Argument.print_map (x : Argument α) : (x.map f).print = x.print := by
  simp [Argument.map, Argument.print, Name.map]

@[simp] theorem Argument.printList_map (xs : List (Argument α)) :
    Argument.printList (xs.map (Argument.map f)) = Argument.printList xs := by
  simp [Argument.printList, Function.comp_def]

@[simp] theorem Directive.print_map (x : Directive α) : (x.map f).print = x.print := by
  simp [Directive.map, Directive.print, Name.map]

@[simp] theorem Directive.printList_map (xs : List (Directive α)) :
    Directive.printList (xs.map (Directive.map f)) = Directive.printList xs := by
  simp [Directive.printList, Function.comp_def]

@[simp] theorem Value.printDefault_map (x : Option (Value α)) :
    Value.printDefault (x.map (Value.map f)) = Value.printDefault x := by
  simp [Value.printDefault, Function.comp_def]

@[simp] theorem FragmentSpread.print_map (x : FragmentSpread α) : (x.map f).print = x.print := by
  simp [FragmentSpread.map, FragmentSpread.print, Name.map]

mutual

@[simp] theorem SelectionSet.print_map : ∀ x : SelectionSet α, (x.map f).print = x.print
  | ⟨selections, _⟩ => by
    simp only [SelectionSet.map, SelectionSet.print, Selection.printAll_map selections]

theorem Selection.printAll_map :
    ∀ xs : List (Selection α), Selection.printAll (Selection.mapAll f xs) = Selection.printAll xs
  | [] => rfl
  | x :: xs => by
    simp only [Selection.mapAll, Selection.printAll, Selection.print_map x,
      Selection.printAll_map xs]

theorem Selection.print_map : ∀ x : Selection α, (x.map f).print = x.print
  | .field x => Field.print_map x
  | .spread x => FragmentSpread.print_map f x
  | .inline x => InlineFragment.print_map x

theorem Field.print_map : ∀ x : Field α, (x.map f).print = x.print
  | ⟨aliasName, name, arguments, directives, selectionSet, _⟩ => by
    have hset := SelectionSet.printOption_map selectionSet
    rw [SelectionSet.mapOption_eq_map] at hset
    simp [Field.map, Field.print, Function.comp_def, hset]

theorem SelectionSet.printOption_map :
    ∀ x : Option (SelectionSet α),
      SelectionSet.printOption (SelectionSet.mapOption f x) = SelectionSet.printOption x
  | none => rfl
  | some x => SelectionSet.print_map x

theorem InlineFragment.print_map : ∀ x : InlineFragment α, (x.map f).print = x.print
  | ⟨typeCondition, directives, selectionSet, _⟩ => by
    simp [InlineFragment.map, InlineFragment.print, SelectionSet.print_map selectionSet]

end

@[simp] theorem VariableDefinition.print_map (x : VariableDefinition α) :
    (x.map f).print = x.print := by
  simp [VariableDefinition.map, VariableDefinition.print]

@[simp] theorem OperationDefinition.print_map (x : OperationDefinition α) :
    (x.map f).print = x.print := by
  have hbare : (x.map f).isBare = x.isBare := by
    simp [OperationDefinition.map, OperationDefinition.isBare]
  rw [OperationDefinition.print, OperationDefinition.print, hbare]
  simp [OperationDefinition.map, VariableDefinition.printList, Function.comp_def]

@[simp] theorem FragmentDefinition.print_map (x : FragmentDefinition α) :
    (x.map f).print = x.print := by
  simp [FragmentDefinition.map, FragmentDefinition.print, Name.map]

@[simp] theorem Definition.print_map (x : Definition α) : (x.map f).print = x.print := by
  cases x <;> simp [Definition.map, Definition.print]

@[simp] theorem Document.print_map (x : Document α) : (x.map f).print = x.print := by
  simp [Document.map, Document.print, Function.comp_def]

@[simp] theorem ArgumentDefinition.print_map (x : ArgumentDefinition α) :
    (x.map f).print = x.print := by
  simp [ArgumentDefinition.map, ArgumentDefinition.print, Name.map]

@[simp] theorem FieldDefinition.print_map (x : FieldDefinition α) :
    (x.map f).print = x.print := by
  simp [FieldDefinition.map, FieldDefinition.print, Name.map, Function.comp_def]

@[simp] theorem InputFieldDefinition.print_map (x : InputFieldDefinition α) :
    (x.map f).print = x.print := by
  simp [InputFieldDefinition.map, InputFieldDefinition.print, Name.map]

@[simp] theorem EnumValueDefinition.print_map (x : EnumValueDefinition α) :
    (x.map f).print = x.print :=
  rfl

@[simp] theorem SchemaDefinition.print_map (x : SchemaDefinition α) :
    (x.map f).print = x.print := by
  cases x <;>
    simp [SchemaDefinition.map, SchemaDefinition.print, TypeDefinition.map, TypeDefinition.print,
      InterfaceDefinition.map, InterfaceDefinition.print, UnionDefinition.map,
      UnionDefinition.print, ScalarDefinition.map, ScalarDefinition.print, EnumDefinition.map,
      EnumDefinition.print, InputObjectDefinition.map, InputObjectDefinition.print, Name.map,
      Function.comp_def]

@[simp] theorem SchemaDocument.print_map (x : SchemaDocument α) : (x.map f).print = x.print := by
  simp [SchemaDocument.map, SchemaDocument.print, Function.comp_def]

end GraphQLSyntax
