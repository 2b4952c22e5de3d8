import GraphQLSyntax.Proofs.Tree.Tags
import GraphQLSyntax.Proofs.Yield.Executable
import GraphQLSyntax.Proofs.Yield.Schema

/-!
# What nodes are written with

A node of any kind is written with lexemes of its own and with its children, which come in
the order that they have in the tree.  Only an operation without a name may hold children
that are not written, since all that is written of it is its selection set.
-/

namespace GraphQLSyntax

variable {α β : Type}

namespace Node

/-- The terminals of a node.  Those of an object field are those it has if no field comes
before it. -/
def terminals : Node α → List Terminal
  | .name x => x.terminals
  | .document x => x.terminals
  | .operationDefinition x => x.terminals
  | .variableDefinition x => x.terminals
  | .variableReference x => x.terminals
  | .selectionSet x => x.terminals
  | .field x => x.terminals
  | .argument x => x.terminals
  | .fragmentSpread x => x.terminals
  | .inlineFragment x => x.terminals
  | .fragmentDefinition x => x.terminals
  | .intValue x => x.terminals .int
  | .floatValue x => x.terminals .float
  | .stringValue x => x.terminals .string
  | .booleanValue x => x.terminals
  | .enumValue x => x.terminals .name
  | .listValue x => x.terminals
  | .objectValue x => x.terminals
  | .objectField x => x.terminals []
  | .directive x => x.terminals
  | .namedType x => x.terminals
  | .listType x => x.terminals
  | .nonNullType x => x.terminals
  | .schemaDocument x => x.terminals
  | .typeDefinition x => x.terminals
  | .fieldDefinition x => x.terminals
  | .argumentDefinition x => x.terminals
  | .interfaceDefinition x => x.terminals
  | .unionDefinition x => x.terminals
  | .scalarDefinition x => x.terminals
  | .enumDefinition x => x.terminals
  | .enumValueDefinition x => x.terminals
  | .inputObjectDefinition x => x.terminals
  | .inputFieldDefinition x => x.terminals

/-- The lexemes that a node is written with, in order. -/
def yield (n : Node α) : List Lexeme :=
  n.terminals.map Terminal.lexeme

end Node

/-! ## Pieces -/

/-- What a node is written with, as far as the node itself says: a lexeme or a child. -/
inductive Piece (α : Type)
  | lexeme (l : Lexeme)
  | child (n : Node α)

namespace Piece

/-- A punctuator. -/
def bare (kind : TokenKind) : Piece α :=
  .lexeme (.bare kind)

/-- A name that is no child. -/
def word (text : String) : Piece α :=
  .lexeme (.ofName text)

/-- The lexemes of a piece. -/
def yield : Piece α → List Lexeme
  | .lexeme l => [l]
  | .child n => n.yield

/-- The child that a piece is, if it is one. -/
def child? : Piece α → Option (Node α)
  | .lexeme _ => none
  | .child n => some n

section

variable {γ : Type → Type} [∀ α, SizeOf (γ α)] [Part γ]

/-- A child. -/
def part (x : γ α) : Piece α :=
  .child (Part.toNode x)

/-- Children one after the other. -/
def parts (xs : List (γ α)) : List (Piece α) :=
  xs.map part

/-- Children between two punctuators. -/
def enclosed (opening close : TokenKind) (xs : List (γ α)) : List (Piece α) :=
  bare opening :: parts xs ++ [bare close]

/-- Children in parentheses, or nothing if there are none. -/
def parenthesized (xs : List (γ α)) : List (Piece α) :=
  if xs.isEmpty then [] else enclosed .parenOpen .parenClose xs

/-- Children each of which comes after a punctuator. -/
def each (kind : TokenKind) (xs : List (γ α)) : List (Piece α) :=
  xs.flatMap fun x => [bare kind, part x]

/-- A child after a punctuator, or nothing if there is none. -/
def optional (kind : TokenKind) (x : Option (γ α)) : List (Piece α) :=
  each kind x.toList

end

/-- An alias and its colon, or nothing if there is none. -/
def aliasName (x : Option (Name α)) : List (Piece α) :=
  x.elim [] fun name => [part name, bare .colon]

/-- Interfaces after a keyword, or nothing if there are none. -/
def interfaces (xs : List (NamedType α)) : List (Piece α) :=
  if xs.isEmpty then [] else word "implements" :: parts xs

/-- The members of a union, with bars between them. -/
def members : List (NamedType α) → List (Piece α)
  | [] => []
  | x :: xs => part x :: each .pipe xs

end Piece

namespace Node

open Piece

/-- The pieces that a node is written with, in order. -/
def pieces : Node α → List (Piece α)
  | .name x => [word x.value]
  | .document x => parts x.definitions
  | .operationDefinition x =>
    match x.name with
    | none => [part x.selectionSet]
    | some y =>
      word x.operation.keyword :: part y :: parenthesized x.variableDefinitions ++
        parts x.directives ++ [part x.selectionSet]
  | .variableDefinition x =>
    part x.var :: bare .colon :: part x.type :: optional .equals x.defaultValue
  | .variableReference x => [bare .dollar, part x.name]
  | .selectionSet x => enclosed .braceOpen .braceClose x.selections
  | .field x =>
    aliasName x.aliasName ++ part x.name :: parenthesized x.arguments ++ parts x.directives ++
      parts x.selectionSet.toList
  | .argument x => [part x.name, bare .colon, part x.value]
  | .fragmentSpread x => bare .spread :: part x.name :: parts x.directives
  | .inlineFragment x =>
    bare .spread :: word "on" :: part x.typeCondition :: parts x.directives ++
      [part x.selectionSet]
  | .fragmentDefinition x =>
    word "fragment" :: part x.name :: word "on" :: part x.typeCondition ::
      parts x.directives ++ [part x.selectionSet]
  | .intValue x => [.lexeme ⟨.int, some x.text⟩]
  | .floatValue x => [.lexeme ⟨.float, some x.text⟩]
  | .stringValue x => [.lexeme ⟨.string, some x.text⟩]
  | .booleanValue x => [word (if x.value then "true" else "false")]
  | .enumValue x => [word x.text]
  | .listValue x => enclosed .bracketOpen .bracketClose x.values
  | .objectValue x => enclosed .braceOpen .braceClose x.fields
  | .objectField x => [part x.name, bare .colon, part x.value]
  | .directive x => bare .atSign :: part x.name :: parenthesized x.arguments
  | .namedType x => [part x.name]
  | .listType x => [bare .bracketOpen, part x.item, bare .bracketClose]
  | .nonNullType x => [part x.inner, bare .bang]
  | .schemaDocument x => parts x.definitions
  | .typeDefinition x =>
    word "type" :: part x.name :: interfaces x.interfaces ++
      enclosed .braceOpen .braceClose x.fields
  | .fieldDefinition x =>
    part x.name :: parenthesized x.arguments ++ [bare .colon, part x.type]
  | .argumentDefinition x =>
    part x.name :: bare .colon :: part x.type :: optional .equals x.defaultValue
  | .interfaceDefinition x =>
    word "interface" :: part x.name :: enclosed .braceOpen .braceClose x.fields
  | .unionDefinition x => word "union" :: part x.name :: bare .equals :: members x.types
  | .scalarDefinition x => [word "scalar", part x.name]
  | .enumDefinition x =>
    word "enum" :: part x.name :: enclosed .braceOpen .braceClose x.values
  | .enumValueDefinition x => [part x.name]
  | .inputObjectDefinition x =>
    word "input" :: part x.name :: enclosed .braceOpen .braceClose x.fields
  | .inputFieldDefinition x =>
    part x.name :: bare .colon :: part x.type :: optional .equals x.defaultValue

/-- All that the node holds is written: an operation without a name has nothing but its
selection set. -/
def IsWritten : Node α → Prop
  | .operationDefinition x => x.name = none → x.variableDefinitions = [] ∧ x.directives = []
  | _ => True

end Node

namespace Piece

section

variable {γ : Type → Type} [∀ α, SizeOf (γ α)] [Part γ]

@[simp] theorem child?_bare (kind : TokenKind) : (bare kind : Piece α).child? = none := rfl

@[simp] theorem child?_lexeme (l : Lexeme) : (lexeme l : Piece α).child? = none := rfl

@[simp] theorem child?_word (text : String) : (word text : Piece α).child? = none := rfl

@[simp] theorem child?_part (x : γ α) : (part x).child? = some (Part.toNode x) := rfl

@[simp] theorem filterMap_child?_parts (xs : List (γ α)) :
    (parts xs).filterMap child? = xs.map Part.toNode := by
  simp [parts, List.filterMap_map, Function.comp_def]

@[simp] theorem filterMap_child?_enclosed (opening close : TokenKind) (xs : List (γ α)) :
    (enclosed opening close xs).filterMap child? = xs.map Part.toNode := by
  simp [enclosed, List.filterMap_cons]

@[simp] theorem filterMap_child?_parenthesized (xs : List (γ α)) :
    (parenthesized xs).filterMap child? = xs.map Part.toNode := by
  cases xs <;> simp [parenthesized]

@[simp] theorem filterMap_child?_each (kind : TokenKind) (xs : List (γ α)) :
    (each kind xs).filterMap child? = xs.map Part.toNode := by
  induction xs with
  | nil => rfl
  | cons x xs ih => simpa [each, List.filterMap_cons] using ih

@[simp] theorem filterMap_child?_optional (kind : TokenKind) (x : Option (γ α)) :
    (optional kind x).filterMap child? = x.toList.map Part.toNode :=
  filterMap_child?_each kind x.toList

end

@[simp] theorem filterMap_child?_aliasName (x : Option (Name α)) :
    (aliasName x).filterMap child? = x.toList.map Part.toNode := by
  cases x <;> rfl

@[simp] theorem filterMap_child?_interfaces (xs : List (NamedType α)) :
    (interfaces xs).filterMap child? = xs.map Part.toNode := by
  cases xs <;> simp [interfaces, List.filterMap_cons]

@[simp] theorem filterMap_child?_members (xs : List (NamedType α)) :
    (members xs).filterMap child? = xs.map Part.toNode := by
  cases xs <;> simp [members]

end Piece

namespace Node

open Piece

/-- The children of a node are those that it is written with, in the same order. -/
theorem children_eq_filterMap_pieces {n : Node α} (h : n.IsWritten) :
    n.children = n.pieces.filterMap child? := by
  cases n with
  | operationDefinition x =>
    obtain ⟨operation, _ | y, variableDefinitions, directives, selectionSet, tag⟩ := x
    · obtain ⟨hvariables, hdirectives⟩ : variableDefinitions = [] ∧ directives = [] := h rfl
      simp [children, slots, pieces, hvariables, hdirectives, Slot.one, Slot.optional, Slot.many]
    · simp [children, slots, pieces, List.filterMap_cons, Slot.one, Slot.optional, Slot.many]
  | _ =>
    simp [children, slots, pieces, List.filterMap_cons, Slot.one, Slot.optional, Slot.many,
      Slot.atLeastOne]

end Node

/-! ## Yields -/

namespace Piece

@[simp] theorem yield_lexeme (l : Lexeme) : (lexeme l : Piece α).yield = [l] := rfl

@[simp] theorem yield_bare (kind : TokenKind) : (bare kind : Piece α).yield = [.bare kind] := rfl

@[simp] theorem yield_word (text : String) : (word text : Piece α).yield = [.ofName text] := rfl

@[simp] theorem yield_name (x : Name α) : (part x).yield = x.terminals.map Terminal.lexeme := rfl

@[simp] theorem yield_variable (x : Variable α) :
    (part x).yield = x.terminals.map Terminal.lexeme := rfl

@[simp] theorem yield_namedType (x : NamedType α) :
    (part x).yield = x.terminals.map Terminal.lexeme := rfl

@[simp] theorem yield_typeRef (x : TypeRef α) :
    (part x).yield = x.terminals.map Terminal.lexeme := by
  cases x <;> rfl

@[simp] theorem yield_nullableTypeRef (x : NullableTypeRef α) :
    (part x).yield = x.terminals.map Terminal.lexeme := by
  cases x <;> rfl

@[simp] theorem yield_value (x : Value α) :
    (part x).yield = x.terminals.map Terminal.lexeme := by
  cases x <;> rfl

@[simp] theorem yield_objectField (x : ObjectField α) :
    (part x).yield = (x.terminals []).map Terminal.lexeme := rfl

@[simp] theorem yield_argument (x : Argument α) :
    (part x).yield = x.terminals.map Terminal.lexeme := rfl

@[simp] theorem yield_directive (x : Directive α) :
    (part x).yield = x.terminals.map Terminal.lexeme := rfl

@[simp] theorem yield_selectionSet (x : SelectionSet α) :
    (part x).yield = x.terminals.map Terminal.lexeme := rfl

@[simp] theorem yield_selection (x : Selection α) :
    (part x).yield = x.terminals.map Terminal.lexeme := by
  cases x <;> rfl

@[simp] theorem yield_variableDefinition (x : VariableDefinition α) :
    (part x).yield = x.terminals.map Terminal.lexeme := rfl

@[simp] theorem yield_definition (x : Definition α) :
    (part x).yield = x.terminals.map Terminal.lexeme := by
  cases x <;> rfl

@[simp] theorem yield_argumentDefinition (x : ArgumentDefinition α) :
    (part x).yield = x.terminals.map Terminal.lexeme := rfl

@[simp] theorem yield_fieldDefinition (x : FieldDefinition α) :
    (part x).yield = x.terminals.map Terminal.lexeme := rfl

@[simp] theorem yield_inputFieldDefinition (x : InputFieldDefinition α) :
    (part x).yield = x.terminals.map Terminal.lexeme := rfl

@[simp] theorem yield_enumValueDefinition (x : EnumValueDefinition α) :
    (part x).yield = x.terminals.map Terminal.lexeme := rfl

@[simp] theorem yield_schemaDefinition (x : SchemaDefinition α) :
    (part x).yield = x.terminals.map Terminal.lexeme := by
  cases x <;> rfl

section

variable {γ : Type → Type} [∀ α, SizeOf (γ α)] [Part γ] {write : γ α → List Terminal}

/-- Children one after the other are written one after the other. -/
theorem yield_parts (h : ∀ x : γ α, (part x).yield = (write x).map Terminal.lexeme)
    (xs : List (γ α)) :
    (parts xs).flatMap yield = (xs.flatMap write).map Terminal.lexeme := by
  simp [parts, List.flatMap_map, List.map_flatMap, h]

theorem yield_enclosed (h : ∀ x : γ α, (part x).yield = (write x).map Terminal.lexeme)
    (opening close : TokenKind) (xs : List (γ α)) :
    (enclosed opening close xs).flatMap yield =
      .bare opening :: (xs.flatMap write).map Terminal.lexeme ++ [.bare close] := by
  simp [enclosed, yield_parts h]

theorem yield_parenthesized (h : ∀ x : γ α, (part x).yield = (write x).map Terminal.lexeme)
    (xs : List (γ α)) :
    (parenthesized xs).flatMap yield =
      (parenthesizedTerminals write xs).map Terminal.lexeme := by
  cases xs <;> simp [parenthesized, parenthesizedTerminals, yield_enclosed h]

end

theorem yield_default (x : Option (Value α)) :
    (optional .equals x).flatMap yield = (Value.defaultTerminals x).map Terminal.lexeme := by
  cases x <;> simp [optional, each, Value.defaultTerminals]

theorem yield_aliasName (x : Option (Name α)) :
    (aliasName x).flatMap yield = (Name.aliasTerminals x).map Terminal.lexeme := by
  cases x <;> simp [aliasName, Name.aliasTerminals]

theorem yield_selectionSetOption (x : Option (SelectionSet α)) :
    (parts x.toList).flatMap yield =
      (SelectionSet.terminalsOption x).map Terminal.lexeme := by
  cases x <;> simp [parts, SelectionSet.terminalsOption]

theorem yield_interfaces (xs : List (NamedType α)) :
    (interfaces xs).flatMap yield = (NamedType.interfacesTerminals xs).map Terminal.lexeme := by
  cases xs <;> simp [interfaces, NamedType.interfacesTerminals, yield_parts yield_namedType]

theorem yield_members (xs : List (NamedType α)) :
    (members xs).flatMap yield = (NamedType.membersTerminals xs).map Terminal.lexeme := by
  cases xs <;>
    simp [members, each, NamedType.membersTerminals, NamedType.barTerminals, List.map_flatMap,
      List.flatMap_assoc]

/-- Objections to the names of fields do not change what is written. -/
theorem yield_objectFields (taken : List String) (xs : List (ObjectField α)) :
    (parts xs).flatMap yield =
      (ObjectField.terminalsAll taken xs).map Terminal.lexeme := by
  induction xs generalizing taken with
  | nil => rfl
  | cons x xs ih =>
    obtain ⟨name, value, tag⟩ := x
    have hrest := ih (name.value :: taken)
    simp only [parts] at hrest
    simp [parts, ObjectField.terminalsAll, ObjectField.terminals, hrest]

end Piece

namespace Node

open Piece

/-- A node is written with its pieces, one after the other. -/
theorem yield_eq_flatMap_pieces (n : Node α) : n.yield = n.pieces.flatMap Piece.yield := by
  cases n with
  | operationDefinition x =>
    obtain ⟨operation, _ | y, variableDefinitions, directives, selectionSet, tag⟩ := x
    · simp [Node.yield, terminals, pieces, OperationDefinition.terminals]
    · simp [Node.yield, terminals, pieces, OperationDefinition.terminals,
        yield_parenthesized yield_variableDefinition, yield_parts yield_directive]
  | objectValue x =>
    cases x
    simp [Node.yield, terminals, pieces, ObjectValue.terminals, enclosed, yield_objectFields []]
  | listValue x | selectionSet x | listType x | nonNullType x | objectField x | inlineFragment x =>
    cases x
    simp [Node.yield, terminals, pieces, ListValue.terminals, SelectionSet.terminals,
      ListType.terminals, NonNullType.terminals, ObjectField.terminals,
      InlineFragment.terminals, Name.terminals, yield_enclosed yield_value,
      yield_enclosed yield_selection,
      yield_parts yield_directive]
  | field x =>
    cases x
    simp [Node.yield, terminals, pieces, Field.terminals, yield_aliasName,
      yield_parenthesized yield_argument, yield_parts yield_directive, yield_selectionSetOption]
  | document x | schemaDocument x =>
    simp [Node.yield, terminals, pieces, Document.terminals, SchemaDocument.terminals,
      yield_parts yield_definition, yield_parts yield_schemaDefinition]
  | name x | namedType x | variableReference x | intValue x | floatValue x | stringValue x
  | booleanValue x | enumValue x =>
    simp [Node.yield, terminals, pieces, Name.terminals, NamedType.terminals, Variable.terminals,
      Literal.terminals, BooleanValue.terminals, Lexeme.ofName]
  | variableDefinition x | argument x | directive x | fragmentSpread x | fragmentDefinition x =>
    simp [Node.yield, terminals, pieces, VariableDefinition.terminals, Argument.terminals,
      Directive.terminals, FragmentSpread.terminals, FragmentDefinition.terminals,
      Name.fragmentTerminals, Name.terminals, yield_default, yield_parenthesized yield_argument,
      yield_parts yield_directive]
  | fieldDefinition x | argumentDefinition x | inputFieldDefinition x | enumValueDefinition x =>
    simp [Node.yield, terminals, pieces, FieldDefinition.terminals, ArgumentDefinition.terminals,
      InputFieldDefinition.terminals, EnumValueDefinition.terminals, yield_default,
      yield_parenthesized yield_argumentDefinition]
  | typeDefinition x | interfaceDefinition x | unionDefinition x | scalarDefinition x
  | enumDefinition x | inputObjectDefinition x =>
    simp [Node.yield, terminals, pieces, TypeDefinition.terminals, InterfaceDefinition.terminals,
      UnionDefinition.terminals, ScalarDefinition.terminals, EnumDefinition.terminals,
      InputObjectDefinition.terminals, bracedTerminals, yield_interfaces, yield_members,
      yield_enclosed yield_fieldDefinition, yield_enclosed yield_enumValueDefinition,
      yield_enclosed yield_inputFieldDefinition]

/-! ## Tags -/

theorem terminals_map (f : α → β) (n : Node α) : (n.map f).terminals = n.terminals := by
  cases n with
  | intValue x | floatValue x | stringValue x | enumValue x | booleanValue x => rfl
  | listValue x => exact Value.terminals_map f (.list x)
  | objectValue x => exact Value.terminals_map f (.object x)
  | objectField x =>
    obtain ⟨name, value, tag⟩ := x
    simp [map, terminals, ObjectField.map, ObjectField.terminals, Name.map]
  | listType x => exact TypeRef.terminals_map f (.list x)
  | nonNullType x => exact TypeRef.terminals_map f (.nonNull x)
  | field x => exact Field.terminals_map f x
  | inlineFragment x => exact InlineFragment.terminals_map f x
  | _ => simp [map, terminals]

/-- Tags are not written. -/
@[simp] theorem yield_map (f : α → β) (n : Node α) : (n.map f).yield = n.yield := by
  rw [Node.yield, terminals_map, Node.yield]

end Node

end GraphQLSyntax
