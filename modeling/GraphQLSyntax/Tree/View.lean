import GraphQLSyntax.Tree.Node

/-!
# One view of all nodes

The children of a node stand in slots, in a fixed order, and a slot holds one
child, at most one, or a list.  `slots` shows them as nodes; `build?` makes a
node from a kind, slots and what else a node of that kind holds, provided that
each child is of a sort that may stand in its slot.  The two are inverse to each
other, so a traversal or a change of a tree can be defined and reasoned about on
this view alone.
-/

namespace GraphQLSyntax

variable {α : Type}

/-- The types of what can stand in a slot.  Such a thing is a node of one of
certain kinds. -/
class Part (β : Type → Type) [∀ α, SizeOf (β α)] where
  toNode {α : Type} : β α → Node α
  ofNode? {α : Type} : Node α → Option (β α)
  ofNode?_eq_some_iff {α : Type} (n : Node α) (x : β α) :
    ofNode? n = some x ↔ n = toNode x
  sizeOf_toNode_le {α : Type} (x : β α) : sizeOf (toNode x) ≤ 1 + sizeOf x

instance : Part Name where
  toNode := .name
  ofNode?
    | .name x => some x
    | _ => none
  ofNode?_eq_some_iff n x := by cases n <;> simp
  sizeOf_toNode_le x := by simp

instance : Part Variable where
  toNode := .variableReference
  ofNode?
    | .variableReference x => some x
    | _ => none
  ofNode?_eq_some_iff n x := by cases n <;> simp
  sizeOf_toNode_le x := by simp

instance : Part NamedType where
  toNode := .namedType
  ofNode?
    | .namedType x => some x
    | _ => none
  ofNode?_eq_some_iff n x := by cases n <;> simp
  sizeOf_toNode_le x := by simp

instance : Part Argument where
  toNode := .argument
  ofNode?
    | .argument x => some x
    | _ => none
  ofNode?_eq_some_iff n x := by cases n <;> simp
  sizeOf_toNode_le x := by simp

instance : Part Directive where
  toNode := .directive
  ofNode?
    | .directive x => some x
    | _ => none
  ofNode?_eq_some_iff n x := by cases n <;> simp
  sizeOf_toNode_le x := by simp

instance : Part SelectionSet where
  toNode := .selectionSet
  ofNode?
    | .selectionSet x => some x
    | _ => none
  ofNode?_eq_some_iff n x := by cases n <;> simp
  sizeOf_toNode_le x := by simp

instance : Part VariableDefinition where
  toNode := .variableDefinition
  ofNode?
    | .variableDefinition x => some x
    | _ => none
  ofNode?_eq_some_iff n x := by cases n <;> simp
  sizeOf_toNode_le x := by simp

instance : Part ObjectField where
  toNode := .objectField
  ofNode?
    | .objectField x => some x
    | _ => none
  ofNode?_eq_some_iff n x := by cases n <;> simp
  sizeOf_toNode_le x := by simp

instance : Part FieldDefinition where
  toNode := .fieldDefinition
  ofNode?
    | .fieldDefinition x => some x
    | _ => none
  ofNode?_eq_some_iff n x := by cases n <;> simp
  sizeOf_toNode_le x := by simp

instance : Part ArgumentDefinition where
  toNode := .argumentDefinition
  ofNode?
    | .argumentDefinition x => some x
    | _ => none
  ofNode?_eq_some_iff n x := by cases n <;> simp
  sizeOf_toNode_le x := by simp

instance : Part InputFieldDefinition where
  toNode := .inputFieldDefinition
  ofNode?
    | .inputFieldDefinition x => some x
    | _ => none
  ofNode?_eq_some_iff n x := by cases n <;> simp
  sizeOf_toNode_le x := by simp

instance : Part EnumValueDefinition where
  toNode := .enumValueDefinition
  ofNode?
    | .enumValueDefinition x => some x
    | _ => none
  ofNode?_eq_some_iff n x := by cases n <;> simp
  sizeOf_toNode_le x := by simp

instance : Part TypeRef where
  toNode
    | .named x => .namedType x
    | .list x => .listType x
    | .nonNull x => .nonNullType x
  ofNode?
    | .namedType x => some (.named x)
    | .listType x => some (.list x)
    | .nonNullType x => some (.nonNull x)
    | _ => none
  ofNode?_eq_some_iff n x := by cases n <;> cases x <;> simp
  sizeOf_toNode_le x := by cases x <;> simp

instance : Part NullableTypeRef where
  toNode
    | .named x => .namedType x
    | .list x => .listType x
  ofNode?
    | .namedType x => some (.named x)
    | .listType x => some (.list x)
    | _ => none
  ofNode?_eq_some_iff n x := by cases n <;> cases x <;> simp
  sizeOf_toNode_le x := by cases x <;> simp

instance : Part Value where
  toNode
    | .var x => .variableReference x
    | .int x => .intValue x
    | .float x => .floatValue x
    | .string x => .stringValue x
    | .boolean x => .booleanValue x
    | .enum x => .enumValue x
    | .list x => .listValue x
    | .object x => .objectValue x
  ofNode?
    | .variableReference x => some (.var x)
    | .intValue x => some (.int x)
    | .floatValue x => some (.float x)
    | .stringValue x => some (.string x)
    | .booleanValue x => some (.boolean x)
    | .enumValue x => some (.enum x)
    | .listValue x => some (.list x)
    | .objectValue x => some (.object x)
    | _ => none
  ofNode?_eq_some_iff n x := by cases n <;> cases x <;> simp
  sizeOf_toNode_le x := by cases x <;> simp

instance : Part Selection where
  toNode
    | .field x => .field x
    | .spread x => .fragmentSpread x
    | .inline x => .inlineFragment x
  ofNode?
    | .field x => some (.field x)
    | .fragmentSpread x => some (.spread x)
    | .inlineFragment x => some (.inline x)
    | _ => none
  ofNode?_eq_some_iff n x := by cases n <;> cases x <;> simp
  sizeOf_toNode_le x := by cases x <;> simp

instance : Part Definition where
  toNode
    | .operation x => .operationDefinition x
    | .fragment x => .fragmentDefinition x
  ofNode?
    | .operationDefinition x => some (.operation x)
    | .fragmentDefinition x => some (.fragment x)
    | _ => none
  ofNode?_eq_some_iff n x := by cases n <;> cases x <;> simp
  sizeOf_toNode_le x := by cases x <;> simp

instance : Part SchemaDefinition where
  toNode
    | .type x => .typeDefinition x
    | .interface x => .interfaceDefinition x
    | .union x => .unionDefinition x
    | .scalar x => .scalarDefinition x
    | .enum x => .enumDefinition x
    | .inputObject x => .inputObjectDefinition x
  ofNode?
    | .typeDefinition x => some (.type x)
    | .interfaceDefinition x => some (.interface x)
    | .unionDefinition x => some (.union x)
    | .scalarDefinition x => some (.scalar x)
    | .enumDefinition x => some (.enum x)
    | .inputObjectDefinition x => some (.inputObject x)
    | _ => none
  ofNode?_eq_some_iff n x := by cases n <;> cases x <;> simp
  sizeOf_toNode_le x := by cases x <;> simp

/-- How many children a slot holds. -/
inductive Arity
  | one
  | optional
  | many
  /-- A list that documents never leave empty. -/
  | atLeastOne
deriving DecidableEq, Repr, Inhabited

/-- A node does not remain without a child in such a slot: if the last one is
deleted, the node is deleted as well. -/
def Arity.isNeeded : Arity → Bool
  | .one | .atLeastOne => true
  | .optional | .many => false

/-- Lists, as opposed to single children. -/
def Arity.isList : Arity → Bool
  | .many | .atLeastOne => true
  | .one | .optional => false

/-- A place for children of a node, and the children in it. -/
structure Slot (α : Type) where
  arity : Arity
  nodes : List (Node α)

namespace Slot

variable {β : Type → Type} [∀ α, SizeOf (β α)] [Part β]

/-- The slot of a single child. -/
def one (x : β α) : Slot α :=
  ⟨.one, [Part.toNode x]⟩

/-- The slot of a child that may be missing. -/
def optional (x : Option (β α)) : Slot α :=
  ⟨.optional, x.toList.map Part.toNode⟩

/-- The slot of a list. -/
def many (xs : List (β α)) : Slot α :=
  ⟨.many, xs.map Part.toNode⟩

/-- The slot of a list that documents never leave empty. -/
def atLeastOne (xs : List (β α)) : Slot α :=
  ⟨.atLeastOne, xs.map Part.toNode⟩

/-- Reads a single child. -/
def one? : List (Node α) → Option (β α)
  | [n] => Part.ofNode? n
  | _ => none

/-- Reads a child that may be missing. -/
def optional? : List (Node α) → Option (Option (β α))
  | [] => some none
  | [n] => (Part.ofNode? n).map some
  | _ => none

/-- Reads a list of children. -/
def many? (ns : List (Node α)) : Option (List (β α)) :=
  ns.mapM Part.ofNode?

end Slot

/-- What a node holds besides its children and its tag. -/
inductive Content
  | nothing
  | text (s : String)
  | truth (b : Bool)
  | operation (o : OperationType)
deriving DecidableEq, Repr, Inhabited

namespace Node

open Slot

/-- What a node holds besides its children and its tag. -/
def content : Node α → Content
  | .name x => .text x.value
  | .operationDefinition x => .operation x.operation
  | .intValue x => .text x.text
  | .floatValue x => .text x.text
  | .stringValue x => .text x.text
  | .booleanValue x => .truth x.value
  | .enumValue x => .text x.text
  | _ => .nothing

/-- The slots of a node, in order. -/
def slots : Node α → List (Slot α)
  | .name _ => []
  | .document x => [.atLeastOne x.definitions]
  | .operationDefinition x => [.optional x.name, .many x.variableDefinitions,
      .many x.directives, .one x.selectionSet]
  | .variableDefinition x => [.one x.var, .one x.type, .optional x.defaultValue]
  | .variableReference x => [.one x.name]
  | .selectionSet x => [.atLeastOne x.selections]
  | .field x => [.optional x.aliasName, .one x.name, .many x.arguments, .many x.directives,
      .optional x.selectionSet]
  | .argument x => [.one x.name, .one x.value]
  | .fragmentSpread x => [.one x.name, .many x.directives]
  | .inlineFragment x => [.one x.typeCondition, .many x.directives, .one x.selectionSet]
  | .fragmentDefinition x => [.one x.name, .one x.typeCondition, .many x.directives,
      .one x.selectionSet]
  | .intValue _ => []
  | .floatValue _ => []
  | .stringValue _ => []
  | .booleanValue _ => []
  | .enumValue _ => []
  | .listValue x => [.many x.values]
  | .objectValue x => [.many x.fields]
  | .objectField x => [.one x.name, .one x.value]
  | .directive x => [.one x.name, .many x.arguments]
  | .namedType x => [.one x.name]
  | .listType x => [.one x.item]
  | .nonNullType x => [.one x.inner]
  | .schemaDocument x => [.atLeastOne x.definitions]
  | .typeDefinition x => [.one x.name, .many x.interfaces, .many x.fields]
  | .fieldDefinition x => [.one x.name, .many x.arguments, .one x.type]
  | .argumentDefinition x => [.one x.name, .one x.type, .optional x.defaultValue]
  | .interfaceDefinition x => [.one x.name, .many x.fields]
  | .unionDefinition x => [.one x.name, .atLeastOne x.types]
  | .scalarDefinition x => [.one x.name]
  | .enumDefinition x => [.one x.name, .atLeastOne x.values]
  | .enumValueDefinition x => [.one x.name]
  | .inputObjectDefinition x => [.one x.name, .many x.fields]
  | .inputFieldDefinition x => [.one x.name, .one x.type, .optional x.defaultValue]

/-- The node of the given kind that holds the given content and has the given
children in its slots, if there can be one. -/
def build? (kind : NodeKind) (content : Content) (slots : List (List (Node α)))
    (tag : α) : Option (Node α) :=
  match kind, content, slots with
  | .name, .text s, [] => some (.name ⟨s, tag⟩)
  | .document, .nothing, [a] => do some (.document ⟨← many? a, tag⟩)
  | .operationDefinition, .operation o, [a, b, c, d] => do some (.operationDefinition ⟨o,
      ← optional? a, ← many? b, ← many? c, ← one? d, tag⟩)
  | .variableDefinition, .nothing, [a, b, c] => do some (.variableDefinition ⟨← one? a,
      ← one? b, ← optional? c, tag⟩)
  | .variableReference, .nothing, [a] => do some (.variableReference ⟨← one? a, tag⟩)
  | .selectionSet, .nothing, [a] => do some (.selectionSet ⟨← many? a, tag⟩)
  | .field, .nothing, [a, b, c, d, e] => do some (.field ⟨← optional? a, ← one? b, ← many? c,
      ← many? d, ← optional? e, tag⟩)
  | .argument, .nothing, [a, b] => do some (.argument ⟨← one? a, ← one? b, tag⟩)
  | .fragmentSpread, .nothing, [a, b] => do some (.fragmentSpread ⟨← one? a, ← many? b, tag⟩)
  | .inlineFragment, .nothing, [a, b, c] => do some (.inlineFragment ⟨← one? a, ← many? b,
      ← one? c, tag⟩)
  | .fragmentDefinition, .nothing, [a, b, c, d] => do some (.fragmentDefinition ⟨← one? a,
      ← one? b, ← many? c, ← one? d, tag⟩)
  | .intValue, .text s, [] => some (.intValue ⟨s, tag⟩)
  | .floatValue, .text s, [] => some (.floatValue ⟨s, tag⟩)
  | .stringValue, .text s, [] => some (.stringValue ⟨s, tag⟩)
  | .booleanValue, .truth b, [] => some (.booleanValue ⟨b, tag⟩)
  | .enumValue, .text s, [] => some (.enumValue ⟨s, tag⟩)
  | .listValue, .nothing, [a] => do some (.listValue ⟨← many? a, tag⟩)
  | .objectValue, .nothing, [a] => do some (.objectValue ⟨← many? a, tag⟩)
  | .objectField, .nothing, [a, b] => do some (.objectField ⟨← one? a, ← one? b, tag⟩)
  | .directive, .nothing, [a, b] => do some (.directive ⟨← one? a, ← many? b, tag⟩)
  | .namedType, .nothing, [a] => do some (.namedType ⟨← one? a, tag⟩)
  | .listType, .nothing, [a] => do some (.listType ⟨← one? a, tag⟩)
  | .nonNullType, .nothing, [a] => do some (.nonNullType ⟨← one? a, tag⟩)
  | .schemaDocument, .nothing, [a] => do some (.schemaDocument ⟨← many? a, tag⟩)
  | .typeDefinition, .nothing, [a, b, c] => do some (.typeDefinition ⟨← one? a, ← many? b,
      ← many? c, tag⟩)
  | .fieldDefinition, .nothing, [a, b, c] => do some (.fieldDefinition ⟨← one? a, ← many? b,
      ← one? c, tag⟩)
  | .argumentDefinition, .nothing, [a, b, c] => do some (.argumentDefinition ⟨← one? a,
      ← one? b, ← optional? c, tag⟩)
  | .interfaceDefinition, .nothing, [a, b] => do some (.interfaceDefinition ⟨← one? a,
      ← many? b, tag⟩)
  | .unionDefinition, .nothing, [a, b] => do some (.unionDefinition ⟨← one? a, ← many? b, tag⟩)
  | .scalarDefinition, .nothing, [a] => do some (.scalarDefinition ⟨← one? a, tag⟩)
  | .enumDefinition, .nothing, [a, b] => do some (.enumDefinition ⟨← one? a, ← many? b, tag⟩)
  | .enumValueDefinition, .nothing, [a] => do some (.enumValueDefinition ⟨← one? a, tag⟩)
  | .inputObjectDefinition, .nothing, [a, b] => do some (.inputObjectDefinition ⟨← one? a,
      ← many? b, tag⟩)
  | .inputFieldDefinition, .nothing, [a, b, c] => do some (.inputFieldDefinition ⟨← one? a,
      ← one? b, ← optional? c, tag⟩)
  | _, _, _ => none

/-- All children of a node, in order. -/
def children (n : Node α) : List (Node α) :=
  n.slots.flatMap Slot.nodes

end Node

namespace Part

variable {β : Type → Type} [∀ α, SizeOf (β α)] [Part β]

@[simp] theorem ofNode?_toNode (x : β α) : ofNode? (toNode x) = some x :=
  (ofNode?_eq_some_iff _ _).2 rfl

end Part

namespace Slot

variable {β : Type → Type} [∀ α, SizeOf (β α)] [Part β]

@[simp] theorem one?_one (x : β α) : one? (β := β) (one x).nodes = some x := by
  simp [one, one?]

@[simp] theorem optional?_optional (x : Option (β α)) :
    optional? (β := β) (optional x).nodes = some x := by
  cases x <;> simp [optional, optional?]

@[simp] theorem many?_map (xs : List (β α)) :
    many? (β := β) (xs.map Part.toNode) = some xs := by
  induction xs with
  | nil => rfl
  | cons x xs ih => simp_all [many?, List.mapM_cons]

@[simp] theorem many?_many (xs : List (β α)) : many? (β := β) (many xs).nodes = some xs :=
  many?_map xs

@[simp] theorem many?_atLeastOne (xs : List (β α)) :
    many? (β := β) (atLeastOne xs).nodes = some xs :=
  many?_map xs

end Slot

namespace Node

/-- A node can be built again from what its view shows. -/
theorem build?_slots (n : Node α) :
    build? n.kind n.content (n.slots.map Slot.nodes) n.tag = some n := by
  cases n <;> simp [kind, content, slots, tag, build?] <;> rename_i x <;> cases x <;> rfl

end Node

/-! ## Children are smaller -/

namespace Slot

variable {β : Type → Type} [∀ α, SizeOf (β α)] [Part β]

theorem sizeOf_le_of_mem_one {x : β α} {c : Node α} (h : c ∈ (one x).nodes) :
    sizeOf c ≤ 1 + sizeOf x := by
  simp only [one, List.mem_singleton] at h
  exact h ▸ Part.sizeOf_toNode_le x

theorem sizeOf_le_of_mem_optional {x : Option (β α)} {c : Node α}
    (h : c ∈ (optional x).nodes) : sizeOf c ≤ sizeOf x := by
  cases x with
  | none => simp [optional] at h
  | some x =>
    simp only [optional, Option.toList_some, List.map_cons, List.map_nil,
      List.mem_singleton] at h
    have := Part.sizeOf_toNode_le x
    simp_all

theorem sizeOf_le_of_mem_many {xs : List (β α)} {c : Node α}
    (h : c ∈ (many xs).nodes) : sizeOf c ≤ sizeOf xs := by
  obtain ⟨x, hx, rfl⟩ := List.mem_map.1 h
  have := Part.sizeOf_toNode_le x
  have := List.sizeOf_lt_of_mem hx
  omega

theorem sizeOf_le_of_mem_atLeastOne {xs : List (β α)} {c : Node α}
    (h : c ∈ (atLeastOne xs).nodes) : sizeOf c ≤ sizeOf xs :=
  sizeOf_le_of_mem_many h

end Slot

namespace Node

/-- Every child is smaller than its parent, so recursion into children ends. -/
theorem sizeOf_lt_of_mem_children {n c : Node α} (h : c ∈ n.children) :
    sizeOf c < sizeOf n := by
  cases n <;> rename_i x <;> cases x <;>
    simp only [children, slots, List.flatMap_cons, List.flatMap_nil, List.append_nil,
      List.mem_append, List.not_mem_nil] at h <;>
    simp <;>
    grind [→ Slot.sizeOf_le_of_mem_one, → Slot.sizeOf_le_of_mem_optional,
      → Slot.sizeOf_le_of_mem_many, → Slot.sizeOf_le_of_mem_atLeastOne]

end Node

end GraphQLSyntax
