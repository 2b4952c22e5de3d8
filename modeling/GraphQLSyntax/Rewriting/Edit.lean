import GraphQLSyntax.Rewriting.Update

/-!
# Edits

Simple changes that make sense for nodes of many kinds: giving a node another text
or name, dropping what it can do without, taking off a layer of brackets, or
rearranging its lists.  An edit that does not apply to the kind of a node leaves the
node as it is.
-/

namespace GraphQLSyntax

/-- A rearrangement of a list. -/
inductive ListEdit
  | same
  | clear
  | first
  | reverse
  /-- Each item twice in a row. -/
  | double
deriving DecidableEq, Repr, Inhabited

/-- The rearranged list. -/
def ListEdit.apply {β : Type} : ListEdit → List β → List β
  | same, xs => xs
  | clear, _ => []
  | first, xs => xs.take 1
  | reverse, xs => xs.reverse
  | double, xs => xs.flatMap fun x => [x, x]

/-- A change of a node. -/
inductive Edit
  | keep
  /-- A new node with the same contents. -/
  | copy
  /-- Another text or another name. -/
  | set (text : String)
  /-- Without the children that may be missing. -/
  | drop
  /-- Without a layer of brackets. -/
  | unwrap
  /-- The same rearrangement for all lists. -/
  | lists (edit : ListEdit)
deriving DecidableEq, Repr, Inhabited

/-- The number of the slot with the name of a node of the given kind. -/
def NodeKind.nameSlot? : NodeKind → Option Nat
  | field => some 1
  | operationDefinition | variableReference | argument | fragmentSpread
  | fragmentDefinition | objectField | directive | namedType | typeDefinition
  | fieldDefinition | argumentDefinition | interfaceDefinition | unionDefinition
  | scalarDefinition | enumDefinition | enumValueDefinition | inputObjectDefinition
  | inputFieldDefinition => some 0
  | _ => none

namespace Node

/-- The type inside a list type, without an exclamation mark; any other type is
left as it is. -/
def unwrappedInner : NullableTypeRef Tag → NullableTypeRef Tag
  | .list ⟨.named x, _⟩ => .named x
  | .list ⟨.list x, _⟩ => .list x
  | .list ⟨.nonNull x, _⟩ => x.inner
  | .named x => .named x

/-- The type inside a list type or before an exclamation mark; a name is left as it
is. -/
def unwrappedItem : TypeRef Tag → TypeRef Tag
  | .list x => x.item
  | .nonNull x => x.inner.toTypeRef
  | .named x => .named x

/-- The first of the values in a list; any other value is left as it is. -/
def unwrappedValue : Value Tag → Value Tag
  | .list ⟨x :: _, _⟩ => x
  | x => x

/-- The children of a node without a layer of brackets. -/
def unwrapped : Node Tag → Replacement
  | .listType x => [some [Part.toNode (unwrappedItem x.item)]]
  | .nonNullType x => [some [Part.toNode (unwrappedInner x.inner)]]
  | .argument x => [none, some [Part.toNode (unwrappedValue x.value)]]
  | .objectField x => [none, some [Part.toNode (unwrappedValue x.value)]]
  | _ => []

/-- No children where they may be missing. -/
def withoutOptional (n : Node Tag) : Replacement :=
  n.slots.map fun slot => if slot.arity = .optional then some [] else none

/-- The rearranged lists of children. -/
def rearranged (n : Node Tag) (edit : ListEdit) : Replacement :=
  n.slots.map fun slot =>
    if slot.arity.isList then some (edit.apply slot.nodes) else none

/-- The node with the given content in place of its own, under a new identity, if it
has no children. -/
def withContent (n : Node Tag) (content : Content) (nextId : Nat) : Node Tag × Nat :=
  match build? n.kind content [] { n.tag with id := nextId } with
  | some m => (m, nextId + 1)
  | none => (n, nextId)

/-- The node with another text or name.  A truth value becomes true by the text
`true` and false by any other. -/
def withText (n : Node Tag) (text : String) (nextId : Nat) : Node Tag × Nat :=
  match n.content with
  | .text _ => n.withContent (.text text) nextId
  | .truth _ => n.withContent (.truth (text == "true")) nextId
  | _ =>
    match n.kind.nameSlot? with
    | some i =>
      let name : Node Tag := .name ⟨text, { id := nextId, location := none }⟩
      n.update (List.replicate i none ++ [some [name]]) (nextId + 1)
    | none => (n, nextId)

theorem kind_withContent (n : Node Tag) (content : Content) (nextId : Nat) :
    (n.withContent content nextId).1.kind = n.kind := by
  unfold withContent
  split
  · exact kind_of_build? ‹_›
  · rfl

theorem kind_withText (n : Node Tag) (text : String) (nextId : Nat) :
    (n.withText text nextId).1.kind = n.kind := by
  unfold withText
  split
  · exact kind_withContent ..
  · exact kind_withContent ..
  · split
    · exact kind_update ..
    · rfl

end Node

namespace Edit

/-- The edited node, and the first identity that is unused afterwards. -/
def apply (edit : Edit) (n : Node Tag) (nextId : Nat) : Node Tag × Nat :=
  match edit with
  | keep => (n, nextId)
  | copy =>
    match n.withSlots? (n.slots.map Slot.nodes) nextId with
    | some m => (m, nextId + 1)
    | none => (n, nextId)
  | set text => n.withText text nextId
  | drop => n.update n.withoutOptional nextId
  | unwrap => n.update n.unwrapped nextId
  | lists edit => n.update (n.rearranged edit) nextId

/-- Edits keep the kind. -/
theorem kind_apply (edit : Edit) (n : Node Tag) (nextId : Nat) :
    (edit.apply n nextId).1.kind = n.kind := by
  cases edit with
  | keep => rfl
  | copy =>
    simp only [apply]
    split
    · exact Node.kind_of_build? ‹_›
    · rfl
  | set text => exact Node.kind_withText ..
  | drop => exact Node.kind_update ..
  | unwrap => exact Node.kind_update ..
  | lists edit => exact Node.kind_update ..

end Edit

end GraphQLSyntax
