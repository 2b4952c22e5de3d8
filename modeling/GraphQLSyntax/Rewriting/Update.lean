import GraphQLSyntax.Tree.Tag

/-!
# Changing the children of a node

Trees are never changed in place.  A node with other children is a new node, with
an identity of its own and the location of the old one; if all children are the
ones it has, nothing new is needed and the result is the node itself.
-/

namespace GraphQLSyntax.Node

/-- What is to stand in the slots of a node: new children or, for `none`, what
stands there.  Missing entries stand for `none`. -/
abbrev Replacement := List (Option (List (Node Tag)))

/-- The children in the slots after a replacement. -/
def replacedSlots (n : Node Tag) (new : Replacement) : List (List (Node Tag)) :=
  n.slots.mapIdx fun i slot => (new[i]?.join).getD slot.nodes

/-- A node with the same kind, content and location and the given children, under
a new identity; none if the children do not fit. -/
def withSlots? (n : Node Tag) (slots : List (List (Node Tag))) (id : Nat) :
    Option (Node Tag) :=
  build? n.kind n.content slots { n.tag with id }

/-- Replaces children.  `nextId` is the first unused identity; the second result
is the first one unused afterwards.  A replacement that changes no child, or does
not fit the kind of the node, has no effect. -/
def update (n : Node Tag) (new : Replacement) (nextId : Nat) : Node Tag × Nat :=
  if n.replacedSlots new = n.slots.map Slot.nodes then (n, nextId)
  else
    match n.withSlots? (n.replacedSlots new) nextId with
    | some m => (m, nextId + 1)
    | none => (n, nextId)

/-- A node of the given kind is all that `build?` makes. -/
theorem kind_of_build? {α : Type} {kind : NodeKind} {content : Content}
    {slots : List (List (Node α))} {tag : α} {n : Node α}
    (h : build? kind content slots tag = some n) : n.kind = kind := by
  unfold build? at h
  split at h <;> simp [bind, Option.bind_eq_some_iff] at h <;> grind [Node.kind]

/-- A change of children keeps the kind. -/
theorem kind_update (n : Node Tag) (new : Replacement) (nextId : Nat) :
    (n.update new nextId).1.kind = n.kind := by
  unfold update
  split
  · rfl
  · split
    · exact kind_of_build? ‹_›
    · rfl

end GraphQLSyntax.Node
