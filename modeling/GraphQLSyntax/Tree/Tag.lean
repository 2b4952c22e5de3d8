import GraphQLSyntax.Source.Location
import GraphQLSyntax.Tree.Order

/-!
# Located nodes

The nodes of a parsed tree carry an identity and, if it is kept, a location.  No
two nodes have the same identity, so equality of trees, identities included, is
being the same node; trees that agree in all but the identities are copies of
each other.
-/

namespace GraphQLSyntax

/-- The identity and the location of a node. -/
structure Tag where
  id : Nat
  location : Option Location
deriving DecidableEq, Repr, Inhabited

namespace Node

/-- The trees agree in everything but the identities of their nodes. -/
def isCopyOf (n m : Node Tag) : Bool :=
  n.map Tag.location == m.map Tag.location

/-- The least number above the identities of all nodes of a tree. -/
def idBound (n : Node Tag) : Nat :=
  (n.preorder.map fun m => m.tag.id + 1).foldl max 0

end Node

end GraphQLSyntax
