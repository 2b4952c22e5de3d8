import GraphQLSyntax.Tree.Node

/-!
# Outlines

An outline describes a single node in a few words.  It is an example of a case
distinction by kind with an answer that stands in for all kinds not mentioned,
and which may decline to answer.
-/

namespace GraphQLSyntax.Node

variable {α : Type}

/-- The outline of nodes about which there is nothing special to say; there is
none for the kind `declined`. -/
def defaultOutline (declined : Option NodeKind) (n : Node α) : Option String :=
  if declined = some n.kind then none else some ("default " ++ n.kind.description)

/-- A field is described by its response key and a named type by its name. -/
def outline (declined : Option NodeKind) : Node α → Option String
  | .field x => some ("field " ++ x.responseKey)
  | .namedType x => defaultOutline declined (.name x.name)
  | n => defaultOutline declined n

end GraphQLSyntax.Node
