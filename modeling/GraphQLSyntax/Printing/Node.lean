import GraphQLSyntax.Printing.Executable
import GraphQLSyntax.Printing.Schema
import GraphQLSyntax.Tree.Node

/-!
# Printing nodes of any kind
-/

namespace GraphQLSyntax

variable {α : Type}

/-- A node as it stands in a printed document, apart from indentation. -/
def Node.print : Node α → String
  | .name x => x.print
  | .document x => x.print
  | .operationDefinition x => x.print
  | .variableDefinition x => x.print
  | .variableReference x => x.print
  | .selectionSet x => x.print
  | .field x => x.print
  | .argument x => x.print
  | .fragmentSpread x => x.print
  | .inlineFragment x => x.print
  | .fragmentDefinition x => x.print
  | .intValue x => x.text
  | .floatValue x => x.text
  | .stringValue x => quote x.text
  | .booleanValue x => x.print
  | .enumValue x => x.text
  | .listValue x => x.print
  | .objectValue x => x.print
  | .objectField x => x.print
  | .directive x => x.print
  | .namedType x => x.print
  | .listType x => x.print
  | .nonNullType x => x.print
  | .schemaDocument x => x.print
  | .typeDefinition x => x.print
  | .fieldDefinition x => x.print
  | .argumentDefinition x => x.print
  | .interfaceDefinition x => x.print
  | .unionDefinition x => x.print
  | .scalarDefinition x => x.print
  | .enumDefinition x => x.print
  | .enumValueDefinition x => x.print
  | .inputObjectDefinition x => x.print
  | .inputFieldDefinition x => x.print

end GraphQLSyntax
