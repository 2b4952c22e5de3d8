import GraphQLSyntax.Tree.Executable
import GraphQLSyntax.Tree.Schema

/-!
# Nodes

A tree consists of nodes of thirty-four kinds.  `Node` holds a node of any
kind, so that what is the same for all of them can be said once.
-/

namespace GraphQLSyntax

/-- The kinds of nodes. -/
inductive NodeKind
  | name
  | document
  | operationDefinition
  | variableDefinition
  | variableReference
  | selectionSet
  | field
  | argument
  | fragmentSpread
  | inlineFragment
  | fragmentDefinition
  | intValue
  | floatValue
  | stringValue
  | booleanValue
  | enumValue
  | listValue
  | objectValue
  | objectField
  | directive
  | namedType
  | listType
  | nonNullType
  | schemaDocument
  | typeDefinition
  | fieldDefinition
  | argumentDefinition
  | interfaceDefinition
  | unionDefinition
  | scalarDefinition
  | enumDefinition
  | enumValueDefinition
  | inputObjectDefinition
  | inputFieldDefinition
deriving DecidableEq, Repr, Inhabited

namespace NodeKind

/-- What a kind is called. -/
def description : NodeKind → String
  | name => "Name"
  | document => "Document"
  | operationDefinition => "OperationDefinition"
  | variableDefinition => "VariableDefinition"
  | variableReference => "Variable"
  | selectionSet => "SelectionSet"
  | field => "Field"
  | argument => "Argument"
  | fragmentSpread => "FragmentSpread"
  | inlineFragment => "InlineFragment"
  | fragmentDefinition => "FragmentDefinition"
  | intValue => "IntValue"
  | floatValue => "FloatValue"
  | stringValue => "StringValue"
  | booleanValue => "BooleanValue"
  | enumValue => "EnumValue"
  | listValue => "ListValue"
  | objectValue => "ObjectValue"
  | objectField => "ObjectField"
  | directive => "Directive"
  | namedType => "NamedType"
  | listType => "ListType"
  | nonNullType => "NonNullType"
  | schemaDocument => "SchemaDocument"
  | typeDefinition => "TypeDefinition"
  | fieldDefinition => "FieldDefinition"
  | argumentDefinition => "ArgumentDefinition"
  | interfaceDefinition => "InterfaceDefinition"
  | unionDefinition => "UnionDefinition"
  | scalarDefinition => "ScalarDefinition"
  | enumDefinition => "EnumDefinition"
  | enumValueDefinition => "EnumValueDefinition"
  | inputObjectDefinition => "InputObjectDefinition"
  | inputFieldDefinition => "InputFieldDefinition"

/-- All kinds, in order. -/
def all : List NodeKind :=
  [.name, .document, .operationDefinition, .variableDefinition, .variableReference,
    .selectionSet, .field, .argument, .fragmentSpread, .inlineFragment,
    .fragmentDefinition, .intValue, .floatValue, .stringValue, .booleanValue,
    .enumValue, .listValue, .objectValue, .objectField, .directive, .namedType,
    .listType, .nonNullType, .schemaDocument, .typeDefinition, .fieldDefinition,
    .argumentDefinition, .interfaceDefinition, .unionDefinition, .scalarDefinition,
    .enumDefinition, .enumValueDefinition, .inputObjectDefinition,
    .inputFieldDefinition]

/-- The kind of the given name. -/
def ofDescription? (name : String) : Option NodeKind :=
  all.find? fun kind => kind.description == name

end NodeKind

/-- A node of any kind. -/
inductive Node (α : Type)
  | name (x : Name α)
  | document (x : Document α)
  | operationDefinition (x : OperationDefinition α)
  | variableDefinition (x : VariableDefinition α)
  | variableReference (x : Variable α)
  | selectionSet (x : SelectionSet α)
  | field (x : Field α)
  | argument (x : Argument α)
  | fragmentSpread (x : FragmentSpread α)
  | inlineFragment (x : InlineFragment α)
  | fragmentDefinition (x : FragmentDefinition α)
  | intValue (x : Literal α)
  | floatValue (x : Literal α)
  | stringValue (x : Literal α)
  | booleanValue (x : BooleanValue α)
  | enumValue (x : Literal α)
  | listValue (x : ListValue α)
  | objectValue (x : ObjectValue α)
  | objectField (x : ObjectField α)
  | directive (x : Directive α)
  | namedType (x : NamedType α)
  | listType (x : ListType α)
  | nonNullType (x : NonNullType α)
  | schemaDocument (x : SchemaDocument α)
  | typeDefinition (x : TypeDefinition α)
  | fieldDefinition (x : FieldDefinition α)
  | argumentDefinition (x : ArgumentDefinition α)
  | interfaceDefinition (x : InterfaceDefinition α)
  | unionDefinition (x : UnionDefinition α)
  | scalarDefinition (x : ScalarDefinition α)
  | enumDefinition (x : EnumDefinition α)
  | enumValueDefinition (x : EnumValueDefinition α)
  | inputObjectDefinition (x : InputObjectDefinition α)
  | inputFieldDefinition (x : InputFieldDefinition α)

namespace Node

variable {α β : Type}

/-- The kind of a node. -/
def kind : Node α → NodeKind
  | .name _ => .name
  | .document _ => .document
  | .operationDefinition _ => .operationDefinition
  | .variableDefinition _ => .variableDefinition
  | .variableReference _ => .variableReference
  | .selectionSet _ => .selectionSet
  | .field _ => .field
  | .argument _ => .argument
  | .fragmentSpread _ => .fragmentSpread
  | .inlineFragment _ => .inlineFragment
  | .fragmentDefinition _ => .fragmentDefinition
  | .intValue _ => .intValue
  | .floatValue _ => .floatValue
  | .stringValue _ => .stringValue
  | .booleanValue _ => .booleanValue
  | .enumValue _ => .enumValue
  | .listValue _ => .listValue
  | .objectValue _ => .objectValue
  | .objectField _ => .objectField
  | .directive _ => .directive
  | .namedType _ => .namedType
  | .listType _ => .listType
  | .nonNullType _ => .nonNullType
  | .schemaDocument _ => .schemaDocument
  | .typeDefinition _ => .typeDefinition
  | .fieldDefinition _ => .fieldDefinition
  | .argumentDefinition _ => .argumentDefinition
  | .interfaceDefinition _ => .interfaceDefinition
  | .unionDefinition _ => .unionDefinition
  | .scalarDefinition _ => .scalarDefinition
  | .enumDefinition _ => .enumDefinition
  | .enumValueDefinition _ => .enumValueDefinition
  | .inputObjectDefinition _ => .inputObjectDefinition
  | .inputFieldDefinition _ => .inputFieldDefinition

/-- The tag of a node itself. -/
def tag : Node α → α
  | .name x => x.tag
  | .document x => x.tag
  | .operationDefinition x => x.tag
  | .variableDefinition x => x.tag
  | .variableReference x => x.tag
  | .selectionSet x => x.tag
  | .field x => x.tag
  | .argument x => x.tag
  | .fragmentSpread x => x.tag
  | .inlineFragment x => x.tag
  | .fragmentDefinition x => x.tag
  | .intValue x => x.tag
  | .floatValue x => x.tag
  | .stringValue x => x.tag
  | .booleanValue x => x.tag
  | .enumValue x => x.tag
  | .listValue x => x.tag
  | .objectValue x => x.tag
  | .objectField x => x.tag
  | .directive x => x.tag
  | .namedType x => x.tag
  | .listType x => x.tag
  | .nonNullType x => x.tag
  | .schemaDocument x => x.tag
  | .typeDefinition x => x.tag
  | .fieldDefinition x => x.tag
  | .argumentDefinition x => x.tag
  | .interfaceDefinition x => x.tag
  | .unionDefinition x => x.tag
  | .scalarDefinition x => x.tag
  | .enumDefinition x => x.tag
  | .enumValueDefinition x => x.tag
  | .inputObjectDefinition x => x.tag
  | .inputFieldDefinition x => x.tag

/-- Changes all tags. -/
def map (f : α → β) : Node α → Node β
  | .name x => .name (x.map f)
  | .document x => .document (x.map f)
  | .operationDefinition x => .operationDefinition (x.map f)
  | .variableDefinition x => .variableDefinition (x.map f)
  | .variableReference x => .variableReference (x.map f)
  | .selectionSet x => .selectionSet (x.map f)
  | .field x => .field (x.map f)
  | .argument x => .argument (x.map f)
  | .fragmentSpread x => .fragmentSpread (x.map f)
  | .inlineFragment x => .inlineFragment (x.map f)
  | .fragmentDefinition x => .fragmentDefinition (x.map f)
  | .intValue x => .intValue (x.map f)
  | .floatValue x => .floatValue (x.map f)
  | .stringValue x => .stringValue (x.map f)
  | .booleanValue x => .booleanValue (x.map f)
  | .enumValue x => .enumValue (x.map f)
  | .listValue x => .listValue (x.map f)
  | .objectValue x => .objectValue (x.map f)
  | .objectField x => .objectField (x.map f)
  | .directive x => .directive (x.map f)
  | .namedType x => .namedType (x.map f)
  | .listType x => .listType (x.map f)
  | .nonNullType x => .nonNullType (x.map f)
  | .schemaDocument x => .schemaDocument (x.map f)
  | .typeDefinition x => .typeDefinition (x.map f)
  | .fieldDefinition x => .fieldDefinition (x.map f)
  | .argumentDefinition x => .argumentDefinition (x.map f)
  | .interfaceDefinition x => .interfaceDefinition (x.map f)
  | .unionDefinition x => .unionDefinition (x.map f)
  | .scalarDefinition x => .scalarDefinition (x.map f)
  | .enumDefinition x => .enumDefinition (x.map f)
  | .enumValueDefinition x => .enumValueDefinition (x.map f)
  | .inputObjectDefinition x => .inputObjectDefinition (x.map f)
  | .inputFieldDefinition x => .inputFieldDefinition (x.map f)

/-- What a node is called where it is listed: the text of a leaf, or the name that
it has, defines or applies to; empty for a node without one. -/
def label : Node α → String
  | .name x => x.value
  | .operationDefinition x => (x.name.map Name.value).getD ""
  | .variableDefinition x => x.var.name.value
  | .variableReference x => x.name.value
  | .field x => x.name.value
  | .argument x => x.name.value
  | .fragmentSpread x => x.name.value
  | .inlineFragment x => x.typeCondition.name.value
  | .fragmentDefinition x => x.name.value
  | .intValue x => x.text
  | .floatValue x => x.text
  | .stringValue x => x.text
  | .booleanValue x => if x.value then "true" else "false"
  | .enumValue x => x.text
  | .objectField x => x.name.value
  | .directive x => x.name.value
  | .namedType x => x.name.value
  | .typeDefinition x => x.name.value
  | .fieldDefinition x => x.name.value
  | .argumentDefinition x => x.name.value
  | .interfaceDefinition x => x.name.value
  | .unionDefinition x => x.name.value
  | .scalarDefinition x => x.name.value
  | .enumDefinition x => x.name.value
  | .enumValueDefinition x => x.name.value
  | .inputObjectDefinition x => x.name.value
  | .inputFieldDefinition x => x.name.value
  | .document _ | .selectionSet _ | .listValue _ | .objectValue _ | .listType _
  | .nonNullType _ | .schemaDocument _ => ""

@[simp] theorem kind_map (f : α → β) (n : Node α) : (n.map f).kind = n.kind := by
  cases n <;> rfl

end Node

end GraphQLSyntax
