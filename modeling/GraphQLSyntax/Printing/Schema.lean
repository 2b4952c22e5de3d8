import GraphQLSyntax.Printing.Value
import GraphQLSyntax.Tree.Schema

/-!
# Printing schema documents

Fields and enum values are blocks with one of them a line; definitions are
separated by an empty line, and the document ends with a line end.
-/

namespace GraphQLSyntax

variable {α : Type}

def ArgumentDefinition.print (x : ArgumentDefinition α) : String :=
  x.name.value ++ ": " ++ x.type.print ++ Value.printDefault x.defaultValue

def FieldDefinition.print (x : FieldDefinition α) : String :=
  x.name.value ++
    enclose "(" (joinParts (x.arguments.map ArgumentDefinition.print) ", ") ")" ++ ": " ++
    x.type.print

def InputFieldDefinition.print (x : InputFieldDefinition α) : String :=
  x.name.value ++ ": " ++ x.type.print ++ Value.printDefault x.defaultValue

def TypeDefinition.print (x : TypeDefinition α) : String :=
  "type " ++ x.name.value ++ " " ++
    enclose "implements " (joinParts (x.interfaces.map NamedType.print) ", ") " " ++
    block (x.fields.map FieldDefinition.print)

def InterfaceDefinition.print (x : InterfaceDefinition α) : String :=
  "interface " ++ x.name.value ++ " " ++ block (x.fields.map FieldDefinition.print)

def UnionDefinition.print (x : UnionDefinition α) : String :=
  "union " ++ x.name.value ++ " = " ++ joinParts (x.types.map NamedType.print) " | "

def ScalarDefinition.print (x : ScalarDefinition α) : String :=
  "scalar " ++ x.name.value

def EnumValueDefinition.print (x : EnumValueDefinition α) : String :=
  x.name.value

def EnumDefinition.print (x : EnumDefinition α) : String :=
  "enum " ++ x.name.value ++ " " ++ block (x.values.map EnumValueDefinition.print)

def InputObjectDefinition.print (x : InputObjectDefinition α) : String :=
  "input " ++ x.name.value ++ " " ++ block (x.fields.map InputFieldDefinition.print)

def SchemaDefinition.print : SchemaDefinition α → String
  | .type x => x.print
  | .interface x => x.print
  | .union x => x.print
  | .scalar x => x.print
  | .enum x => x.print
  | .inputObject x => x.print

def SchemaDocument.print (x : SchemaDocument α) : String :=
  joinParts (x.definitions.map SchemaDefinition.print) "\n\n" ++ "\n"

end GraphQLSyntax
