import GraphQLSyntax.Grammar.Value
import GraphQLSyntax.Tree.Schema

/-!
# Schema documents

The productions of types, interfaces, unions, scalars, enums and input objects.
-/

namespace GraphQLSyntax.Parser

open ParserCore

variable {m : Type → Type} [Monad m] [ParserCore m]

/-- ArgumentDefinition : Name `:` Type DefaultValue -/
def argumentDefinition (limit : Nat) : m (ArgumentDefinition Tag) := do
  let start ← here
  let name ← name
  let _ ← expect .colon
  let type ← typeRef limit
  let defaultValue ← defaultValue limit
  return ⟨name, type, defaultValue, ← mark start⟩

/-- FieldDefinition : Name ArgumentDefinitions `:` Type -/
def fieldDefinition (limit : Nat) : m (FieldDefinition Tag) := do
  let start ← here
  let name ← name
  let arguments ← parenthesized (argumentDefinition limit) limit
  let _ ← expect .colon
  let type ← typeRef limit
  return ⟨name, arguments, type, ← mark start⟩

/-- InputFieldDefinition : Name `:` Type DefaultValue -/
def inputFieldDefinition (limit : Nat) : m (InputFieldDefinition Tag) := do
  let start ← here
  let name ← name
  let _ ← expect .colon
  let type ← typeRef limit
  let defaultValue ← defaultValue limit
  return ⟨name, type, defaultValue, ← mark start⟩

/-- At least one named type, as many as there are before an opening brace. -/
def namedTypesUntilBrace : Nat → m (List (NamedType Tag))
  | 0 => exhausted
  | limit + 1 => do
    let x ← round namedType
    if ← sees .braceOpen then return [x]
    else
      let xs ← namedTypesUntilBrace limit
      return x :: xs

/-- ImplementsInterfaces : `implements` NamedType+, or nothing -/
def implementsInterfaces (limit : Nat) : m (List (NamedType Tag)) := do
  if ← seesKeyword "implements" then
    let _ ← advance
    namedTypesUntilBrace limit
  else return []

/-- TypeDefinition : `type` Name ImplementsInterfaces `{` FieldDefinition* `}` -/
def typeDefinition (limit : Nat) : m (TypeDefinition Tag) := do
  let start ← here
  expectKeyword "type"
  let name ← name
  let interfaces ← implementsInterfaces limit
  let fields ← any .braceOpen (fieldDefinition limit) .braceClose limit
  return ⟨name, interfaces, fields, ← mark start⟩

/-- InterfaceDefinition : `interface` Name `{` FieldDefinition* `}` -/
def interfaceDefinition (limit : Nat) : m (InterfaceDefinition Tag) := do
  let start ← here
  expectKeyword "interface"
  let name ← name
  let fields ← any .braceOpen (fieldDefinition limit) .braceClose limit
  return ⟨name, fields, ← mark start⟩

/-- The members of a union after the first, each after a bar. -/
def unionMembers : Nat → m (List (NamedType Tag))
  | 0 => exhausted
  | limit + 1 => do
    if ← skip .pipe then
      let x ← round namedType
      let xs ← unionMembers limit
      return x :: xs
    else return []

/-- UnionDefinition : `union` Name `=` NamedType, then more after bars -/
def unionDefinition (limit : Nat) : m (UnionDefinition Tag) := do
  let start ← here
  expectKeyword "union"
  let name ← name
  let _ ← expect .equals
  let first ← namedType
  let others ← unionMembers limit
  return ⟨name, first :: others, ← mark start⟩

/-- ScalarDefinition : `scalar` Name -/
def scalarDefinition : m (ScalarDefinition Tag) := do
  let start ← here
  expectKeyword "scalar"
  let name ← name
  return ⟨name, ← mark start⟩

/-- EnumValueDefinition : Name -/
def enumValueDefinition : m (EnumValueDefinition Tag) := do
  let start ← here
  let name ← name
  return ⟨name, ← mark start⟩

/-- EnumDefinition : `enum` Name `{` EnumValueDefinition+ `}` -/
def enumDefinition (limit : Nat) : m (EnumDefinition Tag) := do
  let start ← here
  expectKeyword "enum"
  let name ← name
  let values ← many .braceOpen enumValueDefinition .braceClose limit
  return ⟨name, values, ← mark start⟩

/-- InputObjectDefinition : `input` Name `{` InputFieldDefinition* `}` -/
def inputObjectDefinition (limit : Nat) : m (InputObjectDefinition Tag) := do
  let start ← here
  expectKeyword "input"
  let name ← name
  let fields ← any .braceOpen (inputFieldDefinition limit) .braceClose limit
  return ⟨name, fields, ← mark start⟩

/-- SchemaDefinition : the definition that its first name announces -/
def schemaDefinition (limit : Nat) : m (SchemaDefinition Tag) := do
  if ← seesKeyword "type" then return .type (← typeDefinition limit)
  else if ← seesKeyword "interface" then return .interface (← interfaceDefinition limit)
  else if ← seesKeyword "union" then return .union (← unionDefinition limit)
  else if ← seesKeyword "scalar" then return .scalar (← scalarDefinition)
  else if ← seesKeyword "enum" then return .enum (← enumDefinition limit)
  else if ← seesKeyword "input" then return .inputObject (← inputObjectDefinition limit)
  else unexpected

/-- SchemaDocument : SchemaDefinition+ -/
def schemaDocument (limit : Nat) : m (SchemaDocument Tag) := do
  let start ← here
  let definitions ← untilEnd (schemaDefinition limit) limit
  return ⟨definitions, ← mark start⟩

end GraphQLSyntax.Parser
