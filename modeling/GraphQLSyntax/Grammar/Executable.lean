import GraphQLSyntax.Grammar.Value
import GraphQLSyntax.Tree.Executable

/-!
# Executable documents

The productions of operations, fragments and selections.
-/

namespace GraphQLSyntax.Parser

open ParserCore

variable {m : Type → Type} [Monad m] [ParserCore m]

/-- FragmentName : Name but not `on` -/
def fragmentName : m (Name Tag) := do
  if ← seesKeyword "on" then fail fun lexeme => .reservedName lexeme.text
  else name

/-- The name of a field, perhaps with an alias before it -/
def fieldNames : m (Option (Name Tag) × Name Tag) := do
  let first ← name
  if ← skip .colon then return (some first, ← name)
  else return (none, first)

/-- A selection set if an opening brace is ahead -/
def selectionSetOption (selectionSet : m (SelectionSet Tag)) : m (Option (SelectionSet Tag)) := do
  if ← sees .braceOpen then return some (← selectionSet)
  else return none

/-- Field : Name, perhaps with an alias before it, Arguments, Directives and
perhaps a selection set -/
def field (selectionSet : m (SelectionSet Tag)) (limit : Nat) : m (Field Tag) := do
  let start ← here
  let names ← fieldNames
  let arguments ← arguments limit
  let directives ← directives limit
  let selectionSet ← selectionSetOption selectionSet
  return ⟨names.1, names.2, arguments, directives, selectionSet, ← mark start⟩

/-- What begins with `...`: an inline fragment if `on` comes next, otherwise a
fragment spread -/
def fragment (selectionSet : m (SelectionSet Tag)) (limit : Nat) :
    m (Selection Tag) := do
  let start ← here
  let _ ← expect .spread
  if ← seesKeyword "on" then
    let _ ← advance
    let typeCondition ← namedType
    let directives ← directives limit
    let selectionSet ← selectionSet
    return .inline ⟨typeCondition, directives, selectionSet, ← mark start⟩
  else
    let name ← fragmentName
    let directives ← directives limit
    return .spread ⟨name, directives, ← mark start⟩

/-- Selection : Field | FragmentSpread | InlineFragment -/
def selection (selectionSet : m (SelectionSet Tag)) (limit : Nat) :
    m (Selection Tag) := do
  if ← sees .spread then fragment selectionSet limit
  else return .field (← field selectionSet limit)

/-- SelectionSet : `{` Selection+ `}` -/
def selectionSet (limit : Nat) : Nat → m (SelectionSet Tag)
  | 0 => exhausted
  | depth + 1 => do
    let frame ← enter
    let start ← here
    let selections ←
      many .braceOpen (selection (nested frame (selectionSet limit depth)) limit) .braceClose limit
    return ⟨selections, ← mark start⟩

/-- VariableDefinition : Variable `:` Type DefaultValue -/
def variableDefinition (limit : Nat) : m (VariableDefinition Tag) := do
  let start ← here
  let var ← var
  let _ ← expect .colon
  let type ← typeRef limit
  let defaultValue ← defaultValue limit
  return ⟨var, type, defaultValue, ← mark start⟩

/-- OperationDefinition : SelectionSet | OperationType Name VariableDefinitions
Directives SelectionSet -/
def operationDefinition (limit : Nat) : m (OperationDefinition Tag) := do
  let start ← here
  if ← sees .braceOpen then
    let selectionSet ← selectionSet limit limit
    return ⟨.query, none, [], [], selectionSet, ← mark start⟩
  else
    match OperationType.ofKeyword? (← peek).lexeme.text with
    | none => unexpected
    | some operation =>
      let _ ← advance
      let name ← name
      let variableDefinitions ← parenthesized (variableDefinition limit) limit
      let directives ← directives limit
      let selectionSet ← selectionSet limit limit
      return ⟨operation, some name, variableDefinitions, directives, selectionSet,
        ← mark start⟩

/-- FragmentDefinition : `fragment` FragmentName `on` NamedType Directives
SelectionSet -/
def fragmentDefinition (limit : Nat) : m (FragmentDefinition Tag) := do
  let start ← here
  expectKeyword "fragment"
  let name ← fragmentName
  expectKeyword "on"
  let typeCondition ← namedType
  let directives ← directives limit
  let selectionSet ← selectionSet limit limit
  return ⟨name, typeCondition, directives, selectionSet, ← mark start⟩

/-- Definition : OperationDefinition | FragmentDefinition -/
def definition (limit : Nat) : m (Definition Tag) := do
  if (← sees .braceOpen) || (← seesKeyword "query") || (← seesKeyword "mutation") then
    return .operation (← operationDefinition limit)
  else if ← seesKeyword "fragment" then
    return .fragment (← fragmentDefinition limit)
  else unexpected

/-- Document : Definition+ -/
def document (limit : Nat) : m (Document Tag) := do
  let start ← here
  let definitions ← untilEnd (definition limit) limit
  return ⟨definitions, ← mark start⟩

end GraphQLSyntax.Parser
