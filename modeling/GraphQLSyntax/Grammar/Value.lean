import GraphQLSyntax.Grammar.Core
import GraphQLSyntax.Tree.Value

/-!
# Names, types, values and directives

The productions that executable and schema documents share.  Values come in two
sorts: where a constant has to stand, a variable is refused at its dollar sign,
however deep it stands.
-/

namespace GraphQLSyntax.Parser

open ParserCore

variable {m : Type → Type} [Monad m] [ParserCore m]

/-- Name -/
def name : m (Name Tag) := do
  let start ← here
  let lexeme ← expect .name
  return ⟨lexeme.text, ← mark start⟩

/-- NamedType : Name -/
def namedType : m (NamedType Tag) := do
  let start ← here
  let name ← name
  return ⟨name, ← mark start⟩

/-- A list type that begins at `start`, or a named type -/
def nullableTypeRef (item : m (TypeRef Tag)) (start : UInt32) : m (NullableTypeRef Tag) := do
  if ← skip .bracketOpen then
    let item ← item
    let _ ← expect .bracketClose
    return .list ⟨item, ← mark start⟩
  else return .named (← namedType)

/-- Type : NamedType | `[` Type `]`, either with or without `!` -/
def typeRef : Nat → m (TypeRef Tag)
  | 0 => exhausted
  | limit + 1 => do
    let frame ← enter
    let start ← here
    let nullable ← nullableTypeRef (nested frame (typeRef limit)) start
    if ← skip .bang then return .nonNull ⟨nullable, ← mark start⟩
    else return nullable.toTypeRef

/-- Variable : `$` Name -/
def var : m (Variable Tag) := do
  let start ← here
  let _ ← expect .dollar
  let name ← name
  return ⟨name, ← mark start⟩

/-- A number, a string or the like: the text of one token. -/
def literal : m (Literal Tag) := do
  let start ← here
  let token ← advance
  return ⟨token.lexeme.text, ← mark start⟩

/-- A name in the place of a value: a boolean or an enum value. -/
def namedValue : m (Value Tag) := do
  let x ← literal
  if x.text = "true" then return .boolean ⟨true, x.tag⟩
  else if x.text = "false" then return .boolean ⟨false, x.tag⟩
  else return .enum x

/-- ObjectField : Name `:` Value, where the name is none of those in `taken` -/
def objectField (value : m (Value Tag)) (taken : List String) :
    m (ObjectField Tag) := do
  let start ← here
  let lexeme := (← peek).lexeme
  if lexeme.kind == .name && taken.contains lexeme.text then
    fail fun lexeme => .duplicateField lexeme.text
  let name ← name
  let _ ← expect .colon
  let value ← value
  return ⟨name, value, ← mark start⟩

/-- The fields of an object up to its closing brace. -/
def objectFields (value : m (Value Tag)) (taken : List String) :
    Nat → m (List (ObjectField Tag))
  | 0 => exhausted
  | limit + 1 => do
    if ← skip .braceClose then return []
    else
      let x ← round (objectField value taken)
      let xs ← objectFields value (x.name.value :: taken) limit
      return x :: xs

/-- Value : a literal, a list, an object or, unless a constant is asked for, a
variable -/
def value (const : Bool) : Nat → m (Value Tag)
  | 0 => exhausted
  | limit + 1 => do
    let frame ← enter
    let start ← here
    match (← peek).kind with
    | .bracketOpen =>
      let values ← any .bracketOpen (nested frame (value const limit)) .bracketClose limit
      return .list ⟨values, ← mark start⟩
    | .braceOpen =>
      let _ ← expect .braceOpen
      let fields ← objectFields (nested frame (value const limit)) [] limit
      return .object ⟨fields, ← mark start⟩
    | .int => return .int (← literal)
    | .float => return .float (← literal)
    | .string => return .string (← literal)
    | .name => namedValue
    | .dollar => if const then unexpected else return .var (← var)
    | _ => unexpected

/-- DefaultValue : `=` Value, a constant, or nothing -/
def defaultValue (limit : Nat) : m (Option (Value Tag)) := do
  if ← skip .equals then return some (← value true limit)
  else return none

/-- Argument : Name `:` Value -/
def argument (limit : Nat) : m (Argument Tag) := do
  let start ← here
  let name ← name
  let _ ← expect .colon
  let value ← value false limit
  return ⟨name, value, ← mark start⟩

/-- Arguments : `(` Argument+ `)`, or nothing -/
def arguments (limit : Nat) : m (List (Argument Tag)) :=
  parenthesized (argument limit) limit

/-- Directive : `@` Name Arguments -/
def directive (limit : Nat) : m (Directive Tag) := do
  let start ← here
  let _ ← expect .atSign
  let name ← name
  let arguments ← arguments limit
  return ⟨name, arguments, ← mark start⟩

/-- Directives : Directive* -/
def directives (limit : Nat) : m (List (Directive Tag)) :=
  whileSees .atSign (directive limit) limit

end GraphQLSyntax.Parser
