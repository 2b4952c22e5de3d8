import GraphQLSyntax.Grammar.Executable
import GraphQLSyntax.Grammar.Schema
import GraphQLSyntax.Options

/-!
# Parsing what has been read

A parser that has everything at hand that reading its source yields.  What it accepts it consumes,
and consuming a token brings the next one in front, or the fault that stands in its place; so of
two faults the one that comes first in the text is reported.

Every node is tagged, when it is complete, with a serial number that no other node of the document
has and, if the options keep locations, with the bytes from its first token to the end of the token
consumed last.
-/

namespace GraphQLSyntax

/-- What a parser knows: its source and the options, the token ahead, what reading on yields after
it, the end of the token consumed last, and how many nodes there are. -/
structure ParserState where
  source : Source
  options : ParseOptions
  ahead : Token
  upcoming : List Reading
  lastStop : UInt32 := 0
  serial : Nat := 0
deriving Inhabited

/-- A parser either returns a result or stops with a fault; either way it has
consumed some tokens. -/
abbrev Parser := EStateM Fault ParserState

namespace Parser

variable {β : Type}

/-- The token ahead. -/
def peek : Parser Token :=
  return (← get).ahead

/-- Stops with a fault at the token ahead. -/
def fail (cause : Lexeme → Cause) : Parser β := do
  let token ← peek
  throw ⟨token.start, cause token.lexeme⟩

/-- Consumes the token ahead.  The end token stays ahead for ever. -/
def advance : Parser Token := do
  let state ← get
  match state.upcoming with
  | [] =>
    set { state with lastStop := state.ahead.stop }
    return state.ahead
  | .ok next :: rest =>
    set { state with ahead := next, upcoming := rest, lastStop := state.ahead.stop }
    return state.ahead
  | .error fault :: _ => throw fault

/-- The tag of a node that begins at `start` and ends here. -/
def mark (start : UInt32) : Parser Tag :=
  modifyGet fun state =>
    ({ id := state.serial
       location := state.options.locate state.source start state.lastStop },
      { state with serial := state.serial + 1 })

/-- Nothing is kept of the way; a limit that is used up is a fault like others. -/
instance : ParserCore Parser where
  Frame := Unit
  enter := pure ()
  nested _ production := production
  round item := item
  peek := peek
  advance := advance
  advanceEnd := advance
  fail := fail
  exhausted := fail .unexpected
  mark := mark

/-! Nothing is kept of the way, so a round of a repetition and a production that comes within
itself are just run. -/

@[simp] theorem round_eq (item : Parser β) : ParserCore.round item = item :=
  rfl

theorem typeRef_succ (limit : Nat) :
    typeRef (limit + 1) = (do
      let start ← here
      let nullable ← nullableTypeRef (typeRef limit) start
      if ← skip .bang then return .nonNull ⟨nullable, ← ParserCore.mark start⟩
      else return nullable.toTypeRef : Parser (TypeRef Tag)) :=
  rfl

theorem value_succ (const : Bool) (limit : Nat) :
    value const (limit + 1) = (do
      let start ← here
      match (← ParserCore.peek).kind with
      | .bracketOpen =>
        let values ← any .bracketOpen (value const limit) .bracketClose limit
        return .list ⟨values, ← ParserCore.mark start⟩
      | .braceOpen =>
        let _ ← expect .braceOpen
        let fields ← objectFields (value const limit) [] limit
        return .object ⟨fields, ← ParserCore.mark start⟩
      | .int => return .int (← literal)
      | .float => return .float (← literal)
      | .string => return .string (← literal)
      | .name => namedValue
      | .dollar => if const then unexpected else return .var (← var)
      | _ => unexpected : Parser (Value Tag)) :=
  rfl

theorem selectionSet_succ (limit depth : Nat) :
    selectionSet limit (depth + 1) = (do
      let start ← here
      let selections ←
        many .braceOpen (selection (selectionSet limit depth) limit) .braceClose limit
      return ⟨selections, ← ParserCore.mark start⟩ : Parser (SelectionSet Tag)) :=
  rfl

/-- Runs a parser on everything that reading the source yields.  The limit given to
the parser is above the number of tokens. -/
def run (parser : Nat → Parser β) (source : Source) (options : ParseOptions)
    (readings : List Reading) : Except Fault β :=
  match readings with
  | [] => .error ⟨0, .unexpected { kind := .eof }⟩
  | .error fault :: _ => .error fault
  | .ok ahead :: upcoming =>
    match parser (readings.length + 1) { source, options, ahead, upcoming } with
    | .ok x _ => .ok x
    | .error fault _ => .error fault

end Parser

end GraphQLSyntax
