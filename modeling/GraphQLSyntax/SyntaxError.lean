import GraphQLSyntax.Source.Position
import GraphQLSyntax.Token

/-!
# Syntax errors

A document is refused for one cause at one byte of its source.  The cause
says what is wrong and carries what the diagnostic mentions; the wording, the
category that tools branch on, and the message with its excerpt of the source
are computed from it.
-/

namespace GraphQLSyntax

/-- Why a document is refused. -/
inductive Cause
  /-- No token starts with this character. -/
  | unexpectedCharacter (c : Char)
  /-- A number breaks off or goes on where it must not. -/
  | invalidNumber
  /-- The line or the text ends inside a string. -/
  | unterminatedString
  /-- A backslash is not followed by an escape sequence. -/
  | badEscape
  /-- A token of a certain kind must stand here. -/
  | expectedKind (kind : TokenKind) (found : Lexeme)
  /-- A certain name must stand here. -/
  | expectedKeyword (word : String) (found : Lexeme)
  /-- Nothing that may stand here starts with this token. -/
  | unexpected (found : Lexeme)
  /-- An object value repeats the name of one of its fields. -/
  | duplicateField (name : String)
  /-- A fragment is given a name that the grammar reserves. -/
  | reservedName (name : String)
deriving DecidableEq, Repr, Inhabited

/-- The categories of syntax errors. -/
inductive Category
  | lexical
  | unexpectedToken
  | duplicateInputObjectField (name : String)
  | reservedName (name : String)
deriving DecidableEq, Repr, Inhabited

/-- What a category is called. -/
def Category.description : Category → String
  | lexical => "lexer error"
  | unexpectedToken => "unexpected token"
  | duplicateInputObjectField name =>
    "duplicate input object field: \x60" ++ name ++ "\x60"
  | reservedName name => "reserved name: \x60" ++ name ++ "\x60"

namespace Cause

/-- A character as a diagnostic shows it: control characters by their code. -/
def showCharacter (c : Char) : String :=
  if isControl c then String.ofList ('\\' :: 'u' :: hexUpper4 c.toNat)
  else c.toString

/-- The wording of a cause. -/
def description : Cause → String
  | unexpectedCharacter c => "Unexpected character \"" ++ showCharacter c ++ "\""
  | invalidNumber => "Invalid number"
  | unterminatedString => "Unterminated string"
  | badEscape => "Bad character escape sequence"
  | expectedKind kind found =>
    "Expected " ++ kind.description ++ ", found " ++ found.description
  | expectedKeyword word found =>
    "Expected \"" ++ word ++ "\", found " ++ found.description
  | unexpected found => "Unexpected " ++ found.description
  | duplicateField name => "Duplicate input object field " ++ name ++ "."
  | reservedName name => "Unexpected " ++ (Lexeme.mk .name (some name)).description

/-- The category of a cause. -/
def category : Cause → Category
  | unexpectedCharacter _ | invalidNumber | unterminatedString | badEscape =>
    .lexical
  | expectedKind .. | expectedKeyword .. | unexpected _ => .unexpectedToken
  | duplicateField name => .duplicateInputObjectField name
  | reservedName name => .reservedName name

end Cause

/-- A cause and the byte it is reported at, in a source that is understood. -/
structure Fault where
  position : UInt32
  cause : Cause
deriving DecidableEq, Repr, Inhabited

/-- A fault of a particular source. -/
structure SyntaxError where
  source : Source
  fault : Fault
deriving DecidableEq, Repr, Inhabited

namespace SyntaxError

/-- The wording of the cause. -/
def description (error : SyntaxError) : String :=
  error.fault.cause.description

/-- The category of the cause. -/
def category (error : SyntaxError) : Category :=
  error.fault.cause.category

/-- No token could be formed. -/
def isLexical (error : SyntaxError) : Bool :=
  error.category == .lexical

/-- The line and column of the fault. -/
def position (error : SyntaxError) : Position :=
  Position.ofOffset error.source.body error.fault.position.toNat

/-- The message: a header with the source's name, the position and the cause,
then an empty line and the excerpt. -/
def message (error : SyntaxError) : String :=
  let position := error.position
  "Syntax Error " ++ error.source.name ++ " (" ++ toString position.line ++ ":" ++
    toString position.column ++ ") " ++ error.description ++ "\n\n" ++
    position.excerpt error.source.body

/-- The summary in one line: name, line, column and cause. -/
def summary (error : SyntaxError) : String :=
  let position := error.position
  error.source.name ++ ":" ++ toString position.line ++ ":" ++
    toString position.column ++ ": error: " ++ error.description

end SyntaxError

end GraphQLSyntax
