/-!
# Tokens

The lexical alphabet of the language: eighteen kinds of tokens, of which
names, numbers and strings carry a value.  A lexeme is a token without its
place; a token is a lexeme together with the range of bytes it was read from.
-/

namespace GraphQLSyntax

/-- The kinds of tokens. -/
inductive TokenKind
  | eof
  | bang
  | dollar
  | parenOpen
  | parenClose
  | spread
  | colon
  | equals
  | atSign
  | bracketOpen
  | bracketClose
  | braceOpen
  | pipe
  | braceClose
  | name
  | int
  | float
  | string
deriving DecidableEq, Repr, Inhabited

namespace TokenKind

/-- How diagnostics call a kind: punctuators by their spelling. -/
def description : TokenKind → String
  | eof => "EOF"
  | bang => "!"
  | dollar => "$"
  | parenOpen => "("
  | parenClose => ")"
  | spread => "..."
  | colon => ":"
  | equals => "="
  | atSign => "@"
  | bracketOpen => "["
  | bracketClose => "]"
  | braceOpen => "\x7b"
  | pipe => "|"
  | braceClose => "\x7d"
  | name => "Name"
  | int => "Int"
  | float => "Float"
  | string => "String"

/-- Names, numbers and strings carry a value. -/
def hasValue : TokenKind → Bool
  | name | int | float | string => true
  | _ => false

/-- The kind of a punctuator of one character. -/
def ofPunctuator? (c : Char) : Option TokenKind :=
  match c with
  | '!' => some bang
  | '$' => some dollar
  | '(' => some parenOpen
  | ')' => some parenClose
  | ':' => some colon
  | '=' => some equals
  | '@' => some atSign
  | '[' => some bracketOpen
  | ']' => some bracketClose
  | '\x7b' => some braceOpen
  | '|' => some pipe
  | '\x7d' => some braceClose
  | _ => none

end TokenKind

/-- A token without its place.  The value of a name or number is its spelling,
that of a string its decoded contents. -/
structure Lexeme where
  kind : TokenKind
  value : Option String := none
deriving DecidableEq, Repr, Inhabited

namespace Lexeme

/-- How diagnostics call a lexeme: its kind and, if it has one, its value in
quotation marks. -/
def description (lexeme : Lexeme) : String :=
  match lexeme.value with
  | some value => lexeme.kind.description ++ " \"" ++ value ++ "\""
  | none => lexeme.kind.description

/-- The name spelled `word`. -/
def isKeyword (lexeme : Lexeme) (word : String) : Bool :=
  lexeme.kind == .name && lexeme.value == some word

/-- The text of the value, empty for a lexeme without one. -/
def text (lexeme : Lexeme) : String :=
  lexeme.value.getD ""

end Lexeme

/-- A lexeme and the range of bytes it was read from. -/
structure Token where
  lexeme : Lexeme
  start : UInt32
  stop : UInt32
deriving DecidableEq, Repr, Inhabited

/-- The kind of a token is that of its lexeme. -/
abbrev Token.kind (token : Token) : TokenKind :=
  token.lexeme.kind

end GraphQLSyntax
