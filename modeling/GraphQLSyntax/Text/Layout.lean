import GraphQLSyntax.Text.Character

/-!
# Laying out text

Joining parts, putting text between delimiters, blocks of indented lines, and
quoted strings, as documents are printed with them.
-/

namespace GraphQLSyntax

/-- The parts that are not empty, with a separator between them. -/
def joinParts (parts : List String) (separator : String) : String :=
  separator.intercalate (parts.filter fun part => !part.isEmpty)

/-- A text between two others, or nothing if it is empty. -/
def enclose (before text after : String) : String :=
  if text.isEmpty then "" else before ++ text ++ after

/-- Indents all lines but the first by two spaces. -/
def indentLines (text : String) : String :=
  String.ofList (text.toList.flatMap fun c => if c = '\n' then ['\n', ' ', ' '] else [c])

/-- Items in braces, each on lines of its own that are indented by two spaces. -/
def block (items : List String) : String :=
  let body := joinParts items "\n"
  if body.isEmpty then "\x7b\x7d"
  else "\x7b\n  " ++ indentLines body ++ "\n\x7d"

/-- A character as it is written inside a string: quotation marks, backslashes,
control characters and line separators are escaped. -/
def escapeCharacter (c : Char) : List Char :=
  if c = '"' then ['\\', '"']
  else if c = '\\' then ['\\', '\\']
  else if c = '\x08' then ['\\', 'b']
  else if c = '\x0C' then ['\\', 'f']
  else if c = '\n' then ['\\', 'n']
  else if c = '\r' then ['\\', 'r']
  else if c = '\t' then ['\\', 't']
  else if isControl c || c == '\u2028' || c == '\u2029' then
    '\\' :: 'u' :: hexUpper4 c.toNat
  else [c]

/-- A string value as it is written in a document. -/
def quote (value : String) : String :=
  String.ofList ('"' :: value.toList.flatMap escapeCharacter ++ ['"'])

end GraphQLSyntax
