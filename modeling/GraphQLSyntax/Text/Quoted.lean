import GraphQLSyntax.Text.Shown

/-!
# Text in diagnostics

Names and paths are shown in diagnostics in quotation marks, on one line and with
nothing in them that cannot be seen.
-/

namespace GraphQLSyntax

/-- The hexadecimal digits of a number in lower case. -/
def hexDigitsLower (n : Nat) : List Char :=
  Nat.toDigits 16 n

/-- A character inside quotation marks; those of `marks` get a backslash, as does the
backslash itself. -/
def showQuoted (marks : List Char) (c : Char) : List Char :=
  if c = '\x00' then ['\\', '0']
  else if c = '\t' then ['\\', 't']
  else if c = '\r' then ['\\', 'r']
  else if c = '\n' then ['\\', 'n']
  else if c = '\\' || marks.contains c then ['\\', c]
  else if isShown c then [c]
  else ['\\', 'u', '\x7b'] ++ hexDigitsLower c.toNat ++ ['\x7d']

/-- A text in quotation marks. -/
def quoteText (text : String) : String :=
  String.ofList ('"' :: text.toList.flatMap (showQuoted ['"']) ++ ['"'])

/-- A path in quotation marks, where apostrophes get a backslash too. -/
def quotePath (path : String) : String :=
  String.ofList ('"' :: path.toList.flatMap (showQuoted ['"', '\'']) ++ ['"'])

end GraphQLSyntax
