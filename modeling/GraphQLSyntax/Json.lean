import GraphQLSyntax.Text.Character

/-!
# JSON

The values of JSON, without fractions, and their text spread over lines.
-/

namespace GraphQLSyntax

/-- A JSON value. -/
inductive Json
  | null
  | bool (b : Bool)
  | number (n : Int)
  | text (s : String)
  | array (items : List Json)
  | object (fields : List (String × Json))
deriving Inhabited

namespace Json

/-- A lower-case hexadecimal digit. -/
def hexDigitLower (n : Nat) : Char :=
  (hexDigitUpper n).toLower

/-- A character inside a JSON string. -/
def escape (c : Char) : List Char :=
  if c = '"' then ['\\', '"']
  else if c = '\\' then ['\\', '\\']
  else if c = '\x08' then ['\\', 'b']
  else if c = '\x0C' then ['\\', 'f']
  else if c = '\n' then ['\\', 'n']
  else if c = '\r' then ['\\', 'r']
  else if c = '\t' then ['\\', 't']
  else if c.toNat < 0x20 then
    ['\\', 'u', '0', '0', hexDigitLower (c.toNat / 16), hexDigitLower (c.toNat % 16)]
  else [c]

/-- A JSON string. -/
def quote (s : String) : String :=
  String.ofList ('"' :: s.toList.flatMap escape ++ ['"'])

/-- A line end and the indentation of the given depth. -/
def newLine (depth : Nat) : String :=
  "\n".pushn ' ' (2 * depth)

mutual

/-- The text of a value at the given depth, with one item or field a line. -/
def pretty (depth : Nat) : Json → String
  | null => "null"
  | bool b => if b then "true" else "false"
  | number n => toString n
  | text s => quote s
  | array [] => "[]"
  | array (x :: xs) => "[" ++ prettyItems depth "" (x :: xs) ++ newLine depth ++ "]"
  | object [] => "\x7b\x7d"
  | object (x :: xs) =>
    "\x7b" ++ prettyFields depth "" (x :: xs) ++ newLine depth ++ "\x7d"
termination_by structural x => x

/-- The items of an array, each on a new line; `before` ends the line before. -/
def prettyItems (depth : Nat) (before : String) : List Json → String
  | [] => ""
  | x :: xs =>
    before ++ newLine (depth + 1) ++ x.pretty (depth + 1) ++ prettyItems depth "," xs
termination_by structural xs => xs

/-- The fields of an object, each on a new line; `before` ends the line before. -/
def prettyFields (depth : Nat) (before : String) : List (String × Json) → String
  | [] => ""
  | (key, x) :: xs =>
    before ++ newLine (depth + 1) ++ quote key ++ ": " ++ x.pretty (depth + 1) ++
      prettyFields depth "," xs
termination_by structural xs => xs

end

end Json

end GraphQLSyntax
