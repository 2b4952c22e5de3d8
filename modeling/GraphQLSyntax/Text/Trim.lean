import GraphQLSyntax.Text.Character

/-!
# Text without white space around it
-/

namespace GraphQLSyntax

/-- The characters from the first one on that is not white space. -/
def trimFront (cs : List Char) : List Char :=
  cs.dropWhile isWhiteSpace

/-- The characters up to the last one that is not white space. -/
def trimBack (cs : List Char) : List Char :=
  (trimFront cs.reverse).reverse

/-- A text without the white space at its end. -/
def trimEnd (text : String) : String :=
  String.ofList (trimBack text.toList)

/-- A text without the white space at both ends. -/
def trim (text : String) : String :=
  String.ofList (trimBack (trimFront text.toList))

end GraphQLSyntax
