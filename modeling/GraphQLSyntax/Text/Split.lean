/-!
# Splitting text at a separator
-/

namespace GraphQLSyntax

/-- The pieces of a text between separators, given the current one read backwards. -/
def piecesFrom (separator : Char) (current : List Char) : List Char → List (List Char)
  | [] => [current.reverse]
  | c :: cs =>
    if c = separator then current.reverse :: piecesFrom separator [] cs
    else piecesFrom separator (c :: current) cs

/-- The pieces of a text between separators; there is always at least one. -/
def splitAtSeparator (separator : Char) (text : String) : List String :=
  (piecesFrom separator [] text.toList).map String.ofList

end GraphQLSyntax
