import GraphQLSyntax.Text.Character

/-!
# Lines of a text

A text is cut at its line terminators, a carriage return followed by a line
feed counting as one.  The pieces are the lines; a text that ends in a
terminator has an empty last line, and the empty text has one empty line.
-/

namespace GraphQLSyntax

/-- The lines of a text whose current line begins with the characters in
`current`, read backwards. -/
def linesFrom (current : List Char) : List Char → List (List Char)
  | [] => [current.reverse]
  | c :: cs =>
    if c = '\r' ∧ cs.head? = some '\n' then
      current.reverse :: linesFrom [] cs.tail
    else if isLineTerminator c then current.reverse :: linesFrom [] cs
    else linesFrom (c :: current) cs
termination_by cs => cs.length
decreasing_by all_goals grind

/-- The lines of a text. -/
def splitLines (cs : List Char) : List (List Char) :=
  linesFrom [] cs

end GraphQLSyntax
