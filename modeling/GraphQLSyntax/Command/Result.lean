/-!
# Results of commands
-/

namespace GraphQLSyntax

/-- What a command leaves behind: whether it succeeded, and what is to be written to
the standard output and to the standard error stream, if anything. -/
structure CommandResult where
  success : Bool
  output : Option String
  errors : Option String
deriving DecidableEq, Repr, Inhabited

namespace CommandResult

/-- Success, and a text for the standard output. -/
def succeeded (text : String) : CommandResult :=
  { success := true, output := some text, errors := none }

/-- Failure, and a text for the standard error stream. -/
def failed (text : String) : CommandResult :=
  { success := false, output := none, errors := some text }

/-- The sign of success in texts. -/
def checkMark : String := "\u2705"

/-- The sign of failure in texts. -/
def crossMark : String := "\u274C"

/-- A number of things of a kind. -/
def countOf (count : Nat) (noun : String) : String :=
  toString count ++ " " ++ noun ++ (if count = 1 then "" else "s")

end CommandResult

end GraphQLSyntax
