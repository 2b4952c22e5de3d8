/-!
# Log records

What a program does can be followed in records, each of a level.  A computation
that keeps records returns its result together with them, oldest first; which of
them anybody sees is decided afterwards, by the level up to which one listens.
-/

namespace GraphQLSyntax

/-- How much a record matters; `off` is no level of a record but the level up to
which one listens to nothing. -/
inductive Level
  | off
  | error
  | warn
  | info
  | debug
  | trace
deriving DecidableEq, Repr, Inhabited

namespace Level

/-- Levels in order of decreasing importance. -/
def rank : Level → Nat
  | off => 0
  | error => 1
  | warn => 2
  | info => 3
  | debug => 4
  | trace => 5

/-- What a level is called. -/
def description : Level → String
  | off => "OFF"
  | error => "ERROR"
  | warn => "WARN"
  | info => "INFO"
  | debug => "DEBUG"
  | trace => "TRACE"

end Level

/-- A line of a log. -/
structure Record where
  level : Level
  text : String
deriving DecidableEq, Repr, Inhabited

/-- The records that one sees who listens up to the given level. -/
def Record.upTo (level : Level) (records : List Record) : List Record :=
  records.filter fun record => record.level.rank ≤ level.rank

/-- A computation that keeps records. -/
abbrev Logged := StateM (List Record)

namespace Logged

variable {β : Type}

/-- Adds a record. -/
def record (level : Level) (text : String) : Logged Unit :=
  modify (· ++ [{ level, text }])

/-- The result of a computation and all its records. -/
def result (computation : Logged β) : β × List Record :=
  computation.run []

end Logged

end GraphQLSyntax
