import GraphQLSyntax.Command.Check
import GraphQLSyntax.Printing.Node

/-!
# Formatting a file, and running commands

The document in a file is parsed and printed.  This is the second of the two commands,
so both can be run from here on.
-/

namespace GraphQLSyntax

/-- Why a file cannot be formatted. -/
inductive FormatFault
  | input (fault : InputFault)
  | syntactic (error : SyntaxError)

/-- How a fault is reported. -/
def FormatFault.description : FormatFault → String
  | input fault => fault.description
  | syntactic error => error.message

/-- The path of a file with the extension `graphqls`, which holds a schema document. -/
def Path.namesSchema (path : String) : Bool :=
  Path.extension? path == some "graphqls"

namespace FormatArguments

/-- The document in the file, printed. -/
def printed (arguments : FormatArguments) (view : FileView) :
    Logged (Except FormatFault String) := do
  let path := arguments.path
  match (view path).read with
  | .error fault => return .error (.input (.unread path fault))
  | .ok body =>
    let schema := arguments.schema || Path.namesSchema path
    if schema then
      Logged.record .debug ("Formatting " ++ quotePath path ++ " as a schema document.")
    let source : Source := { body, name := path }
    match ← source.parseLogged (.ofFlag schema) { noSource := true } with
    | .ok node => return .ok node.print
    | .error error => return .error (.syntactic error)

/-- Runs the command. -/
def run (arguments : FormatArguments) (view : FileView) : Logged CommandResult := do
  match ← arguments.printed view with
  | .ok text => return .succeeded (trimEnd text)
  | .error fault => return .failed (CommandResult.crossMark ++ " " ++ fault.description)

end FormatArguments

/-- Runs a command. -/
def Command.run (view : FileView) : Command → Logged CommandResult
  | .check arguments => arguments.run view
  | .format arguments => arguments.run view

end GraphQLSyntax
