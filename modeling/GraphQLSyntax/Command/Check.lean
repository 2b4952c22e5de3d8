import GraphQLSyntax.Command.Arguments
import GraphQLSyntax.Command.Collection
import GraphQLSyntax.Command.Diagnostic
import GraphQLSyntax.Command.Result
import GraphQLSyntax.Log.Parsing
import GraphQLSyntax.Text.Trim

/-!
# Checking files

The files at or beneath given paths are parsed, and the syntax errors found are
reported in the order of the files.  If anything cannot be read, only that is
reported.
-/

namespace GraphQLSyntax

/-- What has come of checking files. -/
structure CheckReport where
  /-- The number of files. -/
  checked : Nat
  skipped : Nat
  faults : List InputFault
  errors : List SyntaxError

namespace CheckReport

/-- Nothing is wrong. -/
def isClean (report : CheckReport) : Bool :=
  report.faults.isEmpty && report.errors.isEmpty

/-- What could not be read, one item a line. -/
def faultText (report : CheckReport) : String :=
  let lines := report.faults.map fun fault => "  * " ++ fault.description ++ "\n"
  CommandResult.crossMark ++ " Failed to read GraphQL files:\n" ++
    trimEnd (String.join lines)

/-- The syntax errors as JSON. -/
def jsonText (report : CheckReport) : String :=
  (Json.array (report.errors.map SyntaxError.toJson)).pretty 0

/-- The numbers of files, if there is nothing wrong. -/
def cleanText (report : CheckReport) : String :=
  CommandResult.checkMark ++ " All GraphQL parsed successfully:\n  * Checked " ++
    CommandResult.countOf report.checked "file" ++ ".\n  * Skipped " ++
    CommandResult.countOf report.skipped "non-graphql file" ++ "."

/-- The messages of the syntax errors, then a list of them with one a line. -/
def errorText (report : CheckReport) : String :=
  String.join (report.errors.map fun error => error.message ++ "\n\n") ++
    CommandResult.crossMark ++ " " ++
    CommandResult.countOf report.errors.length "syntax error" ++ " in " ++
    CommandResult.countOf report.checked "file" ++ ":\n" ++
    "\n".intercalate (report.errors.map fun error => "  * " ++ error.summary)

/-- The result of the command. -/
def result (report : CheckReport) (json : Bool) : CommandResult :=
  if !report.faults.isEmpty then .failed report.faultText
  else if json then
    { CommandResult.succeeded report.jsonText with success := report.isClean }
  else if report.errors.isEmpty then .succeeded report.cleanText
  else .failed report.errorText

end CheckReport

/-- The grammar that files are parsed by. -/
def Grammar.ofFlag (schema : Bool) : Grammar :=
  if schema then .schema else .executable

/-- Checks a single file: an input fault, a syntax error, or nothing. -/
def Grammar.checkFile (grammar : Grammar) (file : String × Entry) :
    Logged (Except InputFault (Option SyntaxError)) := do
  match file.2.read with
  | .error fault => return .error (.unread file.1 fault)
  | .ok body =>
    let source : Source := { body, name := file.1 }
    match ← source.parseLogged grammar { noLocation := true } with
    | .ok _ => return .ok none
    | .error error => return .ok (some error)

namespace CheckArguments

/-- Checks files. -/
def report (arguments : CheckArguments) (view : FileView) : Logged CheckReport := do
  let collection ← Collection.collect view arguments.paths arguments.extensions
  let outcomes ← collection.files.mapM (Grammar.ofFlag arguments.schema).checkFile
  let errors := outcomes.filterMap fun outcome => outcome.toOption.join
  let unread := outcomes.filterMap fun
    | .error fault => some fault
    | .ok _ => none
  let report : CheckReport :=
    { checked := collection.files.length
      skipped := collection.skipped
      faults := collection.faults ++ unread
      errors }
  Logged.record .debug
    ("Checked " ++ toString report.checked ++ " files: " ++ toString report.errors.length ++
      " syntax errors, " ++ toString report.faults.length ++ " I/O errors.")
  return report

/-- Runs the command. -/
def run (arguments : CheckArguments) (view : FileView) : Logged CommandResult :=
  return (← arguments.report view).result arguments.json

end CheckArguments

end GraphQLSyntax
