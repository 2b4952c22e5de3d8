import GraphQLSyntax.Log.Record
import GraphQLSyntax.Text.Trim

/-!
# The level up to which one listens

The level can be asked for on the command line and set in the environment.
-/

namespace GraphQLSyntax.Level

/-- The level of the given name in the environment, which is in upper or lower case
throughout. -/
def ofSetting? (name : String) : Option Level :=
  match name with
  | "DEBUG" | "debug" | "VERBOSE" | "verbose" => some debug
  | "INFO" | "info" => some info
  | "TRACE" | "trace" => some trace
  | "WARN" | "warn" => some warn
  | _ => none

/-- The level to listen up to, and a warning if the environment does not make sense:
verbosity wins over the environment, and by default it is `info`. -/
def resolve (verbose : Bool) (setting : Option String) : Level × Option String :=
  if verbose then (debug, none)
  else
    match setting.map trim with
    | none => (info, none)
    | some name =>
      match ofSetting? name with
      | some level => (level, none)
      | none =>
        let text := "Invalid \x60LOG_LEVEL\x60 environment variable value: \x60"
        (info, some (text ++ name ++ "\x60"))

end GraphQLSyntax.Level
