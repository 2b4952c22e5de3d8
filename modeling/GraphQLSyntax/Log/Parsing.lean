import GraphQLSyntax.Log.Record
import GraphQLSyntax.Parsing

/-!
# Parsing with records

Parsing a source leaves a record of what is parsed and, if the source is refused,
another one of the fault.
-/

namespace GraphQLSyntax

/-- What the documents of a grammar are called. -/
def Grammar.description : Grammar → String
  | executable => "executable"
  | schema => "schema"

/-- Parses a source and keeps records. -/
def Source.parseLogged (source : Source) (grammar : Grammar) (options : ParseOptions) :
    Logged (Except SyntaxError (Node Tag)) := do
  Logged.record .trace
    ("parsing " ++ grammar.description ++ " document \x60" ++ source.name ++ "\x60 (" ++
      toString source.length.toNat ++ " bytes)")
  match source.parseNode grammar options with
  | .ok node => return .ok node
  | .error error =>
    Logged.record .debug error.summary
    return .error error

end GraphQLSyntax
