import GraphQLSyntax.Grammar.Parser

/-!
# Parsing sources

A source is parsed by one of two grammars.
-/

namespace GraphQLSyntax

/-- The two kinds of documents. -/
inductive Grammar
  | executable
  | schema
deriving DecidableEq, Repr, Inhabited

namespace Source

/-- Parses the source as an executable document. -/
def parse (source : Source) (options : ParseOptions) :
    Except SyntaxError (Document Tag) :=
  match Parser.run Parser.document source options source.tokens with
  | .ok document => .ok document
  | .error fault => .error { source, fault }

/-- Parses the source as a schema document. -/
def parseSchema (source : Source) (options : ParseOptions) :
    Except SyntaxError (SchemaDocument Tag) :=
  match Parser.run Parser.schemaDocument source options source.tokens with
  | .ok document => .ok document
  | .error fault => .error { source, fault }

/-- Parses the source by the given grammar. -/
def parseNode (source : Source) (grammar : Grammar) (options : ParseOptions) :
    Except SyntaxError (Node Tag) :=
  match grammar with
  | .executable => (source.parse options).map .document
  | .schema => (source.parseSchema options).map .schemaDocument

end Source

end GraphQLSyntax
