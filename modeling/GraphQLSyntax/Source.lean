import GraphQLSyntax.Text.Bytes
import GraphQLSyntax.Text.Quoted

/-!
# Sources

A source is the text of a document together with the name under which
diagnostics refer to it.
-/

namespace GraphQLSyntax

/-- The text of a document and its display name. -/
structure Source where
  body : String
  name : String := "GraphQL"
deriving DecidableEq, Repr, Inhabited

namespace Source

/-- The characters of the body. -/
def chars (source : Source) : List Char :=
  source.body.toList

/-- The number of bytes of the body. -/
def byteCount (source : Source) : Nat :=
  source.body.utf8ByteSize

/-- The length of the body in bytes, as far as 32 bits count. -/
def length (source : Source) : UInt32 :=
  UInt32.ofNat source.byteCount

/-- Nothing to read. -/
def isEmpty (source : Source) : Bool :=
  source.body.isEmpty

/-- A source in a few words, which do not show its body. -/
def summary (source : Source) : String :=
  "GraphQLSource \x7b name: " ++ quoteText source.name ++ ", body_len: " ++
    toString source.byteCount ++ " \x7d"

end Source

end GraphQLSyntax
