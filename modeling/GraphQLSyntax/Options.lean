import GraphQLSyntax.Json
import GraphQLSyntax.Source.Location

/-!
# Parse options

Options decide what is kept about where a node was read.  They can be given as
JSON, by name or by position.
-/

namespace GraphQLSyntax

/-- What to leave out of a parsed tree. -/
structure ParseOptions where
  /-- Nodes have no location. -/
  noLocation : Bool := false
  /-- Locations have offsets but no source. -/
  noSource : Bool := false
deriving DecidableEq, Repr, Inhabited

namespace ParseOptions

/-- The location of a node of the source, as far as it is kept. -/
def locate (options : ParseOptions) (source : Source) (start stop : UInt32) : Option Location :=
  if options.noLocation then none
  else some { start, stop, source := if options.noSource then none else some source }

/-- Reads a flag, which is off if it is not given. -/
def flag? : Option Json → Option Bool
  | none => some false
  | some (.bool b) => some b
  | some _ => none

/-- Reads options from JSON: an object with the keys `noLocation` and `noSource`, others
being ignored, or an array of at most two flags in that order. -/
def ofJson? : Json → Option ParseOptions
  | .object fields => do
    let noLocation ← flag? (fields.lookup "noLocation")
    let noSource ← flag? (fields.lookup "noSource")
    some { noLocation, noSource }
  | .array items => do
    if 2 < items.length then none
    let noLocation ← flag? items[0]?
    let noSource ← flag? items[1]?
    some { noLocation, noSource }
  | _ => none

end ParseOptions

end GraphQLSyntax
