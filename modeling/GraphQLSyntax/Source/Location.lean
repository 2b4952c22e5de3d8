import GraphQLSyntax.Source.Position

/-!
# Locations

A location is the half-open range of bytes that a node was read from, with or
without the source those bytes belong to.
-/

namespace GraphQLSyntax

/-- The range of bytes from `start` up to `stop`. -/
structure Location where
  start : UInt32
  stop : UInt32
  source : Option Source
deriving DecidableEq, Repr, Inhabited

namespace Location

/-- The number of bytes covered. -/
def length (location : Location) : UInt32 :=
  if location.start ≤ location.stop then location.stop - location.start else 0

/-- No byte is covered. -/
def isEmpty (location : Location) : Bool :=
  location.stop ≤ location.start

/-- The text covered, if the source is known, the range lies inside it and
neither end falls inside a character. -/
def text? (location : Location) : Option String := do
  let source ← location.source
  if location.start ≤ location.stop then
    let before ← takeBytes? location.start.toNat source.chars
    let upTo ← takeBytes? location.stop.toNat source.chars
    some (String.ofList (upTo.drop before.length))
  else none

/-- The position of the first byte, if the source is known. -/
def startPosition? (location : Location) : Option Position :=
  location.source.map fun source =>
    Position.ofOffset source.body location.start.toNat

end Location

end GraphQLSyntax
