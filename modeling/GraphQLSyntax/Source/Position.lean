import GraphQLSyntax.Source
import GraphQLSyntax.Text.Line

/-!
# Lines and columns

Offsets count bytes and may fall anywhere, also inside a character or between
the two halves of a line end, so a position is computed on the encoded text:
its line counts the terminators that start before the offset, and its column
counts the characters that start between the last of those and the offset.

The excerpt of a source at a position shows up to three numbered lines and a
caret under the column.
-/

namespace GraphQLSyntax

/-- The number of bytes of the line terminator at the front of an encoded
text, and zero if there is none. -/
def terminatorLength : List UInt8 → Nat
  | 0x0D :: 0x0A :: _ => 2
  | 0x0D :: _ => 1
  | 0x0A :: _ => 1
  | 0xE2 :: 0x80 :: b :: _ => if b = 0xA8 ∨ b = 0xA9 then 3 else 0
  | _ => 0

/-- The offset and length of each line terminator of an encoded text, whose
first byte stands at `offset`. -/
def lineTerminators (offset : Nat) : List UInt8 → List (Nat × Nat)
  | [] => []
  | b :: bs =>
    let length := terminatorLength (b :: bs)
    if length = 0 then lineTerminators (offset + 1) bs
    else (offset, length) :: lineTerminators (offset + length) (bs.drop (length - 1))
termination_by bs => bs.length
decreasing_by all_goals grind

/-- Bytes that go on with a character rather than start one. -/
def isContinuation (b : UInt8) : Bool :=
  b &&& 0xC0 == 0x80

/-- A line and a column, both counted from one. -/
structure Position where
  line : Nat
  column : Nat
deriving DecidableEq, Repr, Inhabited

namespace Position

/-- The position of a byte offset in a text; an offset past the end stands for
the end. -/
def ofOffset (body : String) (offset : Nat) : Position :=
  let bytes := encode body
  let offset := min offset bytes.length
  let before := (lineTerminators 0 bytes).takeWhile fun t => t.1 < offset
  let lineStart := (before.getLast?.map fun t => t.1 + t.2).getD 0
  let onLine := (bytes.take offset).drop lineStart
  { line := before.length + 1
    column := onLine.countP (fun b => !isContinuation b) + 1 }

/-- A number, right-aligned to the given width. -/
def alignRight (width n : Nat) : String :=
  let digits := toString n
  "".pushn ' ' (width - digits.length) ++ digits

/-- One line of an excerpt: its number, a colon, its text and a line end. -/
def numberedLine (width n : Nat) (text : List Char) : String :=
  alignRight width n ++ ": " ++ String.ofList text ++ "\n"

/-- The lines of `body` around a position, with a caret below its column.  The
line before is left out on the first line and the line after on the last; the
numbers are as wide as that of the line after, whether it exists or not. -/
def excerpt (body : String) (position : Position) : String :=
  let lines := splitLines body.toList
  let line := position.line
  let width := (toString (line + 1)).length
  let before :=
    if 2 ≤ line then numberedLine width (line - 1) (lines[line - 2]?.getD [])
    else ""
  let caret := "".pushn ' ' (2 + width + (position.column - 1)) ++ "^\n"
  let after :=
    match lines[line]? with
    | some text => numberedLine width (line + 1) text
    | none => ""
  before ++ numberedLine width line (lines[line - 1]?.getD []) ++ caret ++ after

end Position

end GraphQLSyntax
