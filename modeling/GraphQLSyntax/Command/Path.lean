import GraphQLSyntax.Text.Split

/-!
# Paths

A path is the text that names a file or a directory, as it is given on a command
line or made from such a text and the names of entries.  Paths are compared part by
part: separators at the end, repeated ones, and dots that stand for the directory
they are in do not matter, but a dot at the front does.
-/

namespace GraphQLSyntax

/-- A part of a path, in the order in which parts are sorted. -/
inductive PathPart
  /-- The separator at the front of an absolute path. -/
  | root
  /-- A dot at the front of a path. -/
  | current
  /-- Two dots. -/
  | parent
  | name (s : String)
deriving DecidableEq, Repr, Inhabited

namespace PathPart

/-- The place among the sorts of parts. -/
def rank : PathPart → Nat
  | root => 0
  | current => 1
  | parent => 2
  | name _ => 3

/-- The text of a name, and nothing for other parts. -/
def text : PathPart → String
  | name s => s
  | _ => ""

/-- Parts are sorted by their sort first and names by their characters. -/
def isBefore (a b : PathPart) : Bool :=
  a.rank < b.rank || (a.rank == b.rank && a.text < b.text)

/-- The part that a piece of text between separators stands for; none if it is
empty or a dot. -/
def ofPiece? (piece : String) : Option PathPart :=
  if piece = "" || piece = "." then none
  else if piece = ".." then some parent
  else some (name piece)

end PathPart

namespace Path

/-- The parts of a path. -/
def parts (path : String) : List PathPart :=
  let front :=
    match path.toList with
    | '/' :: _ => [PathPart.root]
    | ['.'] | '.' :: '/' :: _ => [PathPart.current]
    | _ => []
  front ++ (splitAtSeparator '/' path).filterMap PathPart.ofPiece?

/-- The order of paths by their parts, in which a path comes before those that go on
from it. -/
def partsLe : List PathPart → List PathPart → Bool
  | [], _ => true
  | _ :: _, [] => false
  | a :: as, b :: bs => a.isBefore b || (a == b && partsLe as bs)

/-- The order in which paths are sorted. -/
def le (path other : String) : Bool :=
  partsLe (parts path) (parts other)

/-- The path of an entry of a directory. -/
def join (directory name : String) : String :=
  match directory.toList.getLast? with
  | none => name
  | some '/' => directory ++ name
  | some _ => directory ++ "/" ++ name

/-- The characters after the last dot of a name; none if there is no dot but at the
front. -/
def extensionOfName? (name : List Char) : Option (List Char) :=
  let fromEnd := name.reverse
  let stem := (fromEnd.dropWhile (· != '.')).drop 1
  if stem.isEmpty then none else some (fromEnd.takeWhile (· != '.')).reverse

/-- The extension of the file that a path names, if it names one that has one. -/
def extension? (path : String) : Option String :=
  match (parts path).getLast? with
  | some (.name s) => (extensionOfName? s.toList).map String.ofList
  | _ => none

end Path

end GraphQLSyntax
