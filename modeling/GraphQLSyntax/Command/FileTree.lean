import GraphQLSyntax.Command.Path

/-!
# Files and directories

What a command sees of the files around it: for every path it is given, the entry
found there.  A directory is seen with all that is beneath it, and a file with its
bytes, unless these cannot be had.

`FileTree` is such a view made from a list of files, which all lie beneath one
directory; paths are looked up from there.
-/

namespace GraphQLSyntax

/-- Why something cannot be read. -/
inductive ReadFault
  | notFound
  | notADirectory
  | isADirectory
  /-- A name or the whole path is longer than names and paths can be. -/
  | nameTooLong
  /-- The path holds the character U+0000. -/
  | nulInPath
  /-- The bytes do not encode a text. -/
  | notText
  /-- Whatever else the system reports. -/
  | system (report : String)
deriving DecidableEq, Repr, Inhabited

/-- How a fault is reported. -/
def ReadFault.description : ReadFault → String
  | notFound => "No such file or directory (os error 2)"
  | notADirectory => "Not a directory (os error 20)"
  | isADirectory => "Is a directory (os error 21)"
  | nameTooLong => "File name too long (os error 36)"
  | nulInPath => "file name contained an unexpected NUL byte"
  | notText => "stream did not contain valid UTF-8"
  | system report => report

/-- What is found at a path. -/
inductive Entry
  | file (contents : Except ReadFault ByteArray)
  | directory (entries : List (String × Entry))
  /-- Nothing, or nothing that can be looked at. -/
  | inaccessible (fault : ReadFault)
deriving Inhabited

namespace Entry

/-- Reads a text. -/
def read : Entry → Except ReadFault String
  | file contents => do
    let bytes ← contents
    match String.fromUTF8? bytes with
    | some text => .ok text
    | none => .error .notText
  | directory _ => .error .isADirectory
  | inaccessible fault => .error fault

/-- The entry is a file. -/
def isFile : Entry → Bool
  | file _ => true
  | _ => false

/-- Puts a file into the entries of a directory, at the end of a way down through
directories, which are made where there are none. -/
def insert (contents : ByteArray) (name : String) :
    List String → List (String × Entry) → List (String × Entry)
  | way, [] =>
    match way with
    | [] => [(name, .file (.ok contents))]
    | next :: way => [(name, .directory (insert contents next way []))]
  | way, (other, entry) :: rest =>
    if other = name then
      match way, entry with
      | next :: way, .directory entries =>
        (name, .directory (insert contents next way entries)) :: rest
      | next :: way, _ => (name, .directory (insert contents next way [])) :: rest
      | [], _ => (name, .file (.ok contents)) :: rest
    else (other, entry) :: insert contents name way rest

/-- Follows the parts of a path from an entry; `above` holds the directories that
lead to it, the nearest first. -/
def follow (above : List Entry) (entry : Entry) : List PathPart → Entry
  | [] => entry
  | part :: parts =>
    match entry with
    | .inaccessible fault => .inaccessible fault
    | .file _ => .inaccessible .notADirectory
    | .directory entries =>
      match part with
      | .root => .inaccessible .notFound
      | .current => follow above entry parts
      | .parent =>
        match above with
        | [] => .inaccessible .notFound
        | parent :: above => follow above parent parts
      | .name s =>
        match entries.lookup s with
        | some found => follow (entry :: above) found parts
        | none => .inaccessible (if 255 < s.utf8ByteSize then .nameTooLong else .notFound)

end Entry

/-- What a command sees: the entry at every path. -/
abbrev FileView := String → Entry

/-- The entries beneath a directory. -/
abbrev FileTree := List (String × Entry)

namespace FileTree

/-- Adds a file, and the directories that lead to it. -/
def add (tree : FileTree) (path : String) (contents : ByteArray) : FileTree :=
  let names := (Path.parts path).filterMap fun part =>
    match part with
    | .name s => some s
    | _ => none
  match names with
  | [] => tree
  | name :: way => Entry.insert contents name way tree

/-- A path that ends in a separator or a dot stands for a directory. -/
def wantsDirectory (path : String) : Bool :=
  match path.toList.reverse with
  | '/' :: _ => true
  | ['.'] | '.' :: '/' :: _ => true
  | _ => false

/-- The view from the directory that the tree lies in. -/
def view (tree : FileTree) : FileView := fun path =>
  if path.toList.contains '\x00' then .inaccessible .nulInPath
  else if 4096 ≤ path.utf8ByteSize then .inaccessible .nameTooLong
  else if path.isEmpty then .inaccessible .notFound
  else
    match Entry.follow [] (.directory tree) (Path.parts path) with
    | .file contents =>
      if wantsDirectory path then .inaccessible .notADirectory else .file contents
    | entry => entry

end FileTree

end GraphQLSyntax
