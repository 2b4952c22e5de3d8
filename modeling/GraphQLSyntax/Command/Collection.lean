import GraphQLSyntax.Command.FileTree
import GraphQLSyntax.Log.Record
import GraphQLSyntax.Text.Quoted

/-!
# Collecting files

The files found at or beneath given paths, as far as their extensions are asked for,
sorted by their paths.  A file that is the only path given is collected whatever its
extension.
-/

namespace GraphQLSyntax

/-- Why a file is missing from a collection, or from what a command has looked at. -/
inductive InputFault
  /-- Nothing can be found out about what is at the path. -/
  | unvisited (path : String) (fault : ReadFault)
  /-- The file at the path cannot be read. -/
  | unread (path : String) (fault : ReadFault)
deriving DecidableEq, Repr, Inhabited

/-- How a fault is reported. -/
def InputFault.description : InputFault → String
  | unvisited path fault =>
    "IO error for operation on " ++ path ++ ": " ++ fault.description ++ ": " ++
      fault.description
  | unread path fault => "Failed to read " ++ path ++ ": " ++ fault.description

namespace Entry

mutual

/-- Everything at and beneath a path, a directory before its entries. -/
def walk (path : String) : Entry → List (String × Entry)
  | .directory entries => (path, .directory entries) :: walkAll path entries
  | entry => [(path, entry)]
termination_by structural entry => entry

/-- Everything in a directory. -/
def walkAll (directory : String) : List (String × Entry) → List (String × Entry)
  | [] => []
  | (name, entry) :: rest => walk (Path.join directory name) entry ++ walkAll directory rest
termination_by structural entries => entries

end

end Entry

/-- What has been found. -/
structure Collection where
  files : List (String × Entry) := []
  /-- The number of files that were passed over because of their extension. -/
  skipped : Nat := 0
  faults : List InputFault := []

namespace Collection

/-- Extensions are meant without the dot in front, and each of them once. -/
def normalExtensions (extensions : List String) : List String :=
  (extensions.map fun extension =>
    match extension.toList with
    | '.' :: cs => String.ofList cs
    | _ => extension).eraseDups

/-- Takes notice of what is found at a path, at or beneath a given one. -/
def visit (extensions : List String) (root : String) (collection : Collection)
    (visited : String × Entry) : Logged Collection :=
  match visited with
  | (path, .inaccessible fault) => do
    Logged.record .trace
      ("Encountered an error while iterating recursive filesystem entities at/under " ++
        quotePath root ++ ".")
    return { collection with faults := collection.faults ++ [.unvisited path fault] }
  | (path, .directory _) => do
    Logged.record .trace ("Skipping non-file: " ++ quotePath path ++ ".")
    return collection
  | (path, .file contents) => do
    if (Path.extension? path).any extensions.contains then
      Logged.record .trace ("Found file at " ++ quotePath path ++ ".")
      return { collection with files := collection.files ++ [(path, .file contents)] }
    else return { collection with skipped := collection.skipped + 1 }

/-- Collects a file that is the only path given, if nothing has been collected. -/
def proceedWithFile (view : FileView) (extensions roots : List String)
    (collection : Collection) : Logged Collection :=
  match collection.files, roots with
  | [], [root] => do
    if (view root).isFile then
      let shown := extensions.map fun extension => "\x60." ++ extension ++ "\x60"
      Logged.record .warn
        ("Proceeding with " ++ quotePath root ++
          " even though it doesn't match any of the --graphql-file-exts (" ++
          ", ".intercalate shown ++ ").")
      return { collection with
        files := [(root, view root)]
        skipped := collection.skipped - 1 }
    else return collection
  | _, _ => return collection

/-- Sorts the files. -/
def sorted (collection : Collection) : Collection :=
  { collection with
    files := collection.files.mergeSort fun file other => Path.le file.1 other.1 }

/-- Collects the files at or beneath the given paths. -/
def collect (view : FileView) (roots extensions : List String) : Logged Collection := do
  let extensions := normalExtensions extensions
  Logged.record .debug ("Scanning " ++ toString roots.length ++ " input paths...")
  let visits := roots.flatMap fun root => ((view root).walk root).map (root, ·)
  let collection ← visits.foldlM
    (fun collection (root, visited) => visit extensions root collection visited)
    { : Collection }
  let collection := (← proceedWithFile view extensions roots collection).sorted
  Logged.record .debug ("Found " ++ toString collection.files.length ++ " GraphQL files.")
  return collection

end Collection

end GraphQLSyntax
