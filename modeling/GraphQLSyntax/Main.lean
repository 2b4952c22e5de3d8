import GraphQLSyntax.Command.Format
import GraphQLSyntax.Log.Setting

/-!
# The program

Reads the command line, looks at the files that it names, runs the command and writes
down what comes of it.
-/

namespace GraphQLSyntax.Program

/-- The fault that the system reports. -/
def readFault : IO.Error → ReadFault
  | .noFileOrDirectory .. => .notFound
  | .inappropriateType .. => .notADirectory
  | error => .system (toString error)

/-- Looks at what is at a path and, down to the given depth, beneath it. -/
def look (depth : Nat) (path : String) : IO Entry := do
  let file := System.mkFilePath [path]
  match ← (file.metadata).toBaseIO with
  | .error error => return .inaccessible (readFault error)
  | .ok metadata =>
    if metadata.type != .dir then
      match ← (IO.FS.readBinFile file).toBaseIO with
      | .ok bytes => return .file (.ok bytes)
      | .error error => return .file (.error (readFault error))
    else
      match depth with
      | 0 => return .directory []
      | depth + 1 =>
        match ← file.readDir.toBaseIO with
        | .error error => return .inaccessible (readFault error)
        | .ok found =>
          let entries ← found.toList.mapM fun entry =>
            return (entry.fileName, ← look depth (Path.join path entry.fileName))
          return .directory entries

/-- The paths that a command looks at. -/
def pathsOf : Command → List String
  | .check arguments => arguments.paths
  | .format arguments => [arguments.path]

/-- Runs a command on the files there are. -/
def execute (level : Level) (warning : Option String) (command : Command) : IO UInt32 := do
  let seen ← (pathsOf command).mapM fun path => return (path, ← look 255 path)
  let view : FileView := fun path => (seen.lookup path).getD (.inaccessible .notFound)
  let logged : Logged CommandResult := do
    if let some text := warning then Logged.record .warn text
    command.run view
  let (result, records) := logged.result
  for record in Record.upTo level records do
    IO.eprintln (record.level.description ++ " " ++ record.text)
  if let some text := result.output then IO.println text
  if let some text := result.errors then IO.eprintln text
  return if result.success then 0 else 1

end GraphQLSyntax.Program

open GraphQLSyntax in
/-- Runs the program on the words of its command line. -/
def main (words : List String) : IO UInt32 := do
  match CommandLine.parse words with
  | .error .help | .ok { command := none, .. } =>
    IO.println UsageFault.help.description
    return 0
  | .error .version =>
    IO.println UsageFault.version.description
    return 0
  | .error fault =>
    IO.eprintln ("error: " ++ fault.description)
    return 2
  | .ok { verbose, command := some command } =>
    let (level, warning) := Level.resolve verbose (← IO.getEnv "LOG_LEVEL")
    Program.execute level warning command
