import GraphQLSyntax.Text.Split

/-!
# Command lines

A command line names one of two commands and says what it is to be applied to.
Words that begin with a hyphen are options, up to a word of two hyphens; an option
that takes a value finds it behind an equals sign or in the next word.  All other
words are operands.
-/

namespace GraphQLSyntax

/-- What `check` is applied to. -/
structure CheckArguments where
  extensions : List String := ["graphql", "graphqls"]
  schema : Bool := false
  json : Bool := false
  paths : List String
deriving DecidableEq, Repr, Inhabited

/-- What `fmt` is applied to. -/
structure FormatArguments where
  schema : Bool := false
  path : String
deriving DecidableEq, Repr, Inhabited

/-- A command with all it needs. -/
inductive Command
  | check (arguments : CheckArguments)
  | format (arguments : FormatArguments)
deriving DecidableEq, Repr, Inhabited

/-- What a command line asks for; there may be no command. -/
structure Invocation where
  verbose : Bool := false
  command : Option Command := none
deriving DecidableEq, Repr, Inhabited

/-- Why a command line does not lead to an invocation. -/
inductive UsageFault
  | missingArgument
  | unknownArgument
  | unknownCommand
  /-- An option has no value, or a path is empty. -/
  | invalidValue
  /-- An option that takes no value is given one. -/
  | unexpectedValue
  /-- An option that takes no value is repeated. -/
  | repeatedOption
  /-- Help is asked for. -/
  | help
  /-- The version is asked for. -/
  | version
deriving DecidableEq, Repr, Inhabited

namespace CommandLine

/-- What the words of a command line stand for. -/
inductive Item
  | flag (name : String)
  | option (name value : String)
  | operand (text : String)
deriving DecidableEq, Repr, Inhabited

/-- What may stand on a command line. -/
structure Form where
  /-- Options that take no value, apart from asking for help. -/
  flags : List String
  /-- Options of one letter, and the options they stand for. -/
  letters : List (Char × String)
  /-- Options that take a value. -/
  options : List String := []
  /-- The greatest number of operands, if there is one. -/
  operandLimit : Option Nat := none

/-- The option is one that takes no value. -/
def Form.hasFlag (form : Form) (name : String) : Bool :=
  name = "help" || form.flags.contains name

/-- What a word looks like, apart from its place. -/
inductive Word
  /-- Two hyphens: no options after it. -/
  | separator
  /-- An option by its name, perhaps with a value behind an equals sign. -/
  | long (name : String) (value : Option String)
  /-- Options of one letter. -/
  | letters (letters : List Char)
  | plain (text : String)
deriving DecidableEq, Repr, Inhabited

/-- The name of an option and, from the equals sign on, its value. -/
def longWord (cs : List Char) : Word :=
  .long (String.ofList (cs.takeWhile (· != '=')))
    (match cs.dropWhile (· != '=') with
      | [] => none
      | _ :: value => some (String.ofList value))

/-- What a word looks like. -/
def Word.ofText (text : String) : Word :=
  match text.toList with
  | ['-', '-'] => .separator
  | '-' :: '-' :: cs => longWord cs
  | '-' :: c :: cs => .letters (c :: cs)
  | _ => .plain text

/-- What has been read of a command line. -/
structure Draft where
  items : List Item := []
  /-- The option that has not got its value yet. -/
  awaiting : Option String := none
deriving DecidableEq, Repr, Inhabited

namespace Draft

/-- Makes sure that the option read last has a value and that no operand is empty.
This is not looked into before an option is accepted or the line ends, so an option that
nobody knows is reported first. -/
def settle (draft : Draft) : Except UsageFault Draft :=
  if draft.awaiting.isSome || draft.items.contains (.operand "") then .error .invalidValue
  else .ok draft

/-- Adds an item. -/
def add (draft : Draft) (item : Item) : Draft :=
  { draft with items := draft.items ++ [item] }

/-- Adds an option without a value. -/
def addFlag (form : Form) (draft : Draft) (name : String) : Except UsageFault Draft := do
  if !form.hasFlag name then throw .unknownArgument
  let draft ← draft.settle
  if name = "help" then throw .help
  if name = "version" then throw .version
  if draft.items.contains (.flag name) then throw .repeatedOption
  return draft.add (.flag name)

/-- Adds an option of one letter. -/
def addLetter (form : Form) (draft : Draft) (letter : Char) : Except UsageFault Draft :=
  match form.letters.lookup letter with
  | some name => draft.addFlag form name
  | none => .error .unknownArgument

/-- Adds an option, perhaps with a value. -/
def addLong (form : Form) (draft : Draft) (name : String) :
    Option String → Except UsageFault Draft
  | none =>
    if form.options.contains name then
      return { ← draft.settle with awaiting := some name }
    else draft.addFlag form name
  | some value =>
    if form.options.contains name then return (← draft.settle).add (.option name value)
    else if form.hasFlag name then .error .unexpectedValue
    else .error .unknownArgument

/-- Adds an operand. -/
def addOperand (form : Form) (draft : Draft) (text : String) : Except UsageFault Draft :=
  let count := draft.items.countP fun item => item matches .operand _
  if form.operandLimit.any (· ≤ count) then .error .unknownArgument
  else if draft.awaiting.isSome then .error .invalidValue
  else .ok (draft.add (.operand text))

/-- Adds a word that is not an option: the value that is awaited, or an operand. -/
def addPlain (form : Form) (draft : Draft) (text : String) : Except UsageFault Draft :=
  match draft.awaiting with
  | some name => .ok { items := draft.items ++ [.option name text] }
  | none => draft.addOperand form text

end Draft

/-- Reads the words after a command. -/
def readItems (form : Form) (draft : Draft) : List String → Except UsageFault (List Item)
  | [] => return (← draft.settle).items
  | word :: rest =>
    match Word.ofText word with
    | .separator => do return (← (← rest.foldlM (Draft.addOperand form) draft).settle).items
    | .long name value => do readItems form (← draft.addLong form name value) rest
    | .letters letters => do readItems form (← letters.foldlM (Draft.addLetter form) draft) rest
    | .plain text => do readItems form (← draft.addPlain form text) rest

/-- The operands among items. -/
def operands (items : List Item) : List String :=
  items.filterMap fun
    | .operand text => some text
    | _ => none

/-- The values given to an option. -/
def valuesOf (items : List Item) (name : String) : List String :=
  items.filterMap fun
    | .option other value => if other = name then some value else none
    | _ => none

/-- What may stand in front of the command. -/
def frontForm : Form :=
  { flags := ["verbose", "version"]
    letters := [('h', "help"), ('v', "verbose"), ('V', "version")] }

/-- What `check` takes. -/
def checkForm : Form :=
  { flags := ["verbose", "schema", "json"]
    letters := [('h', "help"), ('v', "verbose")]
    options := ["graphql-file-exts"] }

/-- What `fmt` takes. -/
def formatForm : Form :=
  { flags := ["verbose", "schema"]
    letters := [('h', "help"), ('v', "verbose")]
    operandLimit := some 1 }

/-- The command `check` with the given items. -/
def checkCommand (items : List Item) : Except UsageFault Command :=
  match operands items with
  | [] => .error .missingArgument
  | paths =>
    let given := valuesOf items "graphql-file-exts"
    let arguments : CheckArguments :=
      { schema := items.contains (.flag "schema")
        json := items.contains (.flag "json")
        paths }
    if given.isEmpty then .ok (.check arguments)
    else .ok (.check { arguments with extensions := given.flatMap (splitAtSeparator ',') })

/-- The command `fmt` with the given items. -/
def formatCommand (items : List Item) : Except UsageFault Command :=
  match operands items with
  | [] => .error .missingArgument
  | path :: _ => .ok (.format { schema := items.contains (.flag "schema"), path })

/-- The form of a command and what it makes of its items, by the name of the
command. -/
def command? (name : String) : Option (Form × (List Item → Except UsageFault Command)) :=
  if name = "check" then some (checkForm, checkCommand)
  else if name = "fmt" then some (formatForm, formatCommand)
  else none

/-- The word names a command or asks for help. -/
def isCommandName (name : String) : Bool :=
  name = "help" || (command? name).isSome

/-- The fault to which asking for help on the given topic leads.  There is help on every
command, but no command has topics of its own. -/
def helpFault : List String → UsageFault
  | [] => .help
  | [name] => if isCommandName name then .help else .unknownCommand
  | _ => .unknownCommand

/-- Reads the options in front of the command; the second result begins with the name of
the command, if there is one.  A separator must not stand in front of it: the word after
it would be an operand, and there are none here. -/
def readFront (draft : Draft) : List String → Except UsageFault (List Item × List String)
  | [] => .ok (draft.items, [])
  | word :: rest =>
    match Word.ofText word with
    | .separator =>
      match rest with
      | [] => .ok (draft.items, [])
      | next :: _ => .error (if isCommandName next then .unknownArgument else .unknownCommand)
    | .long name value => do readFront (← draft.addLong frontForm name value) rest
    | .letters letters => do readFront (← letters.foldlM (Draft.addLetter frontForm) draft) rest
    | .plain _ => .ok (draft.items, word :: rest)

/-- Reads the words of a command line, the name of the program left out. -/
def parse (words : List String) : Except UsageFault Invocation := do
  let (front, words) ← readFront {} words
  let verbose := front.contains (.flag "verbose")
  match words with
  | [] => return { verbose }
  | name :: rest =>
    match command? name with
    | none => throw (if name = "help" then helpFault rest else .unknownCommand)
    | some (form, make) =>
      let items ← readItems form {} rest
      return {
        verbose := verbose || items.contains (.flag "verbose")
        command := some (← make items) }

end CommandLine

/-- What a user is told whose command line is not understood. -/
def UsageFault.description : UsageFault → String
  | missingArgument => "a required argument is missing"
  | unknownArgument => "unexpected argument"
  | unknownCommand => "unrecognized subcommand"
  | invalidValue => "a value is required but none was supplied"
  | unexpectedValue => "a value was supplied to an option that takes none"
  | repeatedOption => "an option cannot be used multiple times"
  | help => "usage: graphql [--verbose] check|fmt [OPTIONS] PATHS"
  | version => "graphql"

end GraphQLSyntax
