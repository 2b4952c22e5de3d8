import GraphQLSyntax.Parsing

/-!
# Reading tokens when they are needed

A parser has one token ahead, and asks for the next one when it consumes that, by the offset where
it ends.  The productions are the same, but the steps that they are put together from are others:
here tokens are asked for one by one, and an account is kept, of all offsets at which tokens were
asked for, and of how deep the calls of productions from within themselves went.

Nothing is taken for granted of the way to the end.  A round of a repetition, and a production
within itself, which has not consumed a token stops the parser; so does the end token if it is
consumed anywhere else than where the document ends, and a limit that is used up.  None of this is
a fault of the text.
-/

namespace GraphQLSyntax

namespace OnDemand

/-- Why a parser stops. -/
inductive Stop
  /-- There is a fault in the text. -/
  | fault (fault : Fault)
  /-- No token has been consumed on the way around. -/
  | idle
  /-- The end token is to be consumed before the document ends. -/
  | pastEnd
  /-- The limit is used up. -/
  | limit
deriving DecidableEq, Repr

/-- What a parser has asked for, and how deep it went. -/
structure Account where
  /-- The offsets at which a token was asked for, the last one first. -/
  requests : List UInt32 := []
  /-- How many productions are under way within themselves. -/
  depth : Nat := 0
  /-- How many there have been at once. -/
  deepest : Nat := 0
deriving Repr

/-- What a parser knows: the source and the options, the token ahead, the end of the token consumed
last, and how many nodes there are. -/
structure State where
  source : Source
  options : ParseOptions
  ahead : Token
  lastStop : UInt32 := 0
  serial : Nat := 0
  account : Account

end OnDemand

/-- A parser that reads tokens when they are needed. -/
abbrev OnDemand := EStateM OnDemand.Stop OnDemand.State

namespace OnDemand

variable {β : Type}

/-! ## Tokens -/

/-- The token ahead. -/
def peek : OnDemand Token :=
  return (← get).ahead

/-- Stops with a fault at the token ahead. -/
def fail (cause : Lexeme → Cause) : OnDemand β := do
  let token ← peek
  throw (.fault ⟨token.start, cause token.lexeme⟩)

/-- Takes down that a token is asked for. -/
def Account.request (account : Account) (offset : UInt32) : Account :=
  { account with requests := offset :: account.requests }

/-- Asks for the token behind the one ahead, which is consumed. -/
def consume : OnDemand Token := fun state =>
  let account := state.account.request state.ahead.stop
  match state.source.readToken state.ahead.stop with
  | .ok next => .ok state.ahead { state with ahead := next, lastStop := state.ahead.stop, account }
  | .error fault => .error (.fault fault) { state with account }

/-- Consumes the token ahead, which is not the end. -/
def advance : OnDemand Token := do
  if (← peek).kind == .eof then throw .pastEnd
  else consume

/-- The tag of a node that begins at `start` and ends here. -/
def mark (start : UInt32) : OnDemand Tag :=
  modifyGet fun state =>
    ({ id := state.serial
       location := state.options.locate state.source start state.lastStop },
      { state with serial := state.serial + 1 })

/-! ## On the way around -/

/-- Where a production begins: how often a token had been asked for, and how many productions were
under way within themselves. -/
structure Frame where
  requested : Nat
  depth : Nat

/-- A production begins. -/
def enter : OnDemand Frame :=
  return ⟨(← get).account.requests.length, (← get).account.depth⟩

/-- Stops unless a token has been consumed since the production began. -/
def checkProgress (frame : Frame) : OnDemand Unit := do
  if (← get).account.requests.length ≤ frame.requested then throw .idle

/-- How many productions are under way within themselves from now on. -/
def setDepth (depth : Nat) : OnDemand Unit :=
  modify fun state =>
    { state with
      account := { state.account with depth, deepest := max state.account.deepest depth } }

/-- A production within itself. -/
def nested (frame : Frame) (production : OnDemand β) : OnDemand β := do
  checkProgress frame
  setDepth (frame.depth + 1)
  let x ← production
  setDepth frame.depth
  return x

/-- A round of a repetition. -/
def round (item : OnDemand β) : OnDemand β := do
  let frame ← enter
  let x ← item
  checkProgress frame
  return x

/-! ## Whole documents -/

instance : ParserCore OnDemand where
  Frame := Frame
  enter := enter
  nested := nested
  round := round
  peek := peek
  advance := advance
  advanceEnd := consume
  fail := fail
  exhausted := throw .limit
  mark := mark

/-- Asks for the first token of a source and runs a parser from there. -/
def run (parser : OnDemand β) (source : Source) (options : ParseOptions) :
    Except Stop β × Account :=
  let account := Account.request {} 0
  match source.readToken 0 with
  | .error fault => (.error (.fault fault), account)
  | .ok ahead =>
    match parser { source, options, ahead, account } with
    | .ok x state => (.ok x, state.account)
    | .error stop state => (.error stop, state.account)

end OnDemand

/-- Parses the source by the given grammar, and reads tokens when they are needed.  The second
result is the account that was kept. -/
def Source.parseOnDemand (source : Source) (grammar : Grammar) (options : ParseOptions)
    (limit : Nat) : Except OnDemand.Stop (Node Tag) × OnDemand.Account :=
  match grammar with
  | .executable =>
    let (result, account) := OnDemand.run (Parser.document limit) source options
    (result.map .document, account)
  | .schema =>
    let (result, account) := OnDemand.run (Parser.schemaDocument limit) source options
    (result.map .schemaDocument, account)

end GraphQLSyntax
