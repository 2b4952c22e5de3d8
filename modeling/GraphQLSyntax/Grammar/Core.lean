import GraphQLSyntax.Token.Reader
import GraphQLSyntax.Tree.Tag

/-!
# The steps that parsers take

A parser looks at one token ahead, consumes it or stops, and tags the nodes that are complete.
All productions are put together from these steps, so they are written once for every kind of
parser that can take them.

Two steps are there for parsers that keep an eye on their progress: a round of a repetition, and
a production that comes within itself.  Repetition and nesting are bounded by a limit that is
given from outside.  Each round consumes a token, so a limit above the number of tokens is never
reached.
-/

namespace GraphQLSyntax

/-- The steps that productions are put together from. -/
class ParserCore (m : Type → Type) where
  /-- What is known of a production when it begins. -/
  Frame : Type
  /-- A production begins that may come within itself. -/
  enter : m Frame
  /-- The production comes within itself. -/
  nested {β : Type} (frame : Frame) (production : m β) : m β
  /-- A round of a repetition. -/
  round {β : Type} (item : m β) : m β
  /-- The token ahead. -/
  peek : m Token
  /-- Consumes the token ahead. -/
  advance : m Token
  /-- Consumes the end token, where the document ends. -/
  advanceEnd : m Token
  /-- Stops with a fault at the token ahead. -/
  fail {β : Type} (cause : Lexeme → Cause) : m β
  /-- Stops because the limit is used up. -/
  exhausted {β : Type} : m β
  /-- The tag of a node that begins at `start` and ends with the token consumed last. -/
  mark (start : UInt32) : m Tag

namespace Parser

open ParserCore

variable {m : Type → Type} [Monad m] [ParserCore m] {β : Type}

/-- The token ahead is of the given kind. -/
def sees (kind : TokenKind) : m Bool :=
  return (← peek).kind == kind

/-- The token ahead is the given name. -/
def seesKeyword (word : String) : m Bool :=
  return (← peek).lexeme.isKeyword word

/-- The offset of the token ahead. -/
def here : m UInt32 :=
  return (← peek).start

/-- Stops because nothing that may stand here starts with the token ahead. -/
def unexpected : m β :=
  fail .unexpected

/-- Consumes the token ahead if it is of the given kind. -/
def skip (kind : TokenKind) : m Bool := do
  if ← sees kind then
    let _ ← advance
    return true
  else return false

/-- To go on after a token if it is ahead is to look at it first and then to consume it. -/
theorem ite_skip_eq [LawfulMonad m] (kind : TokenKind) (p q : m β) :
    (do if ← skip kind then p else q) =
      (do if ← sees kind then (do let _ ← advance; p) else q) := by
  simp only [skip, bind_assoc]
  congr 1
  funext b
  cases b <;> simp

/-- Consumes the end token if it is ahead. -/
def skipEnd : m Bool := do
  if ← sees .eof then
    let _ ← advanceEnd
    return true
  else return false

/-- Consumes a token, which has to be of the given kind. -/
def expect (kind : TokenKind) : m Lexeme := do
  if ← sees kind then return (← advance).lexeme
  else fail (.expectedKind kind)

/-- Consumes a token, which has to be the given name. -/
def expectKeyword (word : String) : m Unit := do
  if ← seesKeyword word then
    let _ ← advance
  else fail (.expectedKeyword word)

/-- Items up to and including a closing token. -/
def untilClose (item : m β) (close : TokenKind) : Nat → m (List β)
  | 0 => exhausted
  | limit + 1 => do
    if ← skip close then return []
    else
      let x ← round item
      let xs ← untilClose item close limit
      return x :: xs

/-- Any number of items between an opening and a closing token. -/
def any (opening : TokenKind) (item : m β) (close : TokenKind) (limit : Nat) : m (List β) := do
  let _ ← expect opening
  untilClose item close limit

/-- At least one item between an opening and a closing token. -/
def many (opening : TokenKind) (item : m β) (close : TokenKind) (limit : Nat) : m (List β) := do
  let _ ← expect opening
  let x ← item
  let xs ← untilClose item close limit
  return x :: xs

/-- At least one item in parentheses, or nothing at all. -/
def parenthesized (item : m β) (limit : Nat) : m (List β) := do
  if ← sees .parenOpen then many .parenOpen item .parenClose limit
  else return []

/-- Items as long as a token of the given kind is ahead. -/
def whileSees (kind : TokenKind) (item : m β) : Nat → m (List β)
  | 0 => exhausted
  | limit + 1 => do
    if ← sees kind then
      let x ← round item
      let xs ← whileSees kind item limit
      return x :: xs
    else return []

/-- At least one item, as many as there are before the end of the document. -/
def untilEnd (item : m β) : Nat → m (List β)
  | 0 => exhausted
  | limit + 1 => do
    let x ← round item
    if ← skipEnd then return [x]
    else
      let xs ← untilEnd item limit
      return x :: xs

end Parser

end GraphQLSyntax
