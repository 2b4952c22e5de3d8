import GraphQLSyntax.Token.Scan

/-!
# Reading tokens from a source

A token can be read at any offset of a source: nothing has to be remembered
between reads but where the last token ended.  `TokenCursor` remembers just
that, and `Source.tokens` is everything one gets by reading on and on from the
start until the end or the first fault.

Offsets have 32 bits, so in a body beyond that length a token's end may be
smaller than its start, and reading goes on from there; `Source.tokens`, which
carries the remaining text along, then looks the offset up again.
-/

namespace GraphQLSyntax

/-- The result of reading a token. -/
abbrev Reading := Except Fault Token

/-- No more is read after the end of the text or a fault. -/
def Reading.isLast : Reading → Bool
  | .ok token => token.kind == .eof
  | .error _ => true

namespace Source

/-- Scans the first token at or after a byte offset.  Past the end there is an
end token at that very offset; inside a character nothing can be read. -/
def scanAt (source : Source) (offset : Nat) : Except Fault Scanned :=
  if source.byteCount ≤ offset then scanToken offset []
  else
    match dropBytes? offset source.chars with
    | some cs => scan offset cs
    | none => .error (.atOffset offset (.unexpectedCharacter '\uFFFD'))

/-- Reads the first token at or after a byte offset. -/
def readToken (source : Source) (offset : UInt32) : Reading :=
  (source.scanAt offset.toNat).map Scanned.token

/-- The results of at most `limit` reads, each where the one before it ended,
given the result of the first. -/
def readOn (source : Source) : Nat → Except Fault Scanned → List Reading
  | 0, _ => []
  | _ + 1, .error fault => [.error fault]
  | limit + 1, .ok scanned =>
    let token := scanned.token
    if token.kind == .eof then [.ok token]
    else
      let next :=
        if token.stop.toNat = scanned.stop then scan scanned.stop scanned.rest
        else source.scanAt token.stop.toNat
      .ok token :: source.readOn limit next

/-- The results of reading tokens from the start of the source, up to and
including the end token or the first fault.  Every token before the end spans
at least one byte, so one read more than there are bytes is enough for all
bodies whose offsets fit into 32 bits. -/
def tokens (source : Source) : List Reading :=
  source.readOn (source.byteCount + 1) (scan 0 source.chars)

end Source

/-- A place in a source from which the next token will be read. -/
structure TokenCursor where
  source : Source
  position : UInt32 := 0
  /-- Whether iteration has come to its end. -/
  finished : Bool := false
deriving DecidableEq, Repr, Inhabited

namespace TokenCursor

/-- Reads the next token and moves behind it; a fault leaves the cursor where it
is. -/
def read (cursor : TokenCursor) : Reading × TokenCursor :=
  match cursor.source.readToken cursor.position with
  | .ok token => (.ok token, { cursor with position := token.stop })
  | .error fault => (.error fault, cursor)

/-- Moves to an offset, from where iteration may go on, and reads there. -/
def readFrom (cursor : TokenCursor) (position : UInt32) : Reading × TokenCursor :=
  read { cursor with position, finished := false }

/-- The next step of iteration: a reading, or nothing once the end or a fault has
been reached. -/
def next? (cursor : TokenCursor) : Option Reading × TokenCursor :=
  if cursor.finished then (none, cursor)
  else
    let (reading, cursor) := cursor.read
    (some reading, { cursor with finished := reading.isLast })

/-- At most `limit` further steps of iteration. -/
def take (cursor : TokenCursor) : Nat → List Reading × TokenCursor
  | 0 => ([], cursor)
  | limit + 1 =>
    match cursor.next? with
    | (none, cursor) => ([], cursor)
    | (some reading, cursor) =>
      let (readings, cursor) := cursor.take limit
      (reading :: readings, cursor)

/-- All that iteration still yields. -/
def rest (cursor : TokenCursor) : List Reading × TokenCursor :=
  cursor.take (cursor.source.byteCount + 1)

end TokenCursor

end GraphQLSyntax
