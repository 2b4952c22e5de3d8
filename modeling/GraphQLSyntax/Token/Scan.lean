import GraphQLSyntax.SyntaxError
import GraphQLSyntax.Text.Bytes

/-!
# Scanning one token

The first token of a text, found in two steps: blanks and comments are left
out, and the first character that remains decides what is read.  Offsets are
natural numbers here and count bytes, so nothing is lost however long the text
is; they are cut down to 32 bits where a token is made.

Names and numbers are the longest runs of their grammars.  A string is read
item by item, an item being a character or an escape sequence.
-/

namespace GraphQLSyntax

/-- A fault at an offset of any size. -/
def Fault.atOffset (offset : Nat) (cause : Cause) : Fault :=
  ⟨UInt32.ofNat offset, cause⟩

/-- A lexeme, the offsets between which it stands and the text after it. -/
structure Scanned where
  lexeme : Lexeme
  start : Nat
  stop : Nat
  rest : List Char
deriving Inhabited

/-- The token that was scanned, its offsets cut down to 32 bits. -/
def Scanned.token (scanned : Scanned) : Token :=
  { lexeme := scanned.lexeme
    start := UInt32.ofNat scanned.start
    stop := UInt32.ofNat scanned.stop }

/-- Leaves out blanks and comments, the latter reaching from a number sign up to
the next line terminator; `inComment` tells whether the text starts inside one.
The result is the offset reached and the text from there on. -/
def skipIgnored (inComment : Bool) (offset : Nat) : List Char → Nat × List Char
  | [] => (offset, [])
  | c :: cs =>
    if inComment && !isLineTerminator c then
      skipIgnored true (offset + c.utf8Size) cs
    else if isBlank c then skipIgnored false (offset + c.utf8Size) cs
    else if c == '#' then skipIgnored true (offset + c.utf8Size) cs
    else (offset, c :: cs)

/-! ## Numbers -/

/-- A run of digits, which must not be empty, and the text after it. -/
def scanDigits (offset : Nat) (cs : List Char) :
    Except Fault (List Char × List Char) :=
  match cs.takeWhile Char.isDigit with
  | [] => .error (.atOffset offset .invalidNumber)
  | digits => .ok (digits, cs.dropWhile Char.isDigit)

/-- The digits of an integer part: a zero alone, or digits without a leading
zero. -/
def scanIntegerPart (offset : Nat) (cs : List Char) :
    Except Fault (List Char × List Char) :=
  match cs with
  | '0' :: rest =>
    match rest.head? with
    | some c =>
      if c.isDigit then .error (.atOffset (offset + 1) .invalidNumber)
      else .ok (['0'], rest)
    | none => .ok (['0'], rest)
  | _ => scanDigits offset cs

/-- A minus sign, if there is one. -/
def scanSign (cs : List Char) : List Char × List Char :=
  match cs with
  | '-' :: rest => (['-'], rest)
  | _ => ([], cs)

/-- An exponent, if there is one: a small letter e, a sign and digits. -/
def scanExponent (offset : Nat) (cs : List Char) :
    Except Fault (List Char × List Char) :=
  match cs with
  | 'e' :: afterLetter => do
    let (sign, afterSign) := scanSign afterLetter
    let (digits, rest) ← scanDigits (offset + 1 + sign.length) afterSign
    .ok ('e' :: sign ++ digits, rest)
  | _ => .ok ([], cs)

/-- A fraction, if there is one: a point and digits, then perhaps an exponent. -/
def scanFraction (offset : Nat) (cs : List Char) :
    Except Fault (List Char × List Char) :=
  match cs with
  | '.' :: afterPoint => do
    let (digits, afterDigits) ← scanDigits (offset + 1) afterPoint
    let (exponent, rest) ← scanExponent (offset + 1 + digits.length) afterDigits
    .ok ('.' :: digits ++ exponent, rest)
  | _ => .ok ([], cs)

/-- A number.  It is a float exactly if it has a fraction.  All its characters
are ASCII, so they count as bytes. -/
def scanNumber (start : Nat) (cs : List Char) : Except Fault Scanned := do
  let (sign, afterSign) := scanSign cs
  let (digits, afterDigits) ← scanIntegerPart (start + sign.length) afterSign
  let (fraction, rest) ←
    scanFraction (start + sign.length + digits.length) afterDigits
  let text := sign ++ digits ++ fraction
  .ok
    { lexeme :=
        { kind := if fraction.isEmpty then .int else .float
          value := some (String.ofList text) }
      start
      stop := start + text.length
      rest }

/-! ## Names -/

/-- A name: the longest run of name characters. -/
def scanName (start : Nat) (cs : List Char) : Scanned :=
  let text := cs.takeWhile isNameRest
  { lexeme := { kind := .name, value := some (String.ofList text) }
    start
    stop := start + text.length
    rest := cs.dropWhile isNameRest }

/-! ## Strings -/

/-- The code written by the first four characters, if they are hexadecimal
digits. -/
def hexCode? : List Char → Option Nat
  | a :: b :: c :: d :: _ => do
    let a ← hexDigit? a
    let b ← hexDigit? b
    let c ← hexDigit? c
    let d ← hexDigit? d
    some (((a * 16 + b) * 16 + c) * 16 + d)
  | _ => none

/-- Codes of the first halves of surrogate pairs. -/
def isHighSurrogate (code : Nat) : Bool :=
  0xD800 ≤ code && code < 0xDC00

/-- Codes of the second halves of surrogate pairs. -/
def isLowSurrogate (code : Nat) : Bool :=
  0xDC00 ≤ code && code < 0xE000

/-- The character that a surrogate pair stands for. -/
def ofSurrogates (high low : Nat) : Char :=
  Char.ofNat (0x10000 + (high - 0xD800) * 0x400 + (low - 0xDC00))

/-- Reads what follows the letter u of an escape sequence: the character and the
number of characters that were read.  A high surrogate has to be followed by the
escape sequence of a low one; no other surrogate is a character. -/
def unicodeEscape? (cs : List Char) : Option (Char × Nat) := do
  let code ← hexCode? cs
  if isHighSurrogate code then
    match cs.drop 4 with
    | '\\' :: 'u' :: rest =>
      let low ← hexCode? rest
      if isLowSurrogate low then some (ofSurrogates code low, 10) else none
    | _ => none
  else if isLowSurrogate code then none
  else some (Char.ofNat code, 4)

/-- Reads what follows a backslash: the character that is meant and the number of
characters that were read. -/
def escape? : List Char → Option (Char × Nat)
  | '"' :: _ => some ('"', 1)
  | '/' :: _ => some ('/', 1)
  | '\\' :: _ => some ('\\', 1)
  | 'b' :: _ => some ('\x08', 1)
  | 'f' :: _ => some ('\x0C', 1)
  | 'n' :: _ => some ('\n', 1)
  | 'r' :: _ => some ('\r', 1)
  | 't' :: _ => some ('\t', 1)
  | 'u' :: cs => (unicodeEscape? cs).map fun (c, n) => (c, n + 1)
  | _ => none

/-- Reads the contents of a string up to its closing quotation mark.  `decoded`
holds what was read so far, backwards.  An escape sequence is ASCII, so its
characters count as bytes. -/
def scanContents (offset : Nat) (decoded : List Char) :
    List Char → Except Fault (List Char × Nat × List Char)
  | [] => .error (.atOffset offset .unterminatedString)
  | c :: cs =>
    if c == '"' then .ok (decoded.reverse, offset + 1, cs)
    else if isLineTerminator c then .error (.atOffset offset .unterminatedString)
    else if c == '\\' then
      if cs.isEmpty then .error (.atOffset (offset + 1) .unterminatedString)
      else
        match escape? cs with
        | some (meant, n) =>
          scanContents (offset + 1 + n) (meant :: decoded) (cs.drop n)
        | none => .error (.atOffset (offset + 1) .badEscape)
    else scanContents (offset + c.utf8Size) (c :: decoded) cs
termination_by cs => cs.length
decreasing_by
  · simp only [List.length_drop, List.length_cons]; omega
  · simp

/-- A string, given the text after its opening quotation mark. -/
def scanString (start : Nat) (contents : List Char) : Except Fault Scanned := do
  let (decoded, stop, rest) ← scanContents (start + 1) [] contents
  .ok
    { lexeme := { kind := .string, value := some (String.ofList decoded) }
      start
      stop
      rest }

/-! ## All tokens -/

/-- Scans the token that a text without leading blanks starts with. -/
def scanToken (start : Nat) : List Char → Except Fault Scanned
  | [] => .ok { lexeme := { kind := .eof }, start, stop := start, rest := [] }
  | c :: cs =>
    match TokenKind.ofPunctuator? c with
    | some kind => .ok { lexeme := { kind }, start, stop := start + 1, rest := cs }
    | none =>
      if c == '.' && cs.take 2 == ['.', '.'] then
        .ok { lexeme := { kind := .spread }, start, stop := start + 3, rest := cs.drop 2 }
      else if isNameStart c then .ok (scanName start (c :: cs))
      else if c == '-' || c.isDigit then scanNumber start (c :: cs)
      else if c == '"' then scanString start cs
      else .error (.atOffset start (.unexpectedCharacter c))

/-- Scans the first token of a text whose first byte has the given offset.  At
the end of the text that is an end token, which spans nothing. -/
def scan (offset : Nat) (cs : List Char) : Except Fault Scanned :=
  let (start, text) := skipIgnored false offset cs
  scanToken start text

end GraphQLSyntax
