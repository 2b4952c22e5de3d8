import GraphQLSyntax.Proofs.Bounds.Access
import GraphQLSyntax.Proofs.Lexical.Literal
import GraphQLSyntax.Token.Reader

/-!
# Reading byte by byte

Reading a token, written out in the steps that are taken over the encoded body: single bytes are
looked at, offsets are counted on from byte to byte, also inside characters, and texts are cut out
of the body at offsets that were remembered.  Every access is one of those that may have no
answer, and then there is no answer at all.

Where a line ends is looked for by a search for one of three bytes, which is not written out
here.
-/

namespace GraphQLSyntax

/-- A search for the first byte that is one of three. -/
abbrev ByteSearch := UInt8 → UInt8 → UInt8 → List UInt8 → Option Nat

/-- The search yields the index of the first byte that is one of the three, if there is one. -/
def ByteSearch.FindsFirst (search : ByteSearch) : Prop :=
  ∀ x y z bytes, search x y z bytes = bytes.findIdx? fun b => b == x || b == y || b == z

/-- The bytes begin with those of U+2028 or U+2029. -/
def beginsWithSeparator : List UInt8 → Bool
  | 0xE2 :: 0x80 :: b :: _ => b == 0xA8 || b == 0xA9
  | _ => false

/-- The character is ignored and takes one byte. -/
def isShortBlank (c : Char) : Bool :=
  c == ' ' || c == ',' || 0x09 ≤ c.toNat && c.toNat ≤ 0x0D

/-- A token without a value between two offsets. -/
def bareToken (kind : TokenKind) (start stop : Nat) : Token :=
  ⟨.bare kind, .ofNat start, .ofNat stop⟩

/-- A token with a value between two offsets. -/
def valueToken (kind : TokenKind) (text : List Char) (start stop : Nat) : Token :=
  ⟨⟨kind, some (String.ofList text)⟩, .ofNat start, .ofNat stop⟩

/-- The code that bytes write in hexadecimal digits. -/
def hexValue? (bytes : List UInt8) : Option Nat :=
  bytes.foldlM (fun n b => (hexDigit? (Char.ofUInt8 b)).map (n * 16 + ·)) 0

/-- What is read, and the search that it is read with. -/
structure ByteReader where
  search : ByteSearch
  body : String

/-- Where reading a string has come to: the offset, the offset of the text that has not been taken
over yet, and what the text before it stands for, once there has been an escape sequence. -/
structure StringCursor where
  offset : Nat
  chunkStart : Nat
  decoded : Option (List Char)

namespace ByteReader

variable (reader : ByteReader)

abbrev chars : List Char :=
  reader.body.toList

abbrev bytes : List UInt8 :=
  encodeChars reader.chars

/-- No loop takes more steps. -/
def limit : Nat :=
  reader.bytes.length + 1

/-- The byte at an offset has the code of such a character. -/
def sees (p : Char → Bool) (offset : Nat) : Bool :=
  reader.bytes[offset]?.any fun b => p (Char.ofUInt8 b)

/-- The byte at the offset begins U+2028 or U+2029. -/
def seesSeparator (b : UInt8) (offset : Nat) : Option Bool :=
  if b = 0xE2 then (bytesFrom reader.bytes offset).map beginsWithSeparator else some false

/-! ## Ignored text -/

/-- Looks for the end of the line from an offset on. -/
def commentStep (offset : Nat) : Option (Nat ⊕ Nat) := do
  match reader.search 0x0A 0x0D 0xE2 (← bytesFrom reader.bytes offset) with
  | none => some (.inr reader.bytes.length)
  | some n =>
    let found := offset + n
    let b ← byteAt reader.bytes found
    if b ≠ 0xE2 then some (.inr found)
    else if beginsWithSeparator (← bytesFrom reader.bytes found) then some (.inr found)
    else some (.inl (found + 1))

/-- Goes from a number sign to the end of the line. -/
def passComment (offset : Nat) : Option Nat :=
  loop reader.commentStep reader.limit (offset + 1)

def ignoredStep (offset : Nat) : Option (Nat ⊕ Nat) :=
  match reader.bytes[offset]? with
  | none => some (.inr offset)
  | some b => do
    let c := Char.ofUInt8 b
    if isShortBlank c then some (.inl (offset + 1))
    else if b = 0xC2 ∧ reader.bytes[offset + 1]? = some 0xA0 then some (.inl (offset + 2))
    else if ← reader.seesSeparator b offset then some (.inl (offset + 3))
    else if c = '#' then (reader.passComment offset).map .inl
    else some (.inr offset)

/-- Goes to the first byte that is not ignored. -/
def passIgnored (offset : Nat) : Option Nat :=
  loop reader.ignoredStep reader.limit offset

/-! ## Names and numbers -/

def runStep (p : Char → Bool) (offset : Nat) : Option (Nat ⊕ Nat) :=
  some (if reader.sees p offset then .inl (offset + 1) else .inr offset)

/-- Goes to the first byte that is not of the kind. -/
def passRun (p : Char → Bool) (offset : Nat) : Option Nat :=
  loop (reader.runStep p) reader.limit offset

/-- A name, of which the first byte is known. -/
def readName (start : Nat) : Option Token := do
  let stop ← reader.passRun isNameRest (start + 1)
  return valueToken .name (← textBetween reader.chars start stop) start stop

def readDigits (offset : Nat) : ExceptT Fault Option Nat :=
  if reader.sees Char.isDigit offset then reader.passRun Char.isDigit offset
  else throw (.atOffset offset .invalidNumber)

def readIntegerPart (offset : Nat) : ExceptT Fault Option Nat :=
  if reader.sees (· == '0') offset then
    if reader.sees Char.isDigit (offset + 1) then throw (.atOffset (offset + 1) .invalidNumber)
    else return offset + 1
  else if reader.sees (fun c => '1' ≤ c && c ≤ '9') offset then
    reader.passRun Char.isDigit offset
  else throw (.atOffset offset .invalidNumber)

def passSign (offset : Nat) : Nat :=
  if reader.sees (· == '-') offset then offset + 1 else offset

def readExponent (offset : Nat) : ExceptT Fault Option Nat :=
  if reader.sees (· == 'e') offset then reader.readDigits (reader.passSign (offset + 1))
  else return offset

def readFraction (offset : Nat) : ExceptT Fault Option (TokenKind × Nat) :=
  if reader.sees (· == '.') offset then do
    let offset ← reader.readDigits (offset + 1)
    return (.float, ← reader.readExponent offset)
  else return (.int, offset)

def readNumber (start : Nat) : ExceptT Fault Option Token := do
  let offset ← reader.readIntegerPart (reader.passSign start)
  let (kind, stop) ← reader.readFraction offset
  return valueToken kind (← textBetween reader.chars start stop) start stop

/-! ## Strings -/

/-- Reads what follows the letter u at an offset: the character and the offset behind it. -/
def readUnicodeEscape (offset : Nat) : ExceptT Fault Option (Char × Nat) :=
  let refuse := throw (.atOffset offset .badEscape)
  match (bytesBetween reader.bytes (offset + 1) (offset + 5)).bind hexValue? with
  | none => refuse
  | some code =>
    if code.isValidChar then return (Char.ofNat code, offset + 5)
    else if isHighSurrogate code ∧
        bytesBetween reader.bytes (offset + 5) (offset + 7) = some [0x5C, 0x75] then
      match (bytesBetween reader.bytes (offset + 7) (offset + 11)).bind hexValue? with
      | none => refuse
      | some low =>
        if isLowSurrogate low then do
          let upper ← minus code 0xD800
          let lower ← minus low 0xDC00
          let code := 0x10000 + upper * 0x400 + lower
          if code.isValidChar then return (Char.ofNat code, offset + 11) else refuse
        else refuse
    else refuse

/-- Reads what follows a backslash: the character and the offset of the last byte. -/
def readEscape (offset : Nat) : ExceptT Fault Option (Char × Nat) :=
  match reader.bytes[offset]? with
  | none => throw (.atOffset offset .unterminatedString)
  | some b =>
    match escapeLetters.lookup (Char.ofUInt8 b) with
    | some meant => return (meant, offset)
    | none =>
      if Char.ofUInt8 b = 'u' then do
        let (meant, next) ← reader.readUnicodeEscape offset
        return (meant, ← minus next 1)
      else throw (.atOffset offset .badEscape)

def escapeStep (cursor : StringCursor) : Option (StringCursor ⊕ Except Fault StringCursor) := do
  let chunk ← textBetween reader.chars cursor.chunkStart cursor.offset
  match ← (reader.readEscape (cursor.offset + 1)).run with
  | .error fault => some (.inr (.error fault))
  | .ok (meant, last) =>
    some (.inl ⟨last + 1, last + 1, some (cursor.decoded.getD [] ++ chunk ++ [meant])⟩)

def stringStep (cursor : StringCursor) : Option (StringCursor ⊕ Except Fault StringCursor) :=
  let unterminated := .inr (.error (.atOffset cursor.offset .unterminatedString))
  match reader.bytes[cursor.offset]? with
  | none => some unterminated
  | some b => do
    let c := Char.ofUInt8 b
    if c = '"' then some (.inr (.ok cursor))
    else if c = '\n' ∨ c = '\r' then some unterminated
    else if ← reader.seesSeparator b cursor.offset then some unterminated
    else if c = '\\' then reader.escapeStep cursor
    else some (.inl { cursor with offset := cursor.offset + 1 })

def readString (start : Nat) : ExceptT Fault Option Token := do
  let cursor ← ExceptT.mk (loop reader.stringStep reader.limit ⟨start + 1, start + 1, none⟩)
  let chunk ← textBetween reader.chars cursor.chunkStart cursor.offset
  return valueToken .string (cursor.decoded.getD [] ++ chunk) start (cursor.offset + 1)

/-! ## All tokens -/

/-- No token begins at the offset; inside a character there is none to be shown. -/
def unexpectedCharacter (offset : Nat) : Fault :=
  let c := (textFrom reader.chars offset).bind List.head?
  .atOffset offset (.unexpectedCharacter (c.getD '\uFFFD'))

/-- Reads the token that begins at an offset. -/
def readAt (start : Nat) : ExceptT Fault Option Token :=
  match reader.bytes[start]? with
  | none => return bareToken .eof start start
  | some b =>
    let c := Char.ofUInt8 b
    match TokenKind.ofPunctuator? c with
    | some kind => return bareToken kind start (start + 1)
    | none =>
      if c = '.' then do
        let rest ← bytesFrom reader.bytes (start + 1)
        if [0x2E, 0x2E].isPrefixOf rest then return bareToken .spread start (start + 3)
        else throw (reader.unexpectedCharacter start)
      else if isNameStart c then reader.readName start
      else if c = '-' ∨ c.isDigit then reader.readNumber start
      else if c = '"' then reader.readString start
      else throw (reader.unexpectedCharacter start)

/-- Reads the first token at or after an offset. -/
def read (offset : Nat) : ExceptT Fault Option Token := do
  let start ← reader.passIgnored offset
  reader.readAt start

end ByteReader

end GraphQLSyntax
