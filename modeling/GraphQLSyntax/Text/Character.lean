/-!
# Character classes

The classes of characters that the lexical grammar, the line count and the
command line distinguish.  Identifiers, numbers and hexadecimal digits are
ASCII by definition of the language; blanks, line terminators and white space
reach beyond it, so those classes are given by their code points.
-/

namespace GraphQLSyntax

/-- A line ends at a line feed, a carriage return, U+2028 or U+2029. -/
def isLineTerminator (c : Char) : Bool :=
  c == '\n' || c == '\r' || c == '\u2028' || c == '\u2029'

/-- Blank characters may stand between tokens and mean nothing: space, comma,
U+0009 to U+000D, the no-break space and the two Unicode line separators. -/
def isBlank (c : Char) : Bool :=
  c == ' ' || c == ',' || (0x09 ≤ c.toNat && c.toNat ≤ 0x0D) ||
    c == '\u00A0' || c == '\u2028' || c == '\u2029'

/-- Every line terminator is blank, so a comment may end where blanks go on. -/
theorem isBlank_of_isLineTerminator {c : Char} (h : isLineTerminator c = true) :
    isBlank c = true := by
  simp only [isLineTerminator, Bool.or_eq_true, beq_iff_eq] at h
  rcases h with ((rfl | rfl) | rfl) | rfl <;> decide

/-- Control characters: U+0000 to U+001F and U+007F to U+009F. -/
def isControl (c : Char) : Bool :=
  c.toNat ≤ 0x1F || (0x7F ≤ c.toNat && c.toNat ≤ 0x9F)

/-- White space in the sense of the Unicode property `White_Space`. -/
def isWhiteSpace (c : Char) : Bool :=
  (0x09 ≤ c.toNat && c.toNat ≤ 0x0D) || c == ' ' || c == '\u0085' ||
    c == '\u00A0' || c == '\u1680' || (0x2000 ≤ c.toNat && c.toNat ≤ 0x200A) ||
    c == '\u2028' || c == '\u2029' || c == '\u202F' || c == '\u205F' ||
    c == '\u3000'

/-- A name starts with an ASCII letter or an underscore. -/
def isNameStart (c : Char) : Bool :=
  c == '_' || c.isAlpha

/-- A name goes on with ASCII letters, digits and underscores. -/
def isNameRest (c : Char) : Bool :=
  c == '_' || c.isAlphanum

/-- The value of a hexadecimal digit of either case. -/
def hexDigit? (c : Char) : Option Nat :=
  if '0' ≤ c ∧ c ≤ '9' then some (c.toNat - '0'.toNat)
  else if 'a' ≤ c ∧ c ≤ 'f' then some (c.toNat - 'a'.toNat + 10)
  else if 'A' ≤ c ∧ c ≤ 'F' then some (c.toNat - 'A'.toNat + 10)
  else none

/-- The digit of the given value, which is below 16, in upper case. -/
def hexDigitUpper (n : Nat) : Char :=
  if n < 10 then Char.ofNat ('0'.toNat + n) else Char.ofNat ('A'.toNat + (n - 10))

/-- Four upper-case hexadecimal digits of a code below 65536. -/
def hexUpper4 (n : Nat) : List Char :=
  [hexDigitUpper (n / 4096 % 16), hexDigitUpper (n / 256 % 16),
    hexDigitUpper (n / 16 % 16), hexDigitUpper (n % 16)]

end GraphQLSyntax
