import GraphQLSyntax.Text.Character
import GraphQLSyntax.Token

/-!
# Spellings

The texts that names and numbers can have, and the lexemes that can be read at
all: a lexeme of a kind with values carries a text of that kind, every other
lexeme carries nothing.  Strings may have any contents.
-/

namespace GraphQLSyntax

/-- A letter or underscore, followed by letters, digits and underscores. -/
def isName (text : String) : Bool :=
  match text.toList with
  | [] => false
  | c :: cs => isNameStart c && cs.all isNameRest

/-- A minus sign or nothing. -/
def IsSign (cs : List Char) : Prop :=
  cs = [] ∨ cs = ['-']

/-- At least one digit. -/
def IsDigits (cs : List Char) : Prop :=
  cs ≠ [] ∧ ∀ c ∈ cs, c.isDigit = true

/-- A zero alone, or digits that do not start with a zero. -/
def IsIntegerPart (cs : List Char) : Prop :=
  cs = ['0'] ∨ (IsDigits cs ∧ cs.head? ≠ some '0')

/-- Nothing, or the letter e with a sign and digits. -/
def IsExponent (cs : List Char) : Prop :=
  cs = [] ∨ ∃ sign digits, IsSign sign ∧ IsDigits digits ∧ cs = 'e' :: sign ++ digits

/-- The characters of an integer: a sign and an integer part. -/
def IsInteger (cs : List Char) : Prop :=
  ∃ sign digits, IsSign sign ∧ IsIntegerPart digits ∧ cs = sign ++ digits

/-- The characters of a float: those of an integer, a point and digits, and
perhaps an exponent. -/
def IsFloat (cs : List Char) : Prop :=
  ∃ integer fraction exponent, IsInteger integer ∧ IsDigits fraction ∧
    IsExponent exponent ∧ cs = integer ++ '.' :: fraction ++ exponent

namespace Lexeme

/-- The lexeme of a punctuator or of the end. -/
def bare (kind : TokenKind) : Lexeme :=
  { kind }

/-- The lexeme of a name. -/
def ofName (text : String) : Lexeme :=
  { kind := .name, value := some text }

/-- The value is one that a token of this kind can have. -/
def IsProper (lexeme : Lexeme) : Prop :=
  match lexeme.kind, lexeme.value with
  | .name, some text => isName text = true
  | .int, some text => IsInteger text.toList
  | .float, some text => IsFloat text.toList
  | .string, some _ => True
  | kind, none => kind.hasValue = false
  | _, some _ => False

@[simp] theorem kind_bare (kind : TokenKind) : (bare kind).kind = kind := rfl

@[simp] theorem kind_ofName (text : String) : (ofName text).kind = .name := rfl

@[simp] theorem text_ofName (text : String) : (ofName text).text = text := rfl

@[simp] theorem ofName_inj {text text' : String} :
    ofName text = ofName text' ↔ text = text' := by
  simp [ofName]

@[simp] theorem isKeyword_ofName (text word : String) :
    (ofName text).isKeyword word = (text == word) := by
  simp [isKeyword, ofName]

theorem isProper_bare {kind : TokenKind} (h : kind.hasValue = false) :
    (bare kind).IsProper := by
  cases kind <;> simp_all [IsProper, bare, TokenKind.hasValue]

/-- A proper lexeme of a kind without values is determined by its kind. -/
theorem IsProper.eq_bare {lexeme : Lexeme} (h : lexeme.IsProper)
    (hkind : lexeme.kind.hasValue = false) : lexeme = bare lexeme.kind := by
  obtain ⟨kind, value⟩ := lexeme
  cases value with
  | none => rfl
  | some text => cases kind <;> simp_all [IsProper, TokenKind.hasValue]

/-- A proper lexeme of a kind with values is determined by its kind and its
text. -/
theorem IsProper.value_eq {lexeme : Lexeme} (h : lexeme.IsProper)
    (hkind : lexeme.kind.hasValue = true) : lexeme.value = some lexeme.text := by
  obtain ⟨kind, value⟩ := lexeme
  cases value with
  | none => cases kind <;> simp_all [IsProper, TokenKind.hasValue]
  | some text => rfl

/-- A proper name is a name. -/
theorem IsProper.eq_ofName {lexeme : Lexeme} (h : lexeme.IsProper)
    (hkind : lexeme.kind = .name) :
    lexeme = ofName lexeme.text ∧ isName lexeme.text = true := by
  obtain ⟨kind, value⟩ := lexeme
  have hvalue := h.value_eq (by rw [hkind]; rfl)
  simp only at hkind hvalue
  subst hkind
  refine ⟨by rw [ofName, ← hvalue], ?_⟩
  rw [hvalue] at h
  exact h

/-- Being a keyword is being a particular name. -/
theorem isKeyword_iff {lexeme : Lexeme} {word : String} :
    lexeme.isKeyword word = true ↔ lexeme = ofName word := by
  obtain ⟨kind, value⟩ := lexeme
  simp [isKeyword, ofName]

end Lexeme

end GraphQLSyntax
