import GraphQLSyntax.Proofs.Lexical.Spelling
import GraphQLSyntax.SyntaxError

/-!
# Terminals

A tree is written token by token.  A terminal is a lexeme in its place in a
document: besides what is written it says whether the rules of the language
object to having just this lexeme there, although one of its kind belongs
there.  There are two such rules, so two objections.
-/

namespace GraphQLSyntax

/-- What can be wrong with a name in a place where a name belongs. -/
inductive Objection
  /-- An earlier field of the same object has this name. -/
  | repeatedField (name : String)
  /-- A fragment is defined under a name that the grammar reserves. -/
  | reservedName (name : String)
deriving DecidableEq, Repr

/-- The cause for which a document with such a name is refused. -/
def Objection.cause : Objection → Cause
  | repeatedField name => .duplicateField name
  | reservedName name => .reservedName name

/-- A lexeme in its place in a document. -/
structure Terminal where
  lexeme : Lexeme
  objection : Option Objection := none
deriving DecidableEq, Repr

namespace Terminal

/-- A lexeme to which nothing is objected. -/
def plain (lexeme : Lexeme) : Terminal :=
  { lexeme }

/-- A punctuator. -/
def bare (kind : TokenKind) : Terminal :=
  plain (.bare kind)

/-- A name to which nothing is objected. -/
def ofName (text : String) : Terminal :=
  plain (.ofName text)

@[simp] theorem lexeme_plain (lexeme : Lexeme) : (plain lexeme).lexeme = lexeme := rfl

@[simp] theorem objection_plain (lexeme : Lexeme) : (plain lexeme).objection = none := rfl

@[simp] theorem lexeme_bare (kind : TokenKind) : (bare kind).lexeme = .bare kind := rfl

@[simp] theorem objection_bare (kind : TokenKind) : (bare kind).objection = none := rfl

@[simp] theorem lexeme_ofName (text : String) : (ofName text).lexeme = .ofName text := rfl

@[simp] theorem objection_ofName (text : String) : (ofName text).objection = none := rfl

/-- Nothing is objected to any of the terminals. -/
def AllPlain (w : List Terminal) : Prop :=
  ∀ t ∈ w, t.objection = none

@[simp] theorem allPlain_nil : AllPlain [] := by
  simp [AllPlain]

@[simp] theorem allPlain_cons (t : Terminal) (w : List Terminal) :
    AllPlain (t :: w) ↔ t.objection = none ∧ AllPlain w := by
  simp [AllPlain]

@[simp] theorem allPlain_append (v w : List Terminal) :
    AllPlain (v ++ w) ↔ AllPlain v ∧ AllPlain w := by
  simp only [AllPlain, List.mem_append]
  exact ⟨fun h => ⟨fun t ht => h t (.inl ht), fun t ht => h t (.inr ht)⟩,
    fun h t ht => ht.elim (h.1 t) (h.2 t)⟩

@[simp] theorem allPlain_flatMap {β : Type} (xs : List β) (f : β → List Terminal) :
    AllPlain (xs.flatMap f) ↔ ∀ x ∈ xs, AllPlain (f x) := by
  induction xs with
  | nil => simp
  | cons x xs ih => simp [ih]

/-- Terminals without objections are determined by their lexemes. -/
theorem AllPlain.eq_map_plain {w : List Terminal} (h : AllPlain w) :
    w = (w.map lexeme).map plain := by
  induction w with
  | nil => rfl
  | cons t w ih =>
    obtain ⟨ht, hw⟩ := (allPlain_cons t w).mp h
    obtain ⟨lexeme, objection⟩ := t
    simp only [List.map_cons, List.cons.injEq]
    exact ⟨by rw [plain, ← ht], ih hw⟩

end Terminal

end GraphQLSyntax
