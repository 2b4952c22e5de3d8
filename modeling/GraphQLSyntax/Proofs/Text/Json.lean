import Mathlib.Tactic.SplitIfs
import GraphQLSyntax.Json
import GraphQLSyntax.Proofs.Source.Excerpt
import GraphQLSyntax.Token.Scan

/-!
# What a text of JSON spells

The grammar of JSON, as far as the values go that are printed here: blanks may stand around every
value, items and fields are parted by commas, and a string is written character by character.  It
does not speak of lines or of indentation.  The text that a value is printed as spells this value,
at any depth.
-/

namespace GraphQLSyntax

namespace Json

/-- Blanks, which may stand around values. -/
def IsSpace (cs : List Char) : Prop :=
  ∀ c ∈ cs, c = ' ' ∨ c = '\t' ∨ c = '\n' ∨ c = '\r'

/-- The letters that stand for a character behind a backslash. -/
def shortEscapes : List (Char × Char) :=
  [('"', '"'), ('\\', '\\'), ('/', '/'), ('b', '\x08'), ('f', '\x0C'), ('n', '\n'),
    ('r', '\r'), ('t', '\t')]

/-- How a character is written inside a string. -/
inductive SpellsChar : List Char → Char → Prop
  | plain {c : Char} (hquote : c ≠ '"') (hbackslash : c ≠ '\\') (hcontrol : 0x20 ≤ c.toNat) :
    SpellsChar [c] c
  | short {c letter : Char} (h : (letter, c) ∈ shortEscapes) : SpellsChar ['\\', letter] c
  | code {c : Char} {digits : List Char} (hlength : digits.length = 4)
    (h : hexCode? digits = some c.toNat) : SpellsChar ('\\' :: 'u' :: digits) c

/-- How the characters of a string are written. -/
inductive SpellsChars : List Char → List Char → Prop
  | nil : SpellsChars [] []
  | cons {written rest : List Char} {c : Char} {cs : List Char} (hc : SpellsChar written c)
    (hcs : SpellsChars rest cs) : SpellsChars (written ++ rest) (c :: cs)

/-- How a string is written. -/
def SpellsString (written : List Char) (s : String) : Prop :=
  ∃ contents, SpellsChars contents s.toList ∧ written = '"' :: contents ++ ['"']

mutual

/-- The text spells the value. -/
inductive Spells : List Char → Json → Prop
  | spaced {before cs after : List Char} {x : Json} (hbefore : IsSpace before) (h : Spells cs x)
    (hafter : IsSpace after) : Spells (before ++ cs ++ after) x
  | null : Spells "null".toList .null
  | true : Spells "true".toList (.bool true)
  | false : Spells "false".toList (.bool false)
  | number (n : Int) : Spells (toString n).toList (.number n)
  | text {cs : List Char} {s : String} (h : SpellsString cs s) : Spells cs (.text s)
  | array {cs : List Char} {xs : List Json} (h : SpellsItems cs xs) :
    Spells ('[' :: cs ++ [']']) (.array xs)
  | object {cs : List Char} {fields : List (String × Json)} (h : SpellsFields cs fields) :
    Spells ('\x7b' :: cs ++ ['\x7d']) (.object fields)

/-- The text spells the items of an array. -/
inductive SpellsItems : List Char → List Json → Prop
  | nil : SpellsItems [] []
  | single {cs : List Char} {x : Json} (hx : Spells cs x) : SpellsItems cs [x]
  | cons {cs rest : List Char} {x y : Json} {xs : List Json} (hx : Spells cs x)
    (hxs : SpellsItems rest (y :: xs)) : SpellsItems (cs ++ ',' :: rest) (x :: y :: xs)

/-- The text spells the fields of an object. -/
inductive SpellsFields : List Char → List (String × Json) → Prop
  | nil : SpellsFields [] []
  | single {cs : List Char} {field : String × Json} (h : SpellsField cs field) :
    SpellsFields cs [field]
  | cons {cs rest : List Char} {field next : String × Json} {fields : List (String × Json)}
    (h : SpellsField cs field) (hrest : SpellsFields rest (next :: fields)) :
    SpellsFields (cs ++ ',' :: rest) (field :: next :: fields)

/-- The text spells a key and a value. -/
inductive SpellsField : List Char → String × Json → Prop
  | field {before key after cs : List Char} {name : String} {x : Json} (hbefore : IsSpace before)
    (hkey : SpellsString key name) (hafter : IsSpace after) (hx : Spells cs x) :
    SpellsField (before ++ key ++ after ++ ':' :: cs) (name, x)

end

/-! ## Strings and line ends -/

theorem spellsChar_escape (c : Char) : SpellsChar (escape c) c := by
  unfold escape
  split_ifs with hquote hbackslash hb hf hn hr ht hcontrol
  · subst hquote
    exact .short (by decide)
  · subst hbackslash
    exact .short (by decide)
  · subst hb
    exact .short (by decide)
  · subst hf
    exact .short (by decide)
  · subst hn
    exact .short (by decide)
  · subst hr
    exact .short (by decide)
  · subst ht
    exact .short (by decide)
  · have hcode : ∀ n < 0x20,
        hexCode? ['0', '0', hexDigitLower (n / 16), hexDigitLower (n % 16)] = some n := by
      decide
    exact .code rfl (hcode _ hcontrol)
  · exact .plain hquote hbackslash (Nat.le_of_not_lt hcontrol)

theorem spellsString_quote (s : String) : SpellsString (quote s).toList s := by
  have hchars (cs : List Char) : SpellsChars (cs.flatMap escape) cs := by
    induction cs with
    | nil => exact .nil
    | cons c cs ih => exact .cons (spellsChar_escape c) ih
  exact ⟨_, hchars s.toList, by simp [quote]⟩

theorem isSpace_newLine (depth : Nat) : IsSpace (newLine depth).toList := by
  intro c hc
  rw [newLine, toList_pushn, List.mem_append, List.mem_replicate] at hc
  obtain hend | ⟨-, hspace⟩ := hc
  · exact .inr (.inr (.inl (by simpa using hend)))
  · exact .inl hspace

theorem isSpace_nil : IsSpace [] :=
  List.forall_mem_nil _

variable {cs : List Char} {depth : Nat} {x : Json}

theorem Spells.onNewLine (h : Spells cs x) (depth : Nat) :
    Spells ((newLine depth).toList ++ cs) x := by
  simpa using Spells.spaced (isSpace_newLine depth) h isSpace_nil

/-- A key and a value, with a space between them. -/
theorem Spells.field {before after : List Char} (h : Spells cs x) (key : String)
    (hbefore : IsSpace before) (hafter : IsSpace after) :
    SpellsField (before ++ (quote key).toList ++ ':' :: ' ' :: cs ++ after) (key, x) := by
  have hspace : IsSpace [' '] := by simp [IsSpace]
  simpa using SpellsField.field hbefore (spellsString_quote key) isSpace_nil
    (Spells.spaced hspace h hafter)

/-! ## Printed values -/

/-- Only the comma in front of a value tells whether it is the first one. -/
theorem prettyItems_cons (depth : Nat) (before : String) (x : Json) (xs : List Json) :
    prettyItems depth before (x :: xs) = before ++ prettyItems depth "" (x :: xs) := by
  simp [prettyItems, String.append_assoc]

theorem prettyFields_cons (depth : Nat) (before : String) (field : String × Json)
    (fields : List (String × Json)) :
    prettyFields depth before (field :: fields) =
      before ++ prettyFields depth "" (field :: fields) := by
  simp [prettyFields, String.append_assoc]

mutual

/-- A value is spelled by the text that it is printed as. -/
theorem spells_pretty (depth : Nat) : (x : Json) → Spells (x.pretty depth).toList x
  | .null => .null
  | .bool true => .true
  | .bool false => .false
  | .number n => .number n
  | .text s => .text (spellsString_quote s)
  | .array [] => by simpa [pretty] using Spells.array .nil
  | .array (x :: xs) => by
    have hitems := spellsItems_pretty depth (x :: xs) (List.cons_ne_nil _ _) (isSpace_newLine depth)
    simpa [pretty] using Spells.array hitems
  | .object [] => by simpa [pretty] using Spells.object .nil
  | .object (field :: fields) => by
    have hfields := spellsFields_pretty depth (field :: fields) (List.cons_ne_nil _ _)
      (isSpace_newLine depth)
    simpa [pretty] using Spells.object hfields

/-- Blanks behind the last item belong to it. -/
theorem spellsItems_pretty (depth : Nat) : (xs : List Json) → xs ≠ [] → {after : List Char} →
    IsSpace after → SpellsItems ((prettyItems depth "" xs).toList ++ after) xs
  | [x], _, after, hafter => by
    have hx := Spells.spaced (isSpace_newLine (depth + 1)) (spells_pretty (depth + 1) x) hafter
    simpa [prettyItems] using SpellsItems.single hx
  | x :: y :: ys, _, after, hafter => by
    have hx := (spells_pretty (depth + 1) x).onNewLine (depth + 1)
    have hys := spellsItems_pretty depth (y :: ys) (List.cons_ne_nil _ _) hafter
    rw [prettyItems, prettyItems_cons depth ","]
    simpa using SpellsItems.cons hx hys

/-- Blanks behind the last field belong to its value. -/
theorem spellsFields_pretty (depth : Nat) : (fields : List (String × Json)) → fields ≠ [] →
    {after : List Char} → IsSpace after →
    SpellsFields ((prettyFields depth "" fields).toList ++ after) fields
  | [(key, x)], _, after, hafter => by
    have hfield := (spells_pretty (depth + 1) x).field key (isSpace_newLine (depth + 1)) hafter
    simpa [prettyFields] using SpellsFields.single hfield
  | (key, x) :: next :: fields, _, after, hafter => by
    have hfield := (spells_pretty (depth + 1) x).field key (isSpace_newLine (depth + 1)) isSpace_nil
    have hfields := spellsFields_pretty depth (next :: fields) (List.cons_ne_nil _ _) hafter
    rw [prettyFields, prettyFields_cons depth ","]
    simpa using SpellsFields.cons hfield hfields

end

end Json

end GraphQLSyntax
