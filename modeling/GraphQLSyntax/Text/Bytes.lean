/-!
# Characters counted in bytes

Offsets into a text count the bytes of its UTF-8 encoding, while the text
itself is a list of characters.  This module relates the two: the length of a
list of characters in bytes, the encoded bytes, and what is left of a text
from a byte offset on, if that offset does not fall inside a character.
-/

namespace GraphQLSyntax

/-- The number of bytes of the encoded characters. -/
def byteLength (cs : List Char) : Nat :=
  cs.foldl (fun n c => n + c.utf8Size) 0

theorem foldl_utf8Size (cs : List Char) (n : Nat) :
    cs.foldl (fun n c => n + c.utf8Size) n = n + byteLength cs := by
  induction cs generalizing n with
  | nil => simp [byteLength]
  | cons c cs ih => simp only [byteLength, List.foldl_cons]; rw [ih, ih (0 + _)]; omega

@[simp] theorem byteLength_nil : byteLength [] = 0 := rfl

@[simp] theorem byteLength_cons (c : Char) (cs : List Char) :
    byteLength (c :: cs) = c.utf8Size + byteLength cs := by
  simp only [byteLength, List.foldl_cons]; rw [foldl_utf8Size, Nat.zero_add]; rfl

@[simp] theorem byteLength_append (cs ds : List Char) :
    byteLength (cs ++ ds) = byteLength cs + byteLength ds := by
  induction cs with
  | nil => simp
  | cons c cs ih => simp [ih]; omega

theorem byteLength_pos {cs : List Char} (h : cs ≠ []) : 0 < byteLength cs := by
  obtain ⟨c, cs, rfl⟩ := List.exists_cons_of_ne_nil h
  have := c.utf8Size_pos
  rw [byteLength_cons]
  omega

/-- The UTF-8 encoding of a text. -/
def encode (text : String) : List UInt8 :=
  text.toList.flatMap String.utf8EncodeChar

/-- What remains of a text from a byte offset on: nothing at the end or past
it, and no answer at all inside a character. -/
def dropBytes? : Nat → List Char → Option (List Char)
  | 0, cs => some cs
  | _ + 1, [] => some []
  | n + 1, c :: cs =>
    if c.utf8Size ≤ n + 1 then dropBytes? (n + 1 - c.utf8Size) cs else none

/-- The characters that fill exactly the first `n` bytes of a text. -/
def takeBytes? : Nat → List Char → Option (List Char)
  | 0, _ => some []
  | _ + 1, [] => none
  | n + 1, c :: cs =>
    if c.utf8Size ≤ n + 1 then (takeBytes? (n + 1 - c.utf8Size) cs).map (c :: ·)
    else none

theorem dropBytes?_byteLength_append (cs ds : List Char) :
    dropBytes? (byteLength cs) (cs ++ ds) = some ds := by
  induction cs with
  | nil => cases ds <;> rfl
  | cons c cs ih =>
    have hpos := c.utf8Size_pos
    obtain ⟨n, hn⟩ : ∃ n, c.utf8Size + byteLength cs = n + 1 :=
      ⟨c.utf8Size + byteLength cs - 1, by omega⟩
    rw [byteLength_cons, hn, List.cons_append, dropBytes?, if_pos (by omega)]
    rw [show n + 1 - c.utf8Size = byteLength cs by omega, ih]

theorem takeBytes?_byteLength_append (cs ds : List Char) :
    takeBytes? (byteLength cs) (cs ++ ds) = some cs := by
  induction cs with
  | nil => cases ds <;> rfl
  | cons c cs ih =>
    have hpos := c.utf8Size_pos
    obtain ⟨n, hn⟩ : ∃ n, c.utf8Size + byteLength cs = n + 1 :=
      ⟨c.utf8Size + byteLength cs - 1, by omega⟩
    rw [byteLength_cons, hn, List.cons_append, takeBytes?, if_pos (by omega)]
    rw [show n + 1 - c.utf8Size = byteLength cs by omega, ih]
    rfl

end GraphQLSyntax
