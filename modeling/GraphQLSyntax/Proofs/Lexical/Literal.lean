import GraphQLSyntax.Proofs.Lexical.Scanning

/-!
# String literals

Between its quotation marks a string literal consists of items, each of which stands for
one character: either that character itself, or an escape sequence for it.
-/

namespace GraphQLSyntax

/-- Lines, and so comments, end at a line feed, a carriage return, U+2028 or U+2029. -/
def EndsLine (c : Char) : Prop :=
  c ∈ ['\n', '\r', '\u2028', '\u2029']

theorem isLineTerminator_iff {c : Char} : isLineTerminator c = true ↔ EndsLine c := by
  simp [isLineTerminator, EndsLine, or_assoc]

/-! ## Items -/

/-- The letters that make an escape sequence with a backslash alone, each with the character
that is meant. -/
def escapeLetters : List (Char × Char) :=
  [('"', '"'), ('\\', '\\'), ('/', '/'), ('b', '\x08'), ('f', '\x0C'), ('n', '\n'),
    ('r', '\r'), ('t', '\t')]

/-- Four hexadecimal digits and the code that they write. -/
structure IsHexCode (digits : List Char) (code : Nat) : Prop where
  length_eq : digits.length = 4
  hexCode?_eq : hexCode? digits = some code

/-- The text is an item of a string, which stands for the character. -/
inductive StringItem : List Char → Char → Prop
  | plain (c : Char) (hquote : c ≠ '"') (hbackslash : c ≠ '\\') (hline : ¬ EndsLine c) :
      StringItem [c] c
  | letter (letter meant : Char) (h : (letter, meant) ∈ escapeLetters) :
      StringItem ['\\', letter] meant
  | code {digits : List Char} {code : Nat} (hdigits : IsHexCode digits code)
      (hchar : ¬ (0xD800 ≤ code ∧ code < 0xE000)) :
      StringItem ('\\' :: 'u' :: digits) (Char.ofNat code)
  | pair {digits digits' : List Char} {high low : Nat} (hhigh : IsHexCode digits high)
      (hlow : IsHexCode digits' low) (hfirst : 0xD800 ≤ high ∧ high < 0xDC00)
      (hsecond : 0xDC00 ≤ low ∧ low < 0xE000) :
      StringItem ('\\' :: 'u' :: digits ++ '\\' :: 'u' :: digits')
        (Char.ofNat (0x10000 + (high - 0xD800) * 0x400 + (low - 0xDC00)))

/-- The text consists of items, which stand for the characters. -/
inductive StringItems : List Char → List Char → Prop
  | nil : StringItems [] []
  | cons {item text : List Char} {c : Char} {cs : List Char} (h : StringItem item c)
      (hrest : StringItems text cs) : StringItems (item ++ text) (c :: cs)

/-! ## No line ends in items -/

theorem hexDigit?_of_endsLine {c : Char} (h : EndsLine c) : hexDigit? c = none := by
  simp only [EndsLine, List.mem_cons, List.not_mem_nil, or_false] at h
  obtain rfl | rfl | rfl | rfl := h <;> rfl

theorem IsHexCode.not_endsLine {digits : List Char} {code : Nat} (h : IsHexCode digits code) :
    ∀ d ∈ digits, ¬ EndsLine d := by
  obtain ⟨hlength, hcode⟩ := h
  have hdigit : ∀ {d : Char} {n : Nat}, hexDigit? d = some n → ¬ EndsLine d := by
    intro d n hd hline
    rw [hexDigit?_of_endsLine hline] at hd
    cases hd
  obtain ⟨a, b, c, d, rest, _, _, _, _, rfl, ha, hb, hc, hd, -⟩ := hexCode?_eq_some hcode
  obtain rfl : rest = [] := by simpa using hlength
  simp [hdigit ha, hdigit hb, hdigit hc, hdigit hd]

/-- There is no line end in an item of a string. -/
theorem StringItem.not_endsLine {item : List Char} {c : Char} (h : StringItem item c) :
    ∀ d ∈ item, ¬ EndsLine d := by
  have hescape : ∀ {cs : List Char}, (∀ d ∈ cs, ¬ EndsLine d) →
      ∀ d ∈ '\\' :: 'u' :: cs, ¬ EndsLine d := fun hcs =>
    List.forall_mem_cons.2 ⟨by simp [EndsLine], List.forall_mem_cons.2 ⟨by simp [EndsLine], hcs⟩⟩
  cases h with
  | plain _ _ _ hline => exact List.forall_mem_singleton.2 hline
  | letter letter _ h =>
    have hletters : ∀ p ∈ escapeLetters, isLineTerminator p.1 = false := by decide
    have hletter : ¬ EndsLine letter := by
      rw [← isLineTerminator_iff, hletters _ h]
      exact Bool.false_ne_true
    exact List.forall_mem_cons.2 ⟨by simp [EndsLine], List.forall_mem_singleton.2 hletter⟩
  | code hdigits => exact hescape hdigits.not_endsLine
  | pair hhigh hlow =>
    exact hescape (List.forall_mem_append.2 ⟨hhigh.not_endsLine, hescape hlow.not_endsLine⟩)

theorem StringItems.not_endsLine {text meant : List Char} (h : StringItems text meant) :
    ∀ d ∈ text, ¬ EndsLine d := by
  induction h with
  | nil => exact List.forall_mem_nil _
  | cons hitem _ ih => exact List.forall_mem_append.2 ⟨hitem.not_endsLine, ih⟩

/-! ## Surrogates -/

theorem isHighSurrogate_iff {code : Nat} :
    isHighSurrogate code = true ↔ 0xD800 ≤ code ∧ code < 0xDC00 := by
  simp [isHighSurrogate]

theorem isLowSurrogate_iff {code : Nat} :
    isLowSurrogate code = true ↔ 0xDC00 ≤ code ∧ code < 0xE000 := by
  simp [isLowSurrogate]

/-- The halves of surrogate pairs are next to each other. -/
theorem not_surrogate_iff {code : Nat} :
    isHighSurrogate code = false ∧ isLowSurrogate code = false ↔
      ¬ (0xD800 ≤ code ∧ code < 0xE000) := by
  rw [← Bool.not_eq_true, ← Bool.not_eq_true, isHighSurrogate_iff, isLowSurrogate_iff]
  omega

/-! ## Scanned items -/

theorem exists_isHexCode {cs : List Char} {code : Nat} (h : hexCode? cs = some code) :
    ∃ digits rest, cs = digits ++ rest ∧ IsHexCode digits code := by
  obtain ⟨digits, rest, rfl, hlength, -, hread⟩ := hexCode?_readsAscii h
  exact ⟨digits, rest, rfl, hlength, by simpa using hread []⟩

theorem stringItem_of_unicodeEscape? {cs : List Char} {c : Char} {n : Nat}
    (h : unicodeEscape? cs = some (c, n)) :
    ∃ text rest, cs = text ++ rest ∧ text.length = n ∧ StringItem ('\\' :: 'u' :: text) c := by
  obtain ⟨code, hcode, hhigh, hlow, rfl, rfl⟩ |
    ⟨high, low, rest, hhigh, hishigh, hdrop, hlow, hislow, rfl, rfl⟩ := unicodeEscape?_eq_some h
  · obtain ⟨digits, rest, rfl, hdigits⟩ := exists_isHexCode hcode
    exact ⟨digits, rest, rfl, hdigits.length_eq,
      .code hdigits (not_surrogate_iff.1 ⟨hhigh, hlow⟩)⟩
  · obtain ⟨digits, behind, rfl, hdigits⟩ := exists_isHexCode hhigh
    obtain ⟨digits', rest, rfl, hdigits'⟩ := exists_isHexCode hlow
    rw [List.drop_left' hdigits.length_eq] at hdrop
    subst hdrop
    exact ⟨digits ++ '\\' :: 'u' :: digits', rest, by simp,
      by simp [hdigits.length_eq, hdigits'.length_eq],
      .pair hdigits hdigits' (isHighSurrogate_iff.1 hishigh) (isLowSurrogate_iff.1 hislow)⟩

theorem stringItem_of_escape? {cs : List Char} {c : Char} {n : Nat}
    (h : escape? cs = some (c, n)) :
    ∃ text rest, cs = text ++ rest ∧ text.length = n ∧ StringItem ('\\' :: text) c := by
  unfold escape? at h
  split at h
  case h_9 cs =>
    obtain ⟨⟨meant, m⟩, hunicode, h⟩ := Option.map_eq_some_iff.1 h
    obtain ⟨rfl, rfl⟩ := Prod.mk.inj h
    obtain ⟨text, rest, rfl, rfl, hitem⟩ := stringItem_of_unicodeEscape? hunicode
    exact ⟨'u' :: text, rest, rfl, rfl, hitem⟩
  case h_10 => cases h
  all_goals
    obtain ⟨rfl, rfl⟩ := Prod.mk.inj (Option.some.inj h)
    exact ⟨[_], _, rfl, rfl, .letter _ _ (by decide)⟩

/-- The contents of a string are items, up to the first quotation mark that is none. -/
theorem exists_items_of_scanContents {offset : Nat} {decoded cs contents rest : List Char}
    {stop : Nat} (h : scanContents offset decoded cs = .ok (contents, stop, rest)) :
    ∃ text meant, cs = text ++ '"' :: rest ∧ StringItems text meant ∧
      contents = decoded.reverse ++ meant := by
  fun_induction scanContents offset decoded cs with
  | case1 | case3 | case4 | case6 => cases h
  | case2 offset decoded c cs hquote =>
    obtain ⟨rfl, -, rfl⟩ : _ ∧ _ ∧ _ := by simpa using h
    obtain rfl := beq_iff_eq.1 hquote
    exact ⟨[], [], rfl, .nil, (List.append_nil _).symm⟩
  | case5 offset decoded c cs _ _ hbackslash _ meant n hescape ih =>
    obtain ⟨text, others, hcs, hitems, rfl⟩ := ih h
    obtain rfl := beq_iff_eq.1 hbackslash
    obtain ⟨escape, rest', rfl, rfl, hitem⟩ := stringItem_of_escape? hescape
    rw [List.drop_left] at hcs
    exact ⟨'\\' :: escape ++ text, meant :: others, by simp [hcs], .cons hitem hitems, by simp⟩
  | case7 offset decoded c cs hquote hline hbackslash ih =>
    obtain ⟨text, others, rfl, hitems, rfl⟩ := ih h
    have hitem : StringItem [c] c :=
      .plain c (by simpa using hquote) (by simpa using hbackslash)
        (by rwa [← isLineTerminator_iff])
    exact ⟨c :: text, c :: others, rfl, .cons hitem hitems, by simp⟩

/-! ## Reading items -/

theorem IsHexCode.hexCode?_append {digits : List Char} {code : Nat} (h : IsHexCode digits code)
    (rest : List Char) : hexCode? (digits ++ rest) = some code := by
  obtain ⟨text, others, htext, hlength, -, hread⟩ := hexCode?_readsAscii h.hexCode?_eq
  have hdigits : text ++ others = digits ++ [] := by rw [← htext, List.append_nil]
  obtain ⟨rfl, -⟩ := List.append_inj hdigits (hlength.trans h.length_eq.symm)
  exact hread rest

/-- A code that is that of no surrogate is read as its character. -/
theorem IsHexCode.unicodeEscape?_append {digits : List Char} {code : Nat}
    (h : IsHexCode digits code) (hchar : ¬ (0xD800 ≤ code ∧ code < 0xE000)) (rest : List Char) :
    unicodeEscape? (digits ++ rest) = some (Char.ofNat code, 4) := by
  obtain ⟨hhigh, hlow⟩ := not_surrogate_iff.2 hchar
  simp [unicodeEscape?, h.hexCode?_append, hhigh, hlow]

/-- The codes of a surrogate pair are read as the character that the pair stands for. -/
theorem IsHexCode.unicodeEscape?_pair {digits digits' : List Char} {high low : Nat}
    (hhigh : IsHexCode digits high) (hlow : IsHexCode digits' low)
    (hfirst : 0xD800 ≤ high ∧ high < 0xDC00) (hsecond : 0xDC00 ≤ low ∧ low < 0xE000)
    (rest : List Char) :
    unicodeEscape? (digits ++ '\\' :: 'u' :: (digits' ++ rest)) =
      some (ofSurrogates high low, 10) := by
  have hishigh := isHighSurrogate_iff.2 hfirst
  have hislow := isLowSurrogate_iff.2 hsecond
  simp [unicodeEscape?, hhigh.hexCode?_append, hishigh, List.drop_left' hhigh.length_eq,
    hlow.hexCode?_append, hislow]

namespace StringItem

variable {item text : List Char} {c : Char}

/-- An item is a character that stands for itself, or it begins with a backslash. -/
theorem eq_singleton_or_exists (h : StringItem item c) :
    (item = [c] ∧ c ≠ '"' ∧ c ≠ '\\' ∧ ¬ EndsLine c) ∨ ∃ escape, item = '\\' :: escape := by
  cases h with
  | plain _ hquote hbackslash hline => exact .inl ⟨rfl, hquote, hbackslash, hline⟩
  | letter | code | pair => exact .inr ⟨_, rfl⟩

/-- An escape sequence is read as its character, whatever comes after it. -/
theorem escape?_append (h : StringItem ('\\' :: text) c) (rest : List Char) :
    escape? (text ++ rest) = some (c, text.length) := by
  generalize hitem : '\\' :: text = item at h
  cases h with
  | plain _ _ hbackslash =>
    have hc : '\\' = c := (List.cons.inj hitem).1
    exact absurd hc.symm hbackslash
  | letter letter meant hletter =>
    obtain ⟨-, rfl⟩ := List.cons.inj hitem
    have hall : ∀ p ∈ escapeLetters, escape? [p.1] = some (p.2, 1) := by decide
    obtain ⟨text, rest', htext, hlength, -, hread⟩ := escape?_readsAscii (hall _ hletter)
    obtain ⟨d, rfl⟩ := List.length_eq_one_iff.1 hlength
    obtain ⟨rfl, -⟩ := List.cons.inj htext
    exact hread rest
  | code hdigits hchar =>
    obtain ⟨-, rfl⟩ := List.cons.inj hitem
    rw [List.cons_append, escape?, hdigits.unicodeEscape?_append hchar, List.length_cons,
      hdigits.length_eq]
    rfl
  | pair hhigh hlow hfirst hsecond =>
    obtain ⟨-, rfl⟩ := List.cons.inj hitem
    have hread := hhigh.unicodeEscape?_pair hlow hfirst hsecond rest
    simp [escape?, hread, hhigh.length_eq, hlow.length_eq, ofSurrogates]

/-- An escape sequence is written in ASCII characters. -/
theorem isAscii_escape (h : StringItem ('\\' :: text) c) : IsAscii text := by
  obtain ⟨escape, rest, htext, hlength, hascii, -⟩ := escape?_readsAscii (h.escape?_append [])
  obtain ⟨rfl, -⟩ := List.append_inj htext hlength.symm
  exact hascii

end StringItem

theorem scanContents_item {item : List Char} {c : Char} (h : StringItem item c) (offset : Nat)
    (decoded rest : List Char) :
    scanContents offset decoded (item ++ rest) =
      scanContents (offset + byteLength item) (c :: decoded) rest := by
  obtain ⟨rfl, hquote, hbackslash, hline⟩ | ⟨escape, rfl⟩ := h.eq_singleton_or_exists
  · rw [← isLineTerminator_iff, Bool.not_eq_true] at hline
    rw [List.singleton_append, scanContents, byteLength_cons, byteLength_nil, Nat.add_zero]
    simp [hquote, hbackslash, hline]
  · have hsize : byteLength ('\\' :: escape) = 1 + escape.length := by
      rw [byteLength_cons, h.isAscii_escape.byteLength_eq]
      rfl
    rw [List.cons_append, scanContents_escape (h.escape?_append rest) List.drop_left, hsize,
      Nat.add_assoc]

/-- Items are read as the characters that they stand for, and reading goes on behind them. -/
theorem scanContents_items {text meant : List Char} (h : StringItems text meant) (offset : Nat)
    (decoded rest : List Char) :
    scanContents offset decoded (text ++ rest) =
      scanContents (offset + byteLength text) (meant.reverse ++ decoded) rest := by
  induction h generalizing offset decoded with
  | nil => rfl
  | cons hitem _ ih =>
    rw [List.append_assoc, scanContents_item hitem, ih, byteLength_append, Nat.add_assoc]
    simp

/-- A closing quotation mark ends the contents. -/
theorem scanContents_closing (offset : Nat) (decoded rest : List Char) :
    scanContents offset decoded ('"' :: rest) = .ok (decoded.reverse, offset + 1, rest) := by
  rw [scanContents]
  rfl

end GraphQLSyntax
