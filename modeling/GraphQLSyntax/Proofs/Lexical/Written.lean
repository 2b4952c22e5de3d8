import GraphQLSyntax.Proofs.Lexical.Literal
import GraphQLSyntax.Proofs.Lexical.Stream
import GraphQLSyntax.Text.Layout

/-!
# Texts that are written from lexemes

A text is written from lexemes if it consists of their spellings with blanks between
them, and a name or number is never followed by what would go on with it.  Such a text
is read as just these lexemes.  Texts of this kind may be put together as long as they
stay apart in the same sense, and may be indented, since no spelling contains a line
feed.
-/

namespace GraphQLSyntax

/-- How a lexeme is spelled.  A string has many spellings, of which this is the one
that printing chooses. -/
inductive Lexeme.SpelledAs : Lexeme → List Char → Prop
  | punctuator (c : Char) (kind : TokenKind) (h : TokenKind.ofPunctuator? c = some kind) :
      SpelledAs (.bare kind) [c]
  | spread : SpelledAs (.bare .spread) ['.', '.', '.']
  | name (text : String) (h : isName text = true) : SpelledAs (.ofName text) text.toList
  | int (text : String) (h : IsInteger text.toList) :
      SpelledAs ⟨.int, some text⟩ text.toList
  | float (text : String) (h : IsFloat text.toList) :
      SpelledAs ⟨.float, some text⟩ text.toList
  | string (text : String) : SpelledAs ⟨.string, some text⟩ (quote text).toList

/-- If the first text ends in a name or number, the second does not go on with it. -/
def Apart (cs ds : List Char) : Prop :=
  ∀ c ∈ cs.getLast?, isNameRest c = true → EndsWord ds

/-- The text consists of spellings of the lexemes and of blanks. -/
inductive Written : List Char → List Lexeme → Prop
  | nil : Written [] []
  | blank {cs : List Char} {ls : List Lexeme} (c : Char) (hc : isBlank c = true)
      (hrest : Written cs ls) : Written (c :: cs) ls
  | token {text cs : List Char} {lexeme : Lexeme} {ls : List Lexeme}
      (hspelled : lexeme.SpelledAs text) (hapart : Apart text cs) (hrest : Written cs ls) :
      Written (text ++ cs) (lexeme :: ls)

/-! ## Putting texts together -/

theorem endsWord_nil : EndsWord [] := by
  simp [EndsWord]

theorem endsWord_cons {c : Char} {cs : List Char} :
    EndsWord (c :: cs) ↔ isNameRest c = false ∧ c ≠ '.' := by
  simp [EndsWord]

theorem EndsWord.append {cs ds : List Char} (h : EndsWord cs) (hne : cs ≠ []) :
    EndsWord (cs ++ ds) := by
  cases cs with
  | nil => exact absurd rfl hne
  | cons c cs => exact endsWord_cons.2 (endsWord_cons.1 h)

theorem apart_of_endsWord {cs ds : List Char} (h : EndsWord ds) : Apart cs ds :=
  fun _ _ _ => h

theorem Written.append {cs ds : List Char} {ls ms : List Lexeme} (h : Written cs ls)
    (h' : Written ds ms) (hapart : Apart cs ds) : Written (cs ++ ds) (ls ++ ms) := by
  induction h with
  | nil => exact h'
  | @blank cs ls c hc hrest ih =>
    refine .blank c hc (ih fun d hd => hapart d ?_)
    cases cs with
    | nil => cases hd
    | cons => simpa using hd
  | @token text cs lexeme ls hspelled hafter hrest ih =>
    rw [List.append_assoc]
    refine .token hspelled ?_ (ih fun d hd => hapart d ?_)
    · cases cs with
      | nil => simpa using hapart
      | cons c cs => exact fun d hd hrest => (hafter d hd hrest).append (by simp)
    · rw [List.getLast?_append, Option.mem_def.1 hd]
      rfl

theorem Written.blanks {cs ds : List Char} {ls : List Lexeme}
    (hcs : ∀ c ∈ cs, isBlank c = true) (h : Written ds ls) : Written (cs ++ ds) ls := by
  induction cs with
  | nil => exact h
  | cons c cs ih =>
    obtain ⟨hc, hcs⟩ := List.forall_mem_cons.1 hcs
    exact .blank c hc (ih hcs)

/-- A single lexeme. -/
theorem Lexeme.SpelledAs.written {lexeme : Lexeme} {text : List Char}
    (h : lexeme.SpelledAs text) : Written text [lexeme] := by
  have hwritten := Written.token h (apart_of_endsWord endsWord_nil) .nil
  rwa [List.append_nil] at hwritten

/-! ## Reading single spellings -/

/-- A character that is neither blank nor begins a comment. -/
def IsInk (c : Char) : Prop :=
  isBlank c = false ∧ c ≠ '#'

theorem toNat_of_isBlank {c : Char} (h : isBlank c = true) : c.toNat < 45 ∨ 127 < c.toNat := by
  simp only [isBlank, Bool.or_eq_true, beq_iff_eq, Bool.and_eq_true, decide_eq_true_eq] at h
  obtain (((((rfl | rfl) | ⟨-, h⟩) | rfl) | rfl) | rfl) := h
  · decide
  · decide
  · exact .inl (Nat.lt_of_le_of_lt h (by decide))
  all_goals decide

/-- Whatever a name or a number begins with can be seen. -/
theorem isInk_of_toNat {c : Char} (h : 45 ≤ c.toNat ∧ c.toNat ≤ 127) : IsInk c := by
  refine ⟨Bool.eq_false_iff.2 fun hblank => ?_, ?_⟩
  · have := toNat_of_isBlank hblank
    omega
  · rintro rfl
    exact absurd h (by decide)

theorem isInk_of_isNameRest {c : Char} (h : isNameRest c = true) : IsInk c :=
  isInk_of_toNat (toNat_of_isNameRest h)

theorem isInk_of_sign_or_digit {c : Char} (h : c = '-' ∨ c.isDigit = true) : IsInk c := by
  obtain rfl | h := h
  · exact ⟨by decide, by decide⟩
  · exact isInk_of_isNameRest (isNameRest_of_isDigit h)

/-- What a spelling begins with if it is that of no punctuator. -/
theorem ofPunctuator?_eq_none {c : Char} (h : isNameRest c = true ∨ c = '-' ∨ c = '"' ∨ c = '.') :
    TokenKind.ofPunctuator? c = none := by
  unfold TokenKind.ofPunctuator?
  split <;> first | rfl | exact absurd h (by decide)

/-- An integer begins with a minus sign or a digit. -/
theorem IsInteger.exists_cons {cs : List Char} (h : IsInteger cs) :
    ∃ d ds, cs = d :: ds ∧ (d = '-' ∨ d.isDigit = true) := by
  obtain ⟨sign, digits, rfl | rfl, hpart, rfl⟩ := h
  · obtain ⟨hne, hdigits⟩ := hpart.isDigits
    cases cs with
    | nil => exact absurd rfl hne
    | cons d ds => exact ⟨d, ds, rfl, .inr (hdigits d (by simp))⟩
  · exact ⟨'-', digits, rfl, .inl rfl⟩

theorem IsDigits.getLast?_append {digits : List Char} (h : IsDigits digits) (cs : List Char) :
    ∃ d, (cs ++ digits).getLast? = some d ∧ isNameRest d = true := by
  refine ⟨digits.getLast h.1, by simp [List.getLast?_append, List.getLast?_eq_some_getLast h.1], ?_⟩
  exact isNameRest_of_isDigit (h.2 _ (List.getLast_mem h.1))

theorem Apart.endsWord {cs ds : List Char} (h : Apart cs ds)
    (hlast : ∃ d, cs.getLast? = some d ∧ isNameRest d = true) : EndsWord ds := by
  obtain ⟨d, hd, hrest⟩ := hlast
  exact h d hd hrest

theorem isName_getLast? {text : String} (h : isName text = true) :
    ∃ d, text.toList.getLast? = some d ∧ isNameRest d = true := by
  obtain ⟨c, cs, heq, hc, hcs⟩ := isName_iff.1 h
  have hall : ∀ d ∈ text.toList, isNameRest d = true := by
    rw [heq]
    exact List.forall_mem_cons.2 ⟨isNameRest_of_isNameStart hc, hcs⟩
  have hne : text.toList ≠ [] := by simp [heq]
  exact ⟨_, List.getLast?_eq_some_getLast hne, hall _ (List.getLast_mem hne)⟩

theorem IsInteger.getLast? {cs : List Char} (h : IsInteger cs) :
    ∃ d, cs.getLast? = some d ∧ isNameRest d = true := by
  obtain ⟨sign, digits, -, hpart, rfl⟩ := h
  exact hpart.isDigits.getLast?_append sign

/-- A float is an integer and a fraction that is not empty. -/
theorem IsFloat.exists_fraction {cs : List Char} (h : IsFloat cs) :
    ∃ integer fraction, IsInteger integer ∧ IsFraction fraction ∧ fraction ≠ [] ∧
      cs = integer ++ fraction ∧ ∃ d, cs.getLast? = some d ∧ isNameRest d = true := by
  obtain ⟨integer, fraction, exponent, hinteger, hfraction, hexponent, rfl⟩ := h
  refine ⟨integer, '.' :: fraction ++ exponent, hinteger,
    .inr ⟨fraction, exponent, hfraction, hexponent, rfl⟩, by simp, by simp, ?_⟩
  obtain rfl | ⟨sign, digits, -, hdigits, rfl⟩ := hexponent
  · rw [List.append_nil, List.append_cons]
    exact hfraction.getLast?_append _
  · rw [← List.append_assoc]
    exact hdigits.getLast?_append _

/-- What begins like a name is scanned as one. -/
theorem scanToken_of_isNameStart {c : Char} (hc : isNameStart c = true) (start : Nat)
    (cs : List Char) : scanToken start (c :: cs) = .ok (scanName start (c :: cs)) := by
  have hpoint : (c == '.') = false := by
    refine Bool.eq_false_iff.2 fun h => ?_
    rw [beq_iff_eq.1 h] at hc
    exact absurd hc (by decide)
  simp only [scanToken, ofPunctuator?_eq_none (.inl (isNameRest_of_isNameStart hc)), hpoint,
    Bool.false_and, hc]
  rfl

theorem scanToken_name {start : Nat} {text : String} {rest : List Char}
    (htext : isName text = true) :
    scanToken start (text.toList ++ rest) = .ok (scanName start (text.toList ++ rest)) := by
  obtain ⟨c, cs, heq, hc, -⟩ := isName_iff.1 htext
  rw [heq]
  exact scanToken_of_isNameStart hc start (cs ++ rest)

theorem isNameStart_of_isDigit {c : Char} (h : c.isDigit = true) : isNameStart c = false := by
  refine Bool.eq_false_iff.2 fun hstart => ?_
  obtain ⟨-, hle⟩ := Char.isDigit_iff_toNat.1 h
  have hlt : c.toNat < 65 := Nat.lt_of_le_of_lt hle (by decide)
  obtain rfl | hletter := isNameStart_iff_toNat.1 hstart
  · exact absurd h (by decide)
  · omega

/-- What begins like a number is scanned as one. -/
theorem scanToken_of_sign_or_digit {c : Char} (hc : c = '-' ∨ c.isDigit = true) (start : Nat)
    (cs : List Char) : scanToken start (c :: cs) = scanNumber start (c :: cs) := by
  have hnone : TokenKind.ofPunctuator? c = none :=
    ofPunctuator?_eq_none (hc.symm.imp isNameRest_of_isDigit .inl)
  have hpoint : (c == '.') = false := by
    refine Bool.eq_false_iff.2 fun h => ?_
    rw [beq_iff_eq.1 h] at hc
    exact absurd hc (by decide)
  have hstart : isNameStart c = false := by
    obtain rfl | hdigit := hc
    · decide
    · exact isNameStart_of_isDigit hdigit
  have hnumber : (c == '-' || c.isDigit) = true := by simpa using hc
  simp only [scanToken, hnone, hpoint, Bool.false_and, hstart, hnumber]
  rfl

theorem scanToken_number {start : Nat} {integer rest : List Char} (hinteger : IsInteger integer) :
    scanToken start (integer ++ rest) = scanNumber start (integer ++ rest) := by
  obtain ⟨c, cs, rfl, hc⟩ := hinteger.exists_cons
  exact scanToken_of_sign_or_digit hc start (cs ++ rest)

/-! ## Reading quoted strings -/

theorem hexDigit?_hexDigitUpper {n : Nat} (h : n < 16) : hexDigit? (hexDigitUpper n) = some n := by
  have hall : ∀ k : Fin 16, hexDigit? (hexDigitUpper k) = some k.val := by decide
  exact hall ⟨n, h⟩

theorem isHexCode_hexUpper4 {n : Nat} (h : n < 65536) : IsHexCode (hexUpper4 n) n := by
  refine ⟨rfl, ?_⟩
  have hdigit : ∀ k, hexDigit? (hexDigitUpper (k % 16)) = some (k % 16) :=
    fun k => hexDigit?_hexDigitUpper (Nat.mod_lt k (by decide))
  simp only [hexUpper4, hexCode?, hdigit, Option.bind_eq_bind, Option.bind_some,
    Option.some.injEq]
  omega

/-- The characters that are escaped by their codes. -/
theorem toNat_of_isControl {c : Char}
    (h : (isControl c || c == '\u2028' || c == '\u2029') = true) : c.toNat < 0xD800 := by
  simp only [isControl, Bool.or_eq_true, decide_eq_true_eq, Bool.and_eq_true, beq_iff_eq] at h
  obtain ((h | ⟨-, h⟩) | rfl) | rfl := h
  · omega
  · omega
  all_goals decide

/-- A character is written by a letter behind a backslash, by its code, or as it is. -/
theorem escapeCharacter_cases (c : Char) :
    (∃ letter, (letter, c) ∈ escapeLetters ∧ escapeCharacter c = ['\\', letter]) ∨
      ((isControl c || c == '\u2028' || c == '\u2029') = true ∧
        escapeCharacter c = '\\' :: 'u' :: hexUpper4 c.toNat) ∨
      (c ≠ '"' ∧ c ≠ '\\' ∧ isControl c = false ∧ ¬ EndsLine c ∧ escapeCharacter c = [c]) := by
  by_cases hshort : c ∈ ['"', '\\', '\x08', '\x0C', '\n', '\r', '\t']
  · simp only [List.mem_cons, List.not_mem_nil, or_false] at hshort
    rcases hshort with rfl | rfl | rfl | rfl | rfl | rfl | rfl <;>
      exact .inl ⟨_, by decide, rfl⟩
  · simp only [List.mem_cons, List.not_mem_nil, or_false, not_or] at hshort
    obtain ⟨hquote, hbackslash, hb, hf, hn, hr, ht⟩ := hshort
    simp only [escapeCharacter, hquote, hbackslash, hb, hf, hn, hr, ht, if_false]
    by_cases hcode : isControl c || c == '\u2028' || c == '\u2029'
    · exact .inr (.inl ⟨hcode, if_pos hcode⟩)
    · have hplain := hcode
      simp only [Bool.or_eq_true, beq_iff_eq, not_or, Bool.not_eq_true] at hplain
      have hline : ¬ EndsLine c := by simp [EndsLine, hn, hr, hplain]
      exact .inr (.inr ⟨hquote, hbackslash, hplain.1.1, hline, if_neg hcode⟩)

/-- A character is written as an item that stands for it. -/
theorem stringItem_escapeCharacter (c : Char) : StringItem (escapeCharacter c) c := by
  rcases escapeCharacter_cases c with ⟨letter, hletter, heq⟩ | ⟨hcontrol, heq⟩ |
    ⟨hquote, hbackslash, -, hline, heq⟩
  · rw [heq]
    exact .letter letter c hletter
  · have hsmall : c.toNat < 0xD800 := toNat_of_isControl hcontrol
    have hcode : IsHexCode (hexUpper4 c.toNat) c.toNat := isHexCode_hexUpper4 (by omega)
    have hitem := StringItem.code hcode (by omega)
    rw [Char.ofNat_toNat] at hitem
    rwa [heq]
  · rw [heq]
    exact .plain c hquote hbackslash hline

theorem stringItems_flatMap (cs : List Char) :
    StringItems (cs.flatMap escapeCharacter) cs := by
  induction cs with
  | nil => exact .nil
  | cons c cs ih => exact .cons (stringItem_escapeCharacter c) ih

theorem toList_quote (text : String) :
    (quote text).toList = '"' :: (text.toList.flatMap escapeCharacter ++ ['"']) := by
  simp [quote]

/-- A quoted text is read back up to its closing quotation mark. -/
theorem scanToken_quote (start : Nat) (text : String) (rest : List Char) :
    scanToken start ((quote text).toList ++ rest) =
      .ok
        { lexeme := ⟨.string, some text⟩
          start
          stop := start + byteLength (quote text).toList
          rest } := by
  have hcs : (quote text).toList ++ rest =
      '"' :: (text.toList.flatMap escapeCharacter ++ '"' :: rest) := by
    simp [toList_quote]
  have hstring : scanToken start ('"' :: (text.toList.flatMap escapeCharacter ++ '"' :: rest)) =
      scanString start (text.toList.flatMap escapeCharacter ++ '"' :: rest) := rfl
  have hsize : byteLength (quote text).toList =
      1 + byteLength (text.toList.flatMap escapeCharacter) + 1 := by
    rw [toList_quote, byteLength_cons, byteLength_append, Nat.add_assoc]
    rfl
  rw [hcs, hstring, scanString, scanContents_items (stringItems_flatMap text.toList),
    scanContents_closing, hsize]
  simp [Bind.bind, Except.bind, Nat.add_assoc]

/-! ## No line ends in spellings -/

theorem IsInk.not_endsLine {c : Char} (h : IsInk c) : ¬ EndsLine c := by
  intro hline
  have hblank : isBlank c = true := isBlank_of_isLineTerminator (isLineTerminator_iff.2 hline)
  rw [h.1] at hblank
  exact Bool.false_ne_true hblank

theorem IsDigits.isInk {cs : List Char} (h : IsDigits cs) : ∀ c ∈ cs, IsInk c :=
  fun c hc => isInk_of_isNameRest (isNameRest_of_isDigit (h.2 c hc))

theorem IsSign.isInk {cs : List Char} (h : IsSign cs) : ∀ c ∈ cs, IsInk c := by
  rcases h with rfl | rfl
  · exact List.forall_mem_nil _
  · exact List.forall_mem_singleton.2 ⟨by decide, by decide⟩

theorem IsInteger.isInk {cs : List Char} (h : IsInteger cs) : ∀ c ∈ cs, IsInk c := by
  obtain ⟨sign, digits, hsign, hpart, rfl⟩ := h
  exact List.forall_mem_append.2 ⟨hsign.isInk, hpart.isDigits.isInk⟩

theorem IsExponent.isInk {cs : List Char} (h : IsExponent cs) : ∀ c ∈ cs, IsInk c := by
  rcases h with rfl | ⟨sign, digits, hsign, hdigits, rfl⟩
  · exact List.forall_mem_nil _
  · exact List.forall_mem_append.2
      ⟨List.forall_mem_cons.2 ⟨⟨by decide, by decide⟩, hsign.isInk⟩, hdigits.isInk⟩

theorem IsFloat.isInk {cs : List Char} (h : IsFloat cs) : ∀ c ∈ cs, IsInk c := by
  obtain ⟨integer, fraction, exponent, hinteger, hfraction, hexponent, rfl⟩ := h
  have hpoint : ∀ c ∈ '.' :: fraction, IsInk c :=
    List.forall_mem_cons.2 ⟨⟨by decide, by decide⟩, hfraction.isInk⟩
  exact List.forall_mem_append.2
    ⟨List.forall_mem_append.2 ⟨hinteger.isInk, hpoint⟩, hexponent.isInk⟩

theorem isInk_of_isName {text : String} (h : isName text = true) :
    ∀ c ∈ text.toList, IsInk c := by
  obtain ⟨c, cs, heq, hc, hcs⟩ := isName_iff.1 h
  rw [heq]
  exact List.forall_mem_cons.2 ⟨isInk_of_isNameRest (isNameRest_of_isNameStart hc),
    fun d hd => isInk_of_isNameRest (hcs d hd)⟩

theorem isInk_of_ofPunctuator? {c : Char} {kind : TokenKind}
    (h : TokenKind.ofPunctuator? c = some kind) : IsInk c := by
  unfold TokenKind.ofPunctuator? at h
  split at h <;> first | (constructor <;> decide) | cases h

theorem Lexeme.SpelledAs.not_endsLine {lexeme : Lexeme} {text : List Char}
    (h : lexeme.SpelledAs text) : ∀ c ∈ text, ¬ EndsLine c := by
  cases h with
  | punctuator c kind h =>
    exact List.forall_mem_singleton.2 (isInk_of_ofPunctuator? h).not_endsLine
  | spread => simp [EndsLine]
  | name text h => exact fun c hc => (isInk_of_isName h c hc).not_endsLine
  | int text h => exact fun c hc => (h.isInk c hc).not_endsLine
  | float text h => exact fun c hc => (h.isInk c hc).not_endsLine
  | string text =>
    have hmark : ¬ EndsLine '"' := by simp [EndsLine]
    rw [toList_quote]
    exact List.forall_mem_cons.2 ⟨hmark, List.forall_mem_append.2
      ⟨(stringItems_flatMap text.toList).not_endsLine, List.forall_mem_singleton.2 hmark⟩⟩

/-! ## Reading whole texts -/

theorem Lexeme.SpelledAs.scanToken {lexeme : Lexeme} {text rest : List Char}
    (h : lexeme.SpelledAs text) (hapart : Apart text rest) (start : Nat) :
    ∃ scanned, GraphQLSyntax.scanToken start (text ++ rest) = .ok scanned ∧
      scanned.lexeme = lexeme ∧ scanned.rest = rest := by
  cases h with
  | punctuator c kind h =>
    refine ⟨⟨.bare kind, start, start + 1, rest⟩, ?_, rfl, rfl⟩
    simp only [List.singleton_append, GraphQLSyntax.scanToken, h]
    rfl
  | spread => exact ⟨_, rfl, rfl, rfl⟩
  | name text h =>
    rw [scanToken_name h, scanName_append h (hapart.endsWord (isName_getLast? h))]
    exact ⟨_, rfl, rfl, rfl⟩
  | int text h =>
    have hrest := hapart.endsWord h.getLast?
    have hscan := scanNumber_append start h (.inl rfl) hrest
    rw [List.append_nil] at hscan
    rw [scanToken_number h, hscan]
    exact ⟨_, rfl, by simp, rfl⟩
  | float text h =>
    obtain ⟨integer, fraction, hinteger, hfraction, hne, heq, hlast⟩ := h.exists_fraction
    have hscan := scanNumber_append start hinteger hfraction (hapart.endsWord hlast)
    rw [heq, List.append_assoc, scanToken_number hinteger, ← List.append_assoc, hscan]
    refine ⟨_, rfl, ?_, rfl⟩
    simp [hne, ← heq]
  | string text =>
    exact ⟨_, scanToken_quote start text rest, rfl, rfl⟩

theorem Lexeme.SpelledAs.exists_cons {lexeme : Lexeme} {text : List Char}
    (h : lexeme.SpelledAs text) : ∃ c cs, text = c :: cs ∧ IsInk c := by
  cases h with
  | punctuator c kind h =>
    exact ⟨c, [], rfl, isInk_of_ofPunctuator? h⟩
  | spread => exact ⟨_, _, rfl, by decide, by decide⟩
  | name text h =>
    obtain ⟨c, cs, heq, hc, -⟩ := isName_iff.1 h
    exact ⟨c, cs, heq, isInk_of_isNameRest (isNameRest_of_isNameStart hc)⟩
  | int text h =>
    obtain ⟨c, cs, heq, hc⟩ := h.exists_cons
    exact ⟨c, cs, heq, isInk_of_sign_or_digit hc⟩
  | float text h =>
    obtain ⟨integer, fraction, hinteger, -, -, heq, -⟩ := h.exists_fraction
    obtain ⟨c, cs, rfl, hc⟩ := hinteger.exists_cons
    exact ⟨c, cs ++ fraction, heq, isInk_of_sign_or_digit hc⟩
  | string text => exact ⟨_, _, toList_quote text, by decide, by decide⟩

theorem scan_blank {c : Char} (hc : isBlank c = true) (offset : Nat) (cs : List Char) :
    scan offset (c :: cs) = scan (offset + c.utf8Size) cs := by
  simp [scan, skipIgnored, hc]

theorem scan_ink {c : Char} (hc : IsInk c) (offset : Nat) (cs : List Char) :
    scan offset (c :: cs) = scanToken offset (c :: cs) := by
  simp [scan, skipIgnored, hc.1, hc.2]

/-- The first lexeme of a written text is scanned, and what is left is written from the
others. -/
theorem Written.scan {cs : List Char} {ls : List Lexeme} (h : Written cs ls) (offset : Nat) :
    ∃ scanned, GraphQLSyntax.scan offset cs = .ok scanned ∧
      ((ls = [] ∧ scanned.lexeme = .bare .eof) ∨
        ∃ ms, ls = scanned.lexeme :: ms ∧ Written scanned.rest ms) := by
  induction h generalizing offset with
  | nil => exact ⟨_, rfl, .inl ⟨rfl, rfl⟩⟩
  | blank c hc _ ih =>
    rw [scan_blank hc]
    exact ih _
  | token hspelled hapart hrest _ =>
    obtain ⟨scanned, hscan, rfl, rfl⟩ := hspelled.scanToken hapart offset
    obtain ⟨c, cs, rfl, hc⟩ := hspelled.exists_cons
    exact ⟨scanned, (scan_ink hc offset _).trans hscan, .inr ⟨_, rfl, hrest⟩⟩

theorem Lexeme.SpelledAs.not_eof {lexeme : Lexeme} {text : List Char}
    (h : lexeme.SpelledAs text) : lexeme.kind ≠ .eof := by
  cases h with
  | punctuator c kind h => exact (ofPunctuator?_hasValue h).2.2
  | spread | name | int | float | string => nofun

theorem Written.not_eof {cs : List Char} {ls : List Lexeme} (h : Written cs ls) :
    ∀ l ∈ ls, l.kind ≠ .eof := by
  induction h with
  | nil => simp
  | blank _ _ _ ih => exact ih
  | token hspelled _ _ ih => exact List.forall_mem_cons.2 ⟨hspelled.not_eof, ih⟩

theorem readOn_of_written {source : Source} (hfits : source.byteCount < UInt32.size)
    {limit offset : Nat} {cs : List Char} {ls : List Lexeme} (h : Written cs ls)
    (hoffset : offset + byteLength cs = source.byteCount) (hlimit : byteLength cs < limit) :
    ∃ (ts : List Token) (token : Token), source.readOn limit (GraphQLSyntax.scan offset cs) =
      ts.map .ok ++ [.ok token] ∧ token.kind = .eof ∧ ts.map Token.lexeme = ls := by
  induction limit generalizing offset cs ls with
  | zero => omega
  | succ limit ih =>
    obtain ⟨scanned, hscan, hcases⟩ := h.scan offset
    obtain ⟨heof, -, -, hread⟩ | ⟨hkind, -, hoffset', hless, hread⟩ :=
      Source.readOn_step hfits hoffset hscan
    · obtain ⟨rfl, -⟩ | ⟨ms, rfl, -⟩ := hcases
      · exact ⟨[], scanned.token, hread limit, congrArg Lexeme.kind heof, rfl⟩
      · exact absurd (congrArg Lexeme.kind heof) (h.not_eof _ (by simp))
    · obtain ⟨-, heof⟩ | ⟨ms, rfl, hrest⟩ := hcases
      · exact absurd (congrArg Lexeme.kind heof) hkind
      · obtain ⟨ts, token, heq, hend, rfl⟩ := ih hrest hoffset' (by omega)
        exact ⟨scanned.token :: ts, token, by rw [hread, heq]; rfl, hend, rfl⟩

/-- A body that is written from lexemes is read as these lexemes, up to its end. -/
theorem Source.tokens_of_written {source : Source} (hfits : source.byteCount < UInt32.size)
    {ls : List Lexeme} (h : Written source.chars ls) :
    ∃ (ts : List Token) (token : Token), source.tokens = ts.map .ok ++ [.ok token] ∧
      token.kind = .eof ∧ ts.map Token.lexeme = ls :=
  readOn_of_written hfits h (by simp [byteCount_eq]) (by simp [byteCount_eq])

end GraphQLSyntax
