import GraphQLSyntax.Proofs.Lexical.Literal
import GraphQLSyntax.Proofs.Lexical.Written

/-!
# How a text is divided

A text begins with what is ignored, which are spaces and comments, and then with the text
of a token, if it does not end.  Of each kind of token it is said here what its text is,
without regard to how it is scanned.
-/

namespace GraphQLSyntax

/-! ## Ignored text -/

/-- What is ignored between tokens besides comments: a space, a comma, U+0009 to U+000D,
U+00A0, U+2028 and U+2029. -/
def IsSpacing (c : Char) : Prop :=
  c ∈ [' ', ',', '\u00A0', '\u2028', '\u2029'] ∨ 0x09 ≤ c.toNat ∧ c.toNat ≤ 0x0D

theorem isBlank_iff {c : Char} : isBlank c = true ↔ IsSpacing c := by
  simp only [isBlank, IsSpacing, Bool.or_eq_true, beq_iff_eq, Bool.and_eq_true, decide_eq_true_eq,
    List.mem_cons, List.not_mem_nil, or_false]
  grind

/-- Before the rest, the text consists of spaces and comments, each of which goes on to the
end of its line. -/
inductive Ignored (rest : List Char) : List Char → Prop
  | nil : Ignored rest []
  | spacing {c : Char} {cs : List Char} (hc : IsSpacing c) (hcs : Ignored rest cs) :
      Ignored rest (c :: cs)
  | comment {text cs : List Char} (htext : ∀ c ∈ text, ¬ EndsLine c)
      (hend : ∀ c, (cs ++ rest).head? = some c → EndsLine c) (hcs : Ignored rest cs) :
      Ignored rest ('#' :: text ++ cs)

/-- The rest of a comment is skipped up to the end of its line. -/
theorem skipIgnored_inComment {text rest : List Char} (htext : ∀ c ∈ text, ¬ EndsLine c)
    (hend : ∀ c, rest.head? = some c → EndsLine c) (offset : Nat) :
    skipIgnored true offset (text ++ rest) = skipIgnored false (offset + byteLength text) rest := by
  induction text generalizing offset with
  | nil =>
    cases rest with
    | nil => rfl
    | cons c rest =>
      have hline : isLineTerminator c = true := isLineTerminator_iff.2 (hend c rfl)
      simp [skipIgnored, hline]
  | cons c text ih =>
    obtain ⟨hc, htext⟩ := List.forall_mem_cons.1 htext
    rw [← isLineTerminator_iff, Bool.not_eq_true] at hc
    rw [List.cons_append, skipIgnored, if_pos (by simp [hc]), ih htext, byteLength_cons,
      Nat.add_assoc]

/-- A comment is skipped up to the end of its line. -/
theorem skipIgnored_sign {text rest : List Char} (htext : ∀ c ∈ text, ¬ EndsLine c)
    (hend : ∀ c, rest.head? = some c → EndsLine c) (offset : Nat) :
    skipIgnored false offset ('#' :: (text ++ rest)) =
      skipIgnored false (offset + 1 + byteLength text) rest :=
  skipIgnored_inComment htext hend (offset + 1)

/-- A text is a line, of which nothing may be left, and what comes from its end on. -/
theorem exists_restOfLine (cs : List Char) :
    ∃ text below, cs = text ++ below ∧ (∀ c ∈ text, ¬ EndsLine c) ∧
      ∀ c, below.head? = some c → EndsLine c := by
  obtain ⟨htext, hcs, hend⟩ := takeWhile_dropWhile_eq_iff.1
    (⟨rfl, rfl⟩ : cs.takeWhile (!isLineTerminator ·) = _ ∧ cs.dropWhile _ = _)
  refine ⟨_, _, hcs, fun c hc => ?_, fun c hc => ?_⟩
  · rw [← isLineTerminator_iff]
    simpa using htext c hc
  · rw [← isLineTerminator_iff]
    simpa using hend c hc

/-- What is skipped is ignored text. -/
theorem ignored_of_skipIgnored {offset start : Nat} {cs rest : List Char}
    (h : skipIgnored false offset cs = (start, rest)) :
    (∀ c, rest.head? = some c → IsInk c) ∧ ∃ gap, cs = gap ++ rest ∧
      start = offset + byteLength gap ∧ Ignored rest gap := by
  -- a comment is left behind as a whole, so the induction is not on the text but on its length
  induction hlength : cs.length using Nat.strongRecOn generalizing offset cs with
  | ind n ih =>
    subst hlength
    cases cs with
    | nil =>
      obtain ⟨rfl, rfl⟩ := Prod.mk.inj h
      exact ⟨nofun, [], rfl, rfl, .nil⟩
    | cons c cs =>
      rw [skipIgnored, if_neg (by simp)] at h
      split at h
      case isTrue hblank =>
        obtain ⟨hrest, gap, rfl, rfl, hgap⟩ := ih _ (by simp) h rfl
        refine ⟨hrest, c :: gap, rfl, ?_, .spacing (isBlank_iff.1 hblank) hgap⟩
        rw [byteLength_cons, Nat.add_assoc]
      case isFalse hblank =>
        split at h
        case isTrue hsign =>
          obtain rfl := beq_iff_eq.1 hsign
          obtain ⟨text, below, rfl, htext, hend⟩ := exists_restOfLine cs
          rw [skipIgnored_inComment htext hend] at h
          have hshorter : below.length < ('#' :: (text ++ below)).length := by
            rw [List.length_cons, List.length_append]
            omega
          obtain ⟨hrest, gap, rfl, rfl, hgap⟩ := ih _ hshorter h rfl
          refine ⟨hrest, '#' :: text ++ gap, by simp, ?_, .comment htext hend hgap⟩
          rw [List.cons_append, byteLength_cons, byteLength_append, Nat.add_assoc, Nat.add_assoc]
        case isFalse hsign =>
          obtain ⟨rfl, rfl⟩ := Prod.mk.inj h
          refine ⟨fun d hd => ?_, [], rfl, rfl, .nil⟩
          obtain rfl := Option.some.inj hd
          exact ⟨by simpa using hblank, by simpa using hsign⟩

/-- Ignored text is skipped, whatever comes after it. -/
theorem Ignored.skipIgnored_eq {gap rest : List Char} (h : Ignored rest gap) (offset : Nat) :
    skipIgnored false offset (gap ++ rest) = skipIgnored false (offset + byteLength gap) rest := by
  induction h generalizing offset with
  | nil => rfl
  | @spacing c cs hc _ ih =>
    have hblank : isBlank c = true := isBlank_iff.2 hc
    rw [List.cons_append, skipIgnored, if_neg (by simp), if_pos hblank, ih, byteLength_cons,
      Nat.add_assoc]
  | @comment text cs htext hend _ ih =>
    rw [List.append_assoc, List.cons_append, skipIgnored_sign htext hend, ih, List.cons_append,
      byteLength_cons, byteLength_append, Nat.add_assoc, Nat.add_assoc]
    rfl

/-! ## The text of a token -/

/-- What a name begins with. -/
def StartsName (c : Char) : Prop :=
  c = '_' ∨ ('A' ≤ c ∧ c ≤ 'Z') ∨ ('a' ≤ c ∧ c ≤ 'z')

/-- What a name goes on with. -/
def ContinuesName (c : Char) : Prop :=
  StartsName c ∨ ('0' ≤ c ∧ c ≤ '9')

theorem isNameStart_iff_startsName {c : Char} : isNameStart c = true ↔ StartsName c :=
  isNameStart_iff_toNat

theorem isNameRest_iff_continuesName {c : Char} : isNameRest c = true ↔ ContinuesName c := by
  rw [isNameRest_iff, isNameStart_iff_startsName, ContinuesName]
  simp [Char.isDigit, Char.le_def]

/-- The text of a token of the lexeme, which the rest comes after.  A name is as long as it
can be. -/
inductive Lexeme.HasText : Lexeme → List Char → List Char → Prop
  | punctuator {kind : TokenKind} (rest : List Char) (hkind : kind ≠ .eof)
      (hvalue : kind.hasValue = false) : HasText (.bare kind) kind.description.toList rest
  | name {value : String} {c : Char} {cs rest : List Char} (hvalue : value.toList = c :: cs)
      (hc : StartsName c) (hcs : ∀ d ∈ cs, ContinuesName d)
      (hend : ∀ d, rest.head? = some d → ¬ ContinuesName d) :
      HasText (.ofName value) (c :: cs) rest
  | int {value : String} (rest : List Char) (h : IsInteger value.toList) :
      HasText ⟨.int, some value⟩ value.toList rest
  | float {value : String} (rest : List Char) (h : IsFloat value.toList) :
      HasText ⟨.float, some value⟩ value.toList rest
  | string {text : List Char} {value : String} (rest : List Char)
      (h : StringItems text value.toList) :
      HasText ⟨.string, some value⟩ ('"' :: text ++ ['"']) rest

namespace Lexeme.HasText

variable {lexeme : Lexeme} {text rest : List Char}

theorem kind_ne_eof (h : lexeme.HasText text rest) : lexeme.kind ≠ .eof := by
  cases h with
  | punctuator _ hkind => exact hkind
  | name | int | float | string => nofun

/-- The text of a token ends with something that is not ignored. -/
theorem exists_getLast? (h : lexeme.HasText text rest) :
    ∃ c, text.getLast? = some c ∧ isBlank c = false := by
  have hword : ∀ {cs : List Char}, (∃ c, cs.getLast? = some c ∧ isNameRest c = true) →
      ∃ c, cs.getLast? = some c ∧ isBlank c = false := by
    rintro cs ⟨c, hc, hrest⟩
    exact ⟨c, hc, (isInk_of_isNameRest hrest).1⟩
  cases h with
  | @punctuator kind =>
    cases kind <;> exact ⟨_, rfl, by decide⟩
  | name hvalue hc hcs =>
    rw [← hvalue]
    refine hword (isName_getLast? (isName_iff.2 ⟨_, _, hvalue, ?_, fun d hd => ?_⟩))
    · exact isNameStart_iff_startsName.2 hc
    · exact isNameRest_iff_continuesName.2 (hcs d hd)
  | int _ h => exact hword h.getLast?
  | float _ h =>
    obtain ⟨-, -, -, -, -, -, hlast⟩ := h.exists_fraction
    exact hword hlast
  | string => exact ⟨'"', List.getLast?_concat, by decide⟩

theorem ne_nil (h : lexeme.HasText text rest) : text ≠ [] := by
  rintro rfl
  obtain ⟨c, hc, -⟩ := h.exists_getLast?
  cases hc

end Lexeme.HasText

theorem hasText_of_ofPunctuator? {c : Char} {kind : TokenKind}
    (h : TokenKind.ofPunctuator? c = some kind) (rest : List Char) :
    (Lexeme.bare kind).HasText [c] rest := by
  obtain ⟨-, hvalue, hkind⟩ := ofPunctuator?_hasValue h
  have htext : kind.description.toList = [c] := by
    unfold TokenKind.ofPunctuator? at h
    split at h <;> cases h
    all_goals rfl
  exact htext ▸ .punctuator rest hkind hvalue

theorem hasText_of_scanName {start : Nat} {c : Char} {cs : List Char}
    (hc : isNameStart c = true) :
    ∃ text, c :: cs = text ++ (scanName start (c :: cs)).rest ∧
      (scanName start (c :: cs)).lexeme.HasText text (scanName start (c :: cs)).rest := by
  obtain ⟨text, rest, rfl, htext, hrest⟩ := exists_name_run hc cs
  rw [← List.cons_append, scanName_run start htext hrest]
  refine ⟨c :: text, rfl, .name String.toList_ofList (isNameStart_iff_startsName.1 hc)
    (fun d hd => isNameRest_iff_continuesName.1 (htext d (List.mem_cons_of_mem c hd)))
    fun d hd hname => ?_⟩
  rw [← isNameRest_iff_continuesName, hrest d hd] at hname
  cases hname

theorem hasText_of_scanNumber {start : Nat} {cs : List Char} {scanned : Scanned}
    (h : scanNumber start cs = .ok scanned) :
    ∃ text, cs = text ++ scanned.rest ∧ scanned.lexeme.HasText text scanned.rest := by
  obtain ⟨integer, fraction, rest, _, hinteger, hform, rfl, -, -, rfl⟩ := scanNumber_parts h
  obtain ⟨value, hvalue⟩ : ∃ value : String, value.toList = integer ++ fraction :=
    ⟨String.ofList (integer ++ fraction), String.toList_ofList⟩
  refine ⟨integer ++ fraction, rfl, ?_⟩
  rw [← hvalue, String.ofList_toList]
  obtain rfl | ⟨digits, exponent, hdigits, hexponent, rfl⟩ := hform
  · exact .int rest (by rwa [hvalue, List.append_nil])
  · refine .float rest ⟨integer, digits, exponent, hinteger, hdigits, hexponent, ?_⟩
    rw [hvalue, List.append_assoc]

theorem hasText_of_scanString {start : Nat} {cs : List Char} {scanned : Scanned}
    (h : scanString start cs = .ok scanned) :
    ∃ text, '"' :: cs = text ++ scanned.rest ∧ scanned.lexeme.HasText text scanned.rest := by
  obtain ⟨⟨contents, stop, rest⟩, hcontents, h⟩ := bind_eq_ok_iff.1 h
  obtain rfl := Except.ok.inj h
  obtain ⟨text, meant, rfl, hitems, rfl⟩ := exists_items_of_scanContents hcontents
  refine ⟨'"' :: text ++ ['"'], by simp, .string rest ?_⟩
  simpa using hitems

/-- What is scanned is the lexeme that the text in front is the text of. -/
theorem hasText_of_scanToken {start : Nat} {c : Char} {cs : List Char} {scanned : Scanned}
    (h : scanToken start (c :: cs) = .ok scanned) :
    ∃ text, c :: cs = text ++ scanned.rest ∧ scanned.lexeme.HasText text scanned.rest := by
  have hscans := scansToken start c cs
  generalize scanToken start (c :: cs) = result at h hscans
  cases hscans with
  | punctuator _ hkind =>
    obtain rfl := Except.ok.inj h
    exact ⟨[c], rfl, hasText_of_ofPunctuator? hkind cs⟩
  | spread rest =>
    obtain rfl := Except.ok.inj h
    exact ⟨['.', '.', '.'], rfl, .punctuator rest (by decide) rfl⟩
  | name _ hc =>
    obtain rfl := Except.ok.inj h
    exact hasText_of_scanName hc
  | number => exact hasText_of_scanNumber h
  | string => exact hasText_of_scanString h
  | nothing => cases h

/-! ## Scanning -/

/-- Scanning leaves out what is ignored and goes on with what begins then. -/
theorem exists_scan_eq (offset : Nat) (cs : List Char) :
    ∃ gap rest, cs = gap ++ rest ∧ Ignored rest gap ∧ (∀ c, rest.head? = some c → IsInk c) ∧
      scan offset cs = scanToken (offset + byteLength gap) rest := by
  cases hskip : skipIgnored false offset cs with
  | mk start rest =>
    obtain ⟨hink, gap, rfl, rfl, hgap⟩ := ignored_of_skipIgnored hskip
    refine ⟨gap, rest, rfl, hgap, hink, ?_⟩
    rw [scan, hskip]

/-- A text of which the end is scanned is ignored. -/
theorem ignored_of_scan {offset : Nat} {cs : List Char} {scanned : Scanned}
    (h : scan offset cs = .ok scanned) (hkind : scanned.lexeme.kind = .eof) :
    Ignored [] cs ∧ scanned = ⟨.bare .eof, offset + byteLength cs, offset + byteLength cs, []⟩ := by
  obtain ⟨gap, rest, rfl, hgap, -, hscan⟩ := exists_scan_eq offset cs
  rw [hscan] at h
  cases rest with
  | nil =>
    obtain rfl := Except.ok.inj h
    rw [List.append_nil]
    exact ⟨hgap, rfl⟩
  | cons c rest =>
    obtain ⟨_, -, htext⟩ := hasText_of_scanToken h
    exact absurd hkind htext.kind_ne_eof

/-- A token that is scanned divides the text. -/
theorem divides_of_scan {offset : Nat} {cs : List Char} {scanned : Scanned}
    (h : scan offset cs = .ok scanned) (hkind : scanned.lexeme.kind ≠ .eof) :
    ∃ gap text, cs = gap ++ text ++ scanned.rest ∧ Ignored (text ++ scanned.rest) gap ∧
      scanned.lexeme.HasText text scanned.rest ∧ scanned.start = offset + byteLength gap ∧
      scanned.stop = offset + byteLength (gap ++ text) := by
  obtain ⟨gap, rest, rfl, hgap, -, hscan⟩ := exists_scan_eq offset cs
  rw [hscan] at h
  cases rest with
  | nil =>
    obtain rfl := Except.ok.inj h
    exact absurd rfl hkind
  | cons c rest =>
    have hcovers := scanToken_covers h
    obtain ⟨text, hcs, htext⟩ := hasText_of_scanToken h
    obtain ⟨text', hcs', hstop, -⟩ := hcovers.exists_text
    obtain rfl := List.append_cancel_right (hcs.symm.trans hcs')
    rw [hcs] at hgap ⊢
    refine ⟨gap, text, by simp, hgap, htext, hcovers.start_eq, ?_⟩
    rw [hstop, byteLength_append gap, Nat.add_assoc]

end GraphQLSyntax
