import GraphQLSyntax.Proofs.Parsing.Diagnostics
import GraphQLSyntax.Proofs.Text.Lines

/-!
# Diagnostics of one line

A summary is meant to be one line, and so is the header of a message.  Whatever a diagnostic is
worded from has no line end in it, with one exception.  A token is quoted with its value, and
the value of a string may have line ends in it that were written as escape sequences.  So a
diagnostic keeps to its line exactly if it does not quote such a string.
-/

namespace GraphQLSyntax

/-! ## What diagnostics are worded from -/

theorem isOneLine_of_isName {text : String} (h : isName text = true) : IsOneLine text := by
  intro c hc
  exact (isInk_of_isName h c hc).not_endsLine

theorem isOneLine_toString (n : Nat) : IsOneLine (toString n) := by
  intro c hc
  have hdigit : c ∈ Nat.toDigits 10 n := by
    rw [← Nat.toList_repr]
    exact hc
  have hrest := isNameRest_of_isDigit
    (Nat.isDigit_of_mem_toDigits (by decide) (by decide) hdigit)
  exact (isInk_of_isNameRest hrest).not_endsLine

theorem TokenKind.isOneLine_description (kind : TokenKind) : IsOneLine kind.description := by
  cases kind <;> decide

/-- A character is shown by its code if it is a control character, so only the two separators
would end a line. -/
theorem Cause.isOneLine_showCharacter {c : Char} (h : IsInk c) :
    IsOneLine (Cause.showCharacter c) := by
  unfold Cause.showCharacter
  split
  case isTrue hcontrol =>
    have hsmall : c.toNat < 65536 := by
      have := @toNat_of_isControl c (by simp [hcontrol])
      omega
    have hcode : IsHexCode (hexUpper4 c.toNat) c.toNat := isHexCode_hexUpper4 hsmall
    intro d hd
    rw [String.toList_ofList, List.mem_cons, List.mem_cons] at hd
    rcases hd with rfl | rfl | hd
    · simp [EndsLine]
    · simp [EndsLine]
    · exact hcode.not_endsLine d hd
  case isFalse =>
    intro d hd
    obtain rfl : d = c := by simpa using hd
    exact h.not_endsLine

/-- A token that breaks off is not quoted. -/
theorem BrokenToken.isOneLine_description {before after : List Char} {cause : Cause}
    (h : BrokenToken before after cause) : IsOneLine cause.description := by
  cases h with
  | character hink =>
    unfold Cause.description
    rw [isOneLine_append_iff, isOneLine_append_iff]
    exact ⟨⟨by decide, Cause.isOneLine_showCharacter hink⟩, by decide⟩
  | number => decide
  | string h => cases h <;> decide

/-- Of all values only that of a string may have line ends in it. -/
theorem Lexeme.IsProper.isOneLine_description_iff {lexeme : Lexeme} (h : lexeme.IsProper) :
    IsOneLine lexeme.description ↔ (lexeme.kind = .string → IsOneLine lexeme.text) := by
  obtain ⟨kind, _ | value⟩ := lexeme
  · have hkind : kind ≠ .string := by
      rintro rfl
      cases h
    have hdescription := kind.isOneLine_description
    simp [description, hkind, hdescription]
  · have hvalue : kind ≠ .string → IsOneLine value := by
      intro hkind
      cases kind with
      | name => exact isOneLine_of_isName h
      | int => exact (SpelledAs.int value h).not_endsLine
      | float => exact (SpelledAs.float value h).not_endsLine
      | string => contradiction
      | _ => cases h
    have hquoted : IsOneLine (Lexeme.mk kind (some value)).description ↔ IsOneLine value := by
      have hmarks : IsOneLine " \"" ∧ IsOneLine "\"" := ⟨by decide, by decide⟩
      unfold description
      simp only [isOneLine_append_iff, kind.isOneLine_description, hmarks, true_and, and_true]
    rw [hquoted]
    by_cases hkind : kind = .string
    · simp [hkind, text]
    · simp [hkind, hvalue hkind]

/-- What is said of a token that must not stand where it is. -/
theorem Parser.Blames.isOneLine_description_iff {cause : Cause} {found : Lexeme}
    (h : Blames cause found) (hproper : found.IsProper) :
    IsOneLine cause.description ↔ (found.kind = .string → IsOneLine found.text) := by
  have hfound := hproper.isOneLine_description_iff
  cases h with
  | expectedKind kind =>
    have hwords : IsOneLine "Expected " ∧ IsOneLine ", found " := ⟨by decide, by decide⟩
    unfold Cause.description
    simp only [isOneLine_append_iff, kind.isOneLine_description, hwords, true_and, hfound]
  | @expectedKeyword word hword =>
    have hwords : IsOneLine "Expected \"" ∧ IsOneLine "\", found " := ⟨by decide, by decide⟩
    unfold Cause.description
    simp only [isOneLine_append_iff, isOneLine_of_isName hword, hwords, true_and, hfound]
  | unexpected =>
    have hword : IsOneLine "Unexpected " := by decide
    unfold Cause.description
    simp only [isOneLine_append_iff, hword, true_and, hfound]
  | duplicateField name =>
    have hwords : IsOneLine "Duplicate input object field " ∧ IsOneLine "." :=
      ⟨by decide, by decide⟩
    -- The lexeme is a name, so both sides hold.
    unfold Cause.description
    simp [isOneLine_append_iff, hwords, isOneLine_of_isName hproper]
  | reservedName name =>
    have hword : IsOneLine "Unexpected " := by decide
    unfold Cause.description
    simp only [isOneLine_append_iff, hword, true_and]
    exact hfound

/-! ## One line or more -/

namespace SyntaxError

/-- The diagnostic quotes a token of the source that it blames, a string with a line end in its
value. -/
def QuotesLineEnd (error : SyntaxError) : Prop :=
  ∃ token, .ok token ∈ error.source.tokens ∧ error.fault.position = token.start ∧
    Parser.Blames error.fault.cause token.lexeme ∧ token.kind = .string ∧
      ¬ IsOneLine token.lexeme.text

/-- The message begins with its header, which is its whole first line, and an empty line. -/
def HeaderIsFirstLine (error : SyntaxError) : Prop :=
  ∃ lines, HasLines error.message.toList (⟨error.header.toList, ['\n']⟩ :: ⟨[], ['\n']⟩ :: lines)

variable {error : SyntaxError}

theorem isOneLine_summary_iff (hname : IsOneLine error.source.name) :
    IsOneLine error.summary ↔ IsOneLine error.description := by
  have hwords : IsOneLine ":" ∧ IsOneLine ": error: " := ⟨by decide, by decide⟩
  unfold summary
  simp only [isOneLine_append_iff, hname, hwords, isOneLine_toString, true_and]

theorem isOneLine_header_iff (hname : IsOneLine error.source.name) :
    IsOneLine error.header ↔ IsOneLine error.description := by
  have hwords : IsOneLine "Syntax Error " ∧ IsOneLine " (" ∧ IsOneLine ":" ∧ IsOneLine ") " :=
    ⟨by decide, by decide, by decide, by decide⟩
  unfold header
  simp only [isOneLine_append_iff, hname, hwords, isOneLine_toString, true_and]

theorem headerIsFirstLine_iff : error.HeaderIsFirstLine ↔ IsOneLine error.header := by
  constructor
  · rintro ⟨lines, hlines⟩
    unfold IsOneLine
    generalize error.message.toList = cs at hlines
    generalize error.header.toList = text at hlines ⊢
    cases hlines with
    | cons htext => exact htext
  · intro hheader
    generalize hexcerpt : (error.position.excerpt error.source.body).toList = excerpt
    have hmessage :
        error.message.toList = error.header.toList ++ ['\n'] ++ (['\n'] ++ excerpt) := by
      rw [error.message_eq, String.toList_append, String.toList_append, hexcerpt]
      simp
    have hfeed : ∀ rest, IsLineEnd ['\n'] rest :=
      fun rest => .single (by simp [EndsLine]) (by simp)
    obtain ⟨lines, hlines, -⟩ := exists_hasLines excerpt
    refine ⟨lines, ?_⟩
    rw [hmessage]
    exact .cons hheader (hfeed _) (hlines.cons_end (hfeed _))

end SyntaxError

namespace Source

variable {source : Source}

/-- A description is one line exactly if it does not quote a string with a line end in it. -/
theorem isOneLine_description_iff (hfits : source.byteCount < UInt32.size) {grammar : Grammar}
    {options : ParseOptions} {error : SyntaxError}
    (herror : source.parseNode grammar options = .error error) :
    IsOneLine error.description ↔ ¬ error.QuotesLineEnd := by
  have hproper : ∀ {token}, .ok token ∈ source.tokens → token.lexeme.IsProper :=
    fun htoken => (tokens_isStream hfits).isProper_of_mem htoken
  obtain ⟨rfl, hfault⟩ := blames_of_parseNode hfits herror
  constructor
  · rintro hline ⟨token, htoken, -, hblames, hkind, htext⟩
    exact htext ((hblames.isOneLine_description_iff (hproper htoken)).1 hline hkind)
  · intro hquotes
    rcases hfault with hread | ⟨token, htoken, hposition, hblames⟩
    · cases tellsOffsets_of_mem_tokens hfits hread with
      | fault _ hbroken => exact hbroken.isOneLine_description
    · refine (hblames.isOneLine_description_iff (hproper htoken)).2 fun hkind => ?_
      by_contra htext
      exact hquotes ⟨token, htoken, hposition, hblames, hkind, htext⟩

/-- A summary is one line, and the header of a message is its first line, exactly if no string
with a line end in it is quoted. -/
theorem parseNode_oneLine (hfits : source.byteCount < UInt32.size) (hname : IsOneLine source.name)
    {grammar : Grammar} {options : ParseOptions} {error : SyntaxError}
    (herror : source.parseNode grammar options = .error error) :
    (IsOneLine error.summary ↔ ¬ error.QuotesLineEnd) ∧
      (error.HeaderIsFirstLine ↔ ¬ error.QuotesLineEnd) := by
  obtain ⟨hsource, -⟩ := blames_of_parseNode hfits herror
  rw [← hsource] at hname
  rw [← isOneLine_description_iff hfits herror, SyntaxError.headerIsFirstLine_iff]
  exact ⟨SyntaxError.isOneLine_summary_iff hname, SyntaxError.isOneLine_header_iff hname⟩

/-- A string with a tab in it is quoted in one line. -/
theorem parseNode_oneLine_tab :
    let source : Source := ⟨"\"\\t\"", "GraphQL"⟩
    let error : SyntaxError := ⟨source, ⟨0, .unexpected ⟨.string, some "\t"⟩⟩⟩
    source.byteCount < UInt32.size ∧ IsOneLine source.name ∧
      source.parseNode .executable {} = .error error ∧
        IsOneLine error.summary ∧ error.HeaderIsFirstLine := by
  intro source error
  have hfits : source.byteCount < UInt32.size := by decide
  have hname : IsOneLine source.name := by decide
  have herror : source.parseNode .executable {} = .error error := by decide +kernel
  have hquotes : ¬ error.QuotesLineEnd := by
    rintro ⟨token, -, -, hblames, -, htext⟩
    generalize token.lexeme = found at hblames htext
    cases hblames
    exact htext (by decide)
  obtain ⟨hsummary, hheader⟩ := parseNode_oneLine hfits hname herror
  exact ⟨hfits, hname, herror, hsummary.2 hquotes, hheader.2 hquotes⟩

/-- A string with a line feed in it is quoted in two lines, though it is written in one. -/
theorem not_parseNode_oneLine :
    ¬ ∀ (source : Source) (grammar : Grammar) (options : ParseOptions) (error : SyntaxError),
      source.byteCount < UInt32.size → IsOneLine source.name →
        source.parseNode grammar options = .error error →
          IsOneLine error.summary ∧ error.HeaderIsFirstLine := by
  intro h
  have herror : (Source.mk "\"\\n\"" "GraphQL").parseNode .executable {} =
      .error ⟨⟨"\"\\n\"", "GraphQL"⟩, ⟨0, .unexpected ⟨.string, some "\n"⟩⟩⟩ := by
    decide +kernel
  obtain ⟨hsummary, -⟩ := h _ .executable {} _ (by decide) (by decide) herror
  rw [SyntaxError.isOneLine_summary_iff (by decide)] at hsummary
  exact absurd hsummary (by decide)

end Source

end GraphQLSyntax
