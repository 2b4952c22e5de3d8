import GraphQLSyntax.Proofs.Lexical.Offsets
import GraphQLSyntax.Proofs.Parsing.Earliest
import GraphQLSyntax.Proofs.Source.Excerpt
import GraphQLSyntax.Proofs.Source.Position

/-!
# Diagnostics

A source that cannot be parsed is refused with a fault at one of its tokens, at its end, or
where a token breaks off.  All of these are places between characters, and none is inside a
line end.  So the line and the column that are told are where the fault is, and the caret of
the message is below it.
-/

namespace GraphQLSyntax

/-! ## Where faults are -/

/-- A fault of a run is the one that reading comes to, or it blames one of the tokens. -/
theorem Parser.blames_of_run_eq_error {β γ : Type} {p : Nat → Parser β} {erase : β → γ}
    {L : Language γ}
    (hrec : ∀ n, Recognizes n anything (p n) erase L (·.kind = .eof)) {source : Source}
    {options : ParseOptions} {readings : List Reading} (hs : IsStream readings) {fault : Fault}
    (hrun : run p source options readings = .error fault) :
    .error fault ∈ readings ∨ ∃ token, .ok token ∈ readings ∧ fault.position = token.start ∧
      Blames fault.cause token.lexeme := by
  obtain ⟨ts, last, rfl, -, -⟩ := hs.exists_eq
  obtain ⟨k, hk, hrej⟩ | ⟨token, rfl, hrej⟩ | ⟨rfl, -⟩ := run_eq_error hrec hs hrun
  · exact .inr ⟨ts[k], by simp, hrej.position_eq, hrej.blames⟩
  · exact .inr ⟨token, by simp, hrej.position_eq, hrej.blames⟩
  · exact .inl (by simp)

namespace Source

variable {source : Source} {grammar : Grammar}

/-- A fault that a source is refused for is the one that reading comes to, or it blames one of
the tokens. -/
theorem blames_of_parseNode (hfits : source.byteCount < UInt32.size) {options : ParseOptions}
    {error : SyntaxError} (herror : source.parseNode grammar options = .error error) :
    error.source = source ∧ (.error error.fault ∈ source.tokens ∨
      ∃ token, .ok token ∈ source.tokens ∧ error.fault.position = token.start ∧
        Parser.Blames error.fault.cause token.lexeme) := by
  have hs : IsStream source.tokens := tokens_isStream hfits
  obtain ⟨fault, hrun, rfl⟩ := exists_fault_of_parseNode herror
  refine ⟨rfl, ?_⟩
  cases grammar with
  | executable =>
    exact Parser.blames_of_run_eq_error (fun _ => Parser.recognizes_document) hs
      (eq_error_of_map hrun)
  | schema =>
    exact Parser.blames_of_run_eq_error (fun _ => Parser.recognizes_schemaDocument) hs
      (eq_error_of_map hrun)

/-- A source that cannot be parsed is refused at a place of it. -/
theorem exists_isPlace_of_parseNode (hfits : source.byteCount < UInt32.size)
    {options : ParseOptions} {error : SyntaxError}
    (herror : source.parseNode grammar options = .error error) :
    error.source = source ∧
      ∃ before after, source.IsPlace error.fault.position before after := by
  obtain ⟨hsource, hread | ⟨token, htoken, hposition, -⟩⟩ := blames_of_parseNode hfits herror
  · exact ⟨hsource, (tellsOffsets_of_mem_tokens hfits hread).exists_isPlace⟩
  · rw [hposition]
    exact ⟨hsource, (tellsOffsets_of_mem_tokens hfits htoken).exists_isPlace⟩

end Source

/-! ## What is told of them -/

/-- The byte offset where the line with the number starts. -/
def lineStart (lines : List Line) (n : Nat) : Nat :=
  byteLength ((lines.take (n - 1)).flatMap Line.chars)

namespace SyntaxError

/-- What a message says before its excerpt. -/
def header (error : SyntaxError) : String :=
  "Syntax Error " ++ error.source.name ++ " (" ++ toString error.position.line ++ ":" ++
    toString error.position.column ++ ") " ++ error.description

theorem message_eq (error : SyntaxError) :
    error.message = error.header ++ "\n\n" ++ error.position.excerpt error.source.body := by
  unfold message header
  exact rfl

/-- A diagnostic points at the place between two texts, in the line that is `left` before the
place and `right` behind it, of the lines of the source. -/
structure PointsAt (error : SyntaxError) (before after : List Char) (lines : List Line)
    (left right : List Char) (excerpt : Excerpt) : Prop where
  isPlace : error.source.IsPlace error.fault.position before after
  position_le : error.fault.position.toNat ≤ error.source.byteCount
  hasLines : HasLines error.source.chars lines
  splitLines_eq : splitLines error.source.chars = lines.map Line.text
  line_pos : 1 ≤ error.position.line
  line_le : error.position.line ≤ (splitLines error.source.chars).length
  text_eq : (splitLines error.source.chars)[error.position.line - 1]? = some (left ++ right)
  column_eq : error.position.column = left.length + 1
  position_eq : error.fault.position.toNat =
    lineStart lines error.position.line + byteLength left
  after_eq : ∃ rest, after = right ++ rest ∧ ∀ c, rest.head? = some c → EndsLine c
  message_eq : error.message.toList = error.header.toList ++ ['\n', '\n'] ++ excerpt.chars
  isAround : excerpt.IsAround (splitLines error.source.chars) error.position.line right

end SyntaxError

/-- Diagnostics point at the character that is wrong. -/
theorem Source.parseNode_pointsAt {source : Source} (hfits : source.byteCount < UInt32.size)
    {grammar : Grammar} {options : ParseOptions} {error : SyntaxError}
    (herror : source.parseNode grammar options = .error error) :
    error.source = source ∧ ∃ before after lines left right excerpt,
      error.PointsAt before after lines left right excerpt := by
  obtain ⟨rfl, before, after, hplace⟩ := exists_isPlace_of_parseNode hfits herror
  refine ⟨rfl, ?_⟩
  obtain ⟨lines, hlines, hsplit⟩ := exists_hasLines error.source.chars
  have hlines' : HasLines (before ++ after) lines := hplace.chars_eq ▸ hlines
  obtain ⟨earlier, line, left, right, hin⟩ := hlines'.exists_inLine hplace.not_inside
  have hposition : error.position = ⟨earlier.length + 1, left.length + 1⟩ := by
    rw [SyntaxError.position, hplace.position_eq]
    exact hin.ofOffset_eq hplace.chars_eq hlines
  obtain ⟨later, rfl⟩ := hin.lines_eq
  have htext : (splitLines error.source.chars)[earlier.length]? = some (left ++ right) := by
    rw [hsplit, List.map_append, List.getElem?_append_right (by simp), ← hin.text_eq]
    simp
  obtain ⟨hlength, -⟩ := List.getElem?_eq_some_iff.1 htext
  obtain ⟨excerpt, hexcerpt, haround⟩ :=
    Position.exists_excerpt (Nat.le_add_left 1 earlier.length) htext rfl
  refine ⟨before, after, earlier ++ line :: later, left, right, excerpt, ?_⟩
  exact
    { isPlace := hplace
      position_le := by
        rw [hplace.position_eq, error.source.byteCount_eq, hplace.chars_eq, byteLength_append]
        exact Nat.le_add_right _ _
      hasLines := hlines
      splitLines_eq := hsplit
      line_pos := by
        rw [hposition]
        exact Nat.le_add_left 1 _
      line_le := by
        rw [hposition]
        exact hlength
      text_eq := by
        rw [hposition]
        exact htext
      column_eq := by rw [hposition]
      position_eq := by
        rw [hposition, hplace.position_eq, hin.byteLength_before, lineStart, Nat.add_sub_cancel,
          List.take_left]
      after_eq := hin.after_eq
      message_eq := by
        rw [error.message_eq, String.toList_append, String.toList_append, ← hexcerpt, hposition]
        rfl
      isAround := by
        rw [hposition]
        exact haround }

/-- A string that is not ended before a carriage return and a line feed, with a character of
two bytes in it. -/
theorem Source.parseNode_pointsAt_unterminated :
    let source : Source := ⟨"\x7b\n  a(x: \"é)\r\n\x7d", "GraphQL"⟩
    let error : SyntaxError := ⟨source, ⟨13, .unterminatedString⟩⟩
    source.byteCount < UInt32.size ∧ source.parseNode .executable {} = .error error ∧
      error.position = ⟨2, 11⟩ ∧
      error.position.excerpt source.body =
        "1: \x7b\n2:   a(x: \"é)\n             ^\n3: \x7d\n" ∧
      ∃ before after lines left right excerpt,
        error.PointsAt before after lines left right excerpt := by
  intro source error
  have hfits : source.byteCount < UInt32.size := by decide
  have herror : source.parseNode .executable {} = .error error := by decide +kernel
  have hposition : error.position = ⟨2, 11⟩ := by decide +kernel
  refine ⟨hfits, herror, hposition, ?_, (parseNode_pointsAt hfits herror).2⟩
  rw [hposition]
  decide +kernel

end GraphQLSyntax
