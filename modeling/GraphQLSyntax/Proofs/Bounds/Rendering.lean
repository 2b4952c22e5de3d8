import GraphQLSyntax.Proofs.Bounds.Tokens
import GraphQLSyntax.SyntaxError

/-!
# Rendering byte by byte

The position of a fault and the message that shows its lines, written out in the steps that are
taken over the encoded body.  Line terminators are looked for one at a time, and only as far as
the next one is needed.

The steps come to the position and the message that are computed from all line terminators and
from all lines.  So whatever offset is read from, no access is out of bounds, neither in reading
nor in rendering.
-/

namespace GraphQLSyntax

variable {σ : Type}

/-- The line before a line, if it is not the first. -/
def rowAbove (lines : List (List Char)) (width line : Nat) : Option String :=
  if 2 ≤ line then do
    let text := lines[← minus line 2]?.getD []
    return Position.numberedLine width (← minus line 1) text
  else some ""

/-- The line behind a line, if it is not the last. -/
def rowBelow (lines : List (List Char)) (width line : Nat) : Option String :=
  if line < lines.length then lines[line]?.map (Position.numberedLine width (line + 1))
  else some ""

namespace ByteReader

section Rendering

variable (reader : ByteReader)

/-! ## Line terminators -/

/-- Looks for a line terminator from an offset on: its offset and its length. -/
def terminatorStep (offset : Nat) : Option (Nat ⊕ Option (Nat × Nat)) :=
  if offset < reader.bytes.length then do
    match reader.search 0x0A 0x0D 0xE2 (← bytesFrom reader.bytes offset) with
    | none => some (.inr none)
    | some n =>
      let found := offset + n
      let b ← byteAt reader.bytes found
      if b = 0x0D ∧ reader.bytes[found + 1]? = some 0x0A then some (.inr (some (found, 2)))
      else if b = 0x0A ∨ b = 0x0D then some (.inr (some (found, 1)))
      else if beginsWithSeparator (← bytesFrom reader.bytes found) then
        some (.inr (some (found, 3)))
      else some (.inl (found + 1))
  else some (.inr none)

/-- The first line terminator from an offset on, if there is one. -/
def nextTerminator (offset : Nat) : Option (Option (Nat × Nat)) :=
  loop reader.terminatorStep reader.limit offset

/-- Visits the next line terminator, unless there is none. -/
def visitStep (visit : σ → Nat × Nat → Option (σ ⊕ σ)) (state : Nat × σ) :
    Option ((Nat × σ) ⊕ σ) := do
  match ← reader.nextTerminator state.1 with
  | none => some (.inr state.2)
  | some t => return (← visit state.2 t).map (t.1 + t.2, ·) id

/-- Visits the line terminators in turn, until a visit ends it. -/
def visitTerminators (visit : σ → Nat × Nat → Option (σ ⊕ σ)) (s : σ) : Option σ :=
  loop (reader.visitStep visit) reader.limit (0, s)

/-! ## Positions and messages -/

/-- Counts a line, and remembers where the next one starts, if the line ends before the offset. -/
def countLine (offset : Nat) (s t : Nat × Nat) : Option ((Nat × Nat) ⊕ (Nat × Nat)) :=
  some (if offset ≤ t.1 then .inr s else .inl (s.1 + 1, t.1 + t.2))

def position (offset : Nat) : Option Position := do
  let offset := min offset reader.bytes.length
  let (line, lineStart) ← reader.visitTerminators (countLine offset) (1, 0)
  let onLine ← bytesBetween reader.bytes (min lineStart offset) offset
  return ⟨line, onLine.countP (fun b => !isContinuation b) + 1⟩

/-- Cuts out a line, and remembers where the next one starts. -/
def cutLine (s : List (List Char) × Nat) (t : Nat × Nat) :
    Option ((List (List Char) × Nat) ⊕ (List (List Char) × Nat)) := do
  let text ← textBetween reader.chars s.2 t.1
  return .inl (s.1 ++ [text], t.1 + t.2)

def lines : Option (List (List Char)) := do
  let (texts, lineStart) ← reader.visitTerminators reader.cutLine ([], 0)
  let text ← textFrom reader.chars lineStart
  return texts ++ [text]

/-- The lines around a position, each with its number, and a caret below the column. -/
def excerpt (position : Position) : Option String := do
  let lines ← reader.lines
  let line := position.line
  let width := (toString (line + 1)).length
  let before ← rowAbove lines width line
  let shown := Position.numberedLine width line (lines[← minus line 1]?.getD [])
  let caret := "".pushn ' ' (2 + width + (position.column - 1)) ++ "^\n"
  return before ++ shown ++ caret ++ (← rowBelow lines width line)

/-- The message that reports a fault of a source with a name. -/
def message (name : String) (fault : Fault) : Option String := do
  let position ← reader.position fault.position.toNat
  return "Syntax Error " ++ name ++ " (" ++ toString position.line ++ ":" ++
    toString position.column ++ ") " ++ fault.cause.description ++ "\n\n" ++
    (← reader.excerpt position)

end Rendering

variable {reader : ByteReader} {offset limit : Nat}

/-! ## Line terminators in turn -/

/-- Where the search stops, a step tells the line terminator from other characters. -/
theorem terminatorStep_of_found {n : Nat} {b : UInt8} {bs : List UInt8}
    (h : reader.FoundAt offset n b bs) :
    reader.terminatorStep offset =
      some (if terminatorLength (b :: bs) = 0 then .inl (offset + n + 1)
        else .inr (some (offset + n, terminatorLength (b :: bs)))) := by
  obtain ⟨hat, hfrom, hless, hnext⟩ := bytesFrom_of_drop_eq h.drop_eq
  have hnext : reader.bytes[offset + n + 1]? = bs.head? := by rw [← hnext, List.head?_drop]
  have hstart : bytesFrom reader.bytes offset = some (reader.bytes.drop offset) :=
    if_pos (by omega)
  rw [terminatorStep, if_pos (by omega), hstart]
  simp only [Option.bind_eq_bind, Option.bind_some, h.search_eq, hat, hfrom, hnext]
  obtain (rfl | rfl) | rfl := h.begins
  · rfl
  · rw [terminatorLength_cons, if_pos rfl]
    by_cases hpair : bs.head? = some 0x0A
    · rw [if_pos ⟨rfl, hpair⟩, if_pos hpair]
      rfl
    · rw [if_neg fun hp => hpair hp.2, if_neg hpair]
      rfl
  · rw [terminatorLength_separator]
    cases beginsWithSeparator (0xE2 :: bs) <;> rfl

theorem terminatorStep_ends (hsearch : reader.search.FindsFirst)
    (h : offset ≤ reader.bytes.length) (hlimit : reader.bytes.length < offset + limit) :
    Ends reader.terminatorStep limit offset
      (lineTerminators offset (reader.bytes.drop offset)).head? := by
  refine search_ends hsearch id (fun offset h hnone => ?_) terminatorStep_of_found h hlimit
  have hstart : bytesFrom reader.bytes offset = some (reader.bytes.drop offset) := if_pos h
  rw [terminatorStep, hstart]
  split
  case isTrue => simp [hnone]
  case isFalse => rfl

theorem nextTerminator_eq (hsearch : reader.search.FindsFirst) (h : offset ≤ reader.bytes.length) :
    reader.nextTerminator offset =
      some (lineTerminators offset (reader.bytes.drop offset)).head? :=
  (terminatorStep_ends hsearch h (Nat.lt_of_lt_of_le (Nat.lt_succ_self _)
    (Nat.le_add_left _ _))).loop_eq (Nat.le_refl _)

theorem terminatorLength_le (bytes : List UInt8) : terminatorLength bytes ≤ bytes.length := by
  unfold terminatorLength
  split
  case h_4 => split <;> simp
  all_goals simp

/-- The first line terminator is inside the bytes, and the others are found behind it. -/
theorem lineTerminators_eq_cons {bytes : List UInt8} {t : Nat × Nat} {ts : List (Nat × Nat)}
    (h : lineTerminators offset bytes = t :: ts) :
    ∃ n, t.1 = offset + n ∧ 0 < t.2 ∧ n + t.2 ≤ bytes.length ∧
      ts = lineTerminators (t.1 + t.2) (bytes.drop (n + t.2)) := by
  induction bytes generalizing offset with
  | nil =>
    rw [lineTerminators] at h
    cases h
  | cons b bs ih =>
    by_cases hzero : terminatorLength (b :: bs) = 0
    · rw [lineTerminators_of_eq_zero _ hzero] at h
      obtain ⟨n, hstart, hpos, hle, htail⟩ := ih h
      refine ⟨n + 1, by omega, hpos, ?_, ?_⟩
      · rw [List.length_cons]
        omega
      · rw [htail, Nat.add_right_comm, List.drop_succ_cons]
    · have hpos := Nat.pos_of_ne_zero hzero
      rw [lineTerminators_of_pos _ hpos] at h
      obtain ⟨rfl, rfl⟩ := List.cons.inj h
      exact ⟨0, rfl, hpos, by simpa using terminatorLength_le (b :: bs), by rw [Nat.zero_add]⟩

/-- Visits the line terminators of a list in turn. -/
def visitAll (visit : σ → Nat × Nat → Option (σ ⊕ σ)) : List (Nat × Nat) → σ → Option σ
  | [], s => some s
  | t :: ts, s =>
    match visit s t with
    | none => none
    | some (.inl s') => visitAll visit ts s'
    | some (.inr s') => some s'

/-- The visits are those of all line terminators that there are. -/
theorem visitTerminators_eq (hsearch : reader.search.FindsFirst)
    (visit : σ → Nat × Nat → Option (σ ⊕ σ)) (s : σ) :
    reader.visitTerminators visit s = visitAll visit (lineTerminators 0 reader.bytes) s := by
  suffices ∀ limit offset s, offset ≤ reader.bytes.length → reader.bytes.length < offset + limit →
      loop (reader.visitStep visit) limit (offset, s) =
        visitAll visit (lineTerminators offset (reader.bytes.drop offset)) s from
    this reader.limit 0 s (Nat.zero_le _) (by rw [limit]; omega)
  intro limit
  induction limit with
  | zero => intros; omega
  | succ limit ih =>
    intro offset s h hlimit
    rw [loop, visitStep, nextTerminator_eq hsearch h]
    cases hts : lineTerminators offset (reader.bytes.drop offset) with
    | nil => rfl
    | cons t ts =>
      obtain ⟨n, hstart, hpos, hle, rfl⟩ := lineTerminators_eq_cons hts
      rw [List.length_drop] at hle
      rw [List.drop_drop, ← Nat.add_assoc, ← hstart]
      simp only [List.head?_cons, Option.bind_eq_bind, Option.bind_some, visitAll]
      cases visit s t with
      | none => rfl
      | some result =>
        cases result with
        | inl s' => exact ih _ s' (by omega) (by omega)
        | inr s' => rfl

/-! ## Positions -/

theorem visitAll_countLine (ts : List (Nat × Nat)) (line lineStart : Nat) :
    visitAll (countLine offset) ts (line, lineStart) =
      some (line + (ts.takeWhile fun t => t.1 < offset).length,
        ((ts.takeWhile fun t => t.1 < offset).getLast?.map fun t => t.1 + t.2).getD lineStart) := by
  induction ts generalizing line lineStart with
  | nil => rfl
  | cons t ts ih =>
    rw [visitAll, countLine]
    by_cases hless : t.1 < offset
    · rw [if_neg (Nat.not_le_of_lt hless), List.takeWhile_cons_of_pos (by simpa using hless),
        List.length_cons, List.getLast?_cons]
      refine (ih _ _).trans ?_
      rw [Nat.add_assoc, Nat.add_comm 1]
      cases (ts.takeWhile fun t => t.1 < offset).getLast? <;> rfl
    · rw [if_pos (Nat.le_of_not_lt hless), List.takeWhile_cons_of_neg (by simpa using hless)]
      rfl

/-- The window of a column is empty if the line starts behind the offset. -/
theorem bytesBetween_min {bytes : List UInt8} {start stop : Nat} (h : stop ≤ bytes.length) :
    bytesBetween bytes (min start stop) stop = some ((bytes.take stop).drop start) := by
  rw [bytesBetween, if_pos ⟨Nat.min_le_right _ _, h⟩]
  obtain hle | hle := Nat.le_total start stop
  · rw [Nat.min_eq_left hle]
  · have hlength := List.length_take_le stop bytes
    rw [Nat.min_eq_right hle, List.drop_eq_nil_of_le hlength,
      List.drop_eq_nil_of_le (Nat.le_trans hlength hle)]

theorem position_eq (hsearch : reader.search.FindsFirst) (offset : Nat) :
    reader.position offset = some (Position.ofOffset reader.body offset) := by
  have hbytes : encode reader.body = reader.bytes := rfl
  rw [position, Position.ofOffset]
  simp only [visitTerminators_eq hsearch, visitAll_countLine, Option.bind_eq_bind,
    Option.bind_some, bytesBetween_min (Nat.min_le_right _ _), hbytes, Nat.add_comm 1]
  rfl

/-! ## Lines -/

theorem visitAll_cutLine {cs : List Char} {ls : List Line} (h : HasLines cs ls)
    (hrest : RestAt reader.chars offset cs) (done : List (List Char)) :
    (do
      let (texts, lineStart) ←
        visitAll reader.cutLine (lineTerminators offset (encodeChars cs)) (done, offset)
      let text ← textFrom reader.chars lineStart
      return texts ++ [text]) = some (done ++ ls.map Line.text) := by
  induction h generalizing offset done with
  | @last text htext =>
    have hnone := lineTerminators_of_not_endsLine offset htext []
    rw [List.append_nil, lineTerminators] at hnone
    rw [hnone]
    simp [visitAll, hrest.textFrom_eq]
  | @cons text ending rest ls htext hending _ ih =>
    rw [List.append_assoc] at hrest ⊢
    rw [encodeChars_append, lineTerminators_of_not_endsLine offset htext,
      hending.lineTerminators_eq, visitAll, cutLine, hrest.textBetween_eq]
    have hnext := ih hrest.append.append (done ++ [text])
    rw [List.append_assoc] at hnext
    exact hnext

theorem lines_eq (hsearch : reader.search.FindsFirst) :
    reader.lines = some (splitLines reader.body.toList) := by
  obtain ⟨ls, h, hcut⟩ := exists_hasLines reader.chars
  rw [lines, visitTerminators_eq hsearch, visitAll_cutLine h (.start _), hcut]
  rfl

/-! ## Excerpts and messages -/

theorem rowAbove_eq (lines : List (List Char)) (width line : Nat) :
    rowAbove lines width line =
      some (if 2 ≤ line then Position.numberedLine width (line - 1) (lines[line - 2]?.getD [])
        else "") := by
  by_cases h : 2 ≤ line
  · rw [rowAbove, if_pos h, if_pos h, minus_eq h, minus_eq (Nat.le_of_succ_le h)]
    rfl
  · rw [rowAbove, if_neg h, if_neg h]

theorem rowBelow_eq (lines : List (List Char)) (width line : Nat) :
    rowBelow lines width line =
      some (match lines[line]? with
        | some text => Position.numberedLine width (line + 1) text
        | none => "") := by
  obtain h | h := Nat.lt_or_ge line lines.length
  · rw [rowBelow, if_pos h, List.getElem?_eq_getElem h]
    rfl
  · rw [rowBelow, if_neg (Nat.not_lt_of_le h), List.getElem?_eq_none h]

theorem excerpt_eq (hsearch : reader.search.FindsFirst) {position : Position}
    (h : 1 ≤ position.line) : reader.excerpt position = some (position.excerpt reader.body) := by
  rw [excerpt, lines_eq hsearch]
  simp only [Option.bind_eq_bind, Option.bind_some, rowAbove_eq, rowBelow_eq, minus_eq h]
  rfl

theorem position_fault_eq (hsearch : reader.search.FindsFirst) (error : SyntaxError)
    (hbody : reader.body = error.source.body) :
    reader.position error.fault.position.toNat = some error.position := by
  rw [position_eq hsearch, hbody]
  rfl

/-- The message of an error is rendered from the body that the error is about. -/
theorem message_eq (hsearch : reader.search.FindsFirst) (error : SyntaxError)
    (hbody : reader.body = error.source.body) :
    reader.message error.source.name error.fault = some error.message := by
  have hexcerpt : reader.excerpt error.position =
      some (error.position.excerpt error.source.body) := by
    rw [excerpt_eq hsearch (Nat.le_add_left 1 _), hbody]
  rw [message, position_fault_eq hsearch error hbody]
  simp only [Option.bind_eq_bind, Option.bind_some, hexcerpt]
  rfl

end ByteReader

/-! ## Reading and rendering -/

/-- The search that looks at one byte after the other. -/
def ByteSearch.inTurn : ByteSearch :=
  fun x y z bytes => bytes.findIdx? fun b => b == x || b == y || b == z

theorem ByteSearch.findsFirst_inTurn : inTurn.FindsFirst :=
  fun _ _ _ _ => rfl

theorem IsBoundary.le {cs : List Char} {offset : Nat} (h : IsBoundary cs offset) :
    offset ≤ byteLength cs := by
  obtain ⟨rest, before, rfl, rfl⟩ := h
  rw [byteLength_append]
  exact Nat.le_add_right _ _

namespace Source

variable {source : Source}

/-- A token that is scanned stands between characters. -/
theorem isBoundary_of_scanAt {offset : Nat} {scanned : Scanned}
    (h : source.scanAt offset = .ok scanned) (hkind : scanned.lexeme.kind ≠ .eof) :
    IsBoundary source.chars scanned.start ∧ IsBoundary source.chars scanned.stop := by
  rw [scanAt] at h
  by_cases hend : source.byteCount ≤ offset
  · rw [if_pos hend] at h
    obtain rfl := Except.ok.inj h
    exact absurd rfl hkind
  rw [if_neg hend] at h
  obtain ⟨c, rest, hrest⟩ | ⟨hdrop, -⟩ :=
    exists_restAt_or source.chars (Nat.lt_of_not_le (source.byteCount_eq ▸ hend))
  · rw [hrest.dropBytes?_eq] at h
    obtain ⟨gap, text, hcs, -, -, hstart, hstop⟩ := divides_of_scan h hkind
    rw [hcs] at hrest
    rw [hstart, hstop]
    refine ⟨⟨text ++ scanned.rest, ?_⟩, scanned.rest, hrest.append⟩
    rw [List.append_assoc] at hrest
    exact hrest.append
  · rw [hdrop] at h
    cases h

/-- From every offset, the steps of reading have an answer, so that no access is out of bounds.
It is the token or the fault that is read.  The steps of rendering have an answer for every fault
as well, and a token other than the end stands between characters. -/
theorem readToken_inBounds {search : ByteSearch} (hsearch : search.FindsFirst)
    (hfits : source.byteCount < UInt32.size) (offset : UInt32) :
    ((ByteReader.mk search source.body).read offset.toNat).run =
        some (source.readToken offset) ∧
      (∀ fault, (ByteReader.mk search source.body).position fault.position.toNat =
          some (SyntaxError.mk source fault).position ∧
        (ByteReader.mk search source.body).message source.name fault =
          some (SyntaxError.mk source fault).message) ∧
      ∀ token, source.readToken offset = .ok token → token.kind ≠ .eof →
        IsBoundary source.chars token.start.toNat ∧ IsBoundary source.chars token.stop.toNat := by
  refine ⟨?_, fun fault => ⟨?_, ?_⟩, fun token htoken hkind => ?_⟩
  · rw [ByteReader.read_eq source hsearch, readToken]
    cases source.scanAt offset.toNat <;> rfl
  · exact ByteReader.position_fault_eq hsearch ⟨source, fault⟩ rfl
  · exact ByteReader.message_eq hsearch ⟨source, fault⟩ rfl
  · rw [readToken] at htoken
    cases hscan : source.scanAt offset.toNat with
    | error =>
      rw [hscan] at htoken
      cases htoken
    | ok scanned =>
      rw [hscan] at htoken
      obtain rfl := Except.ok.inj htoken
      obtain ⟨hstart, hstop⟩ := isBoundary_of_scanAt hscan hkind
      have hcount := source.byteCount_eq
      have hstart' : scanned.token.start.toNat = scanned.start :=
        UInt32.toNat_ofNat_of_lt' (Nat.lt_of_le_of_lt hstart.le (hcount ▸ hfits))
      have hstop' : scanned.token.stop.toNat = scanned.stop :=
        UInt32.toNat_ofNat_of_lt' (Nat.lt_of_le_of_lt hstop.le (hcount ▸ hfits))
      rw [hstart', hstop']
      exact ⟨hstart, hstop⟩

/-- Reading inside a character, and behind it. -/
theorem readToken_inBounds_insideCharacter :
    let source : Source := ⟨"é x", "GraphQL"⟩
    let reader : ByteReader := ⟨ByteSearch.inTurn, source.body⟩
    let fault : Fault := ⟨1, .unexpectedCharacter '\uFFFD'⟩
    source.byteCount < UInt32.size ∧ (reader.read 1).run = some (.error fault) ∧
      reader.message source.name fault = some (SyntaxError.mk source fault).message ∧
      (reader.read 2).run = some (.ok ⟨⟨.name, some "x"⟩, 3, 4⟩) ∧
      IsBoundary source.chars 3 ∧ IsBoundary source.chars 4 := by
  intro source reader fault
  have hfits : source.byteCount < UInt32.size := by decide
  have hfault : source.readToken 1 = .error fault := by decide +kernel
  have htoken : source.readToken 2 = .ok ⟨⟨.name, some "x"⟩, 3, 4⟩ := by decide +kernel
  obtain ⟨hinside, hrender, -⟩ := readToken_inBounds ByteSearch.findsFirst_inTurn hfits 1
  obtain ⟨hbehind, -, hboundary⟩ := readToken_inBounds ByteSearch.findsFirst_inTurn hfits 2
  exact ⟨hfits, hfault ▸ hinside, (hrender fault).2, htoken ▸ hbehind,
    hboundary _ htoken (by decide)⟩

end Source

end GraphQLSyntax
