import Mathlib.Data.List.Basic
import GraphQLSyntax.Proofs.Lexical.Faults
import GraphQLSyntax.Proofs.Lexical.Overlong
import GraphQLSyntax.Proofs.Lexical.Tiling

/-!
# Offsets that are told

Tokens and faults tell offsets of 32 bits.  As long as the length of a body fits into them,
these are the true ones, and reading comes to an end.  Nothing keeps a body from being longer,
and then neither needs to be so.
-/

namespace GraphQLSyntax

/-- Where a reading is: where its token starts, or where its fault is. -/
def Reading.position : Reading → UInt32
  | .ok token => token.start
  | .error fault => fault.position

namespace Source

variable {source : Source}

/-- The offsets that a reading tells are true: the text of its token is between them, or a token
breaks off there. -/
inductive TellsOffsets (source : Source) : Reading → Prop
  | eof {token : Token} (hlexeme : token.lexeme = .bare .eof)
      (hstart : token.start.toNat = source.byteCount)
      (hstop : token.stop.toNat = source.byteCount) : TellsOffsets source (.ok token)
  | token {before text after : List Char} {token : Token}
      (hchars : source.chars = before ++ text ++ after) (htext : token.lexeme.HasText text after)
      (hstart : token.start.toNat = byteLength before)
      (hstop : token.stop.toNat = byteLength (before ++ text)) : TellsOffsets source (.ok token)
  | fault {front before after : List Char} {fault : Fault}
      (hchars : source.chars = front ++ before ++ after)
      (hbroken : BrokenToken before after fault.cause)
      (hposition : fault.position.toNat = byteLength (front ++ before)) :
      TellsOffsets source (.error fault)

/-- A fault that reading on comes to is where a token breaks off. -/
theorem exists_broken_of_readOn (hfits : source.byteCount < UInt32.size) {limit : Nat}
    {front cs : List Char} {fault : Fault} (hchars : source.chars = front ++ cs)
    (h : .error fault ∈ source.readOn limit (scan (byteLength front) cs)) :
    ∃ front before after cause, source.chars = front ++ before ++ after ∧
      BrokenToken before after cause ∧ fault = .atOffset (byteLength (front ++ before)) cause := by
  induction limit generalizing front cs with
  | zero => cases h
  | succ limit ih =>
    have hoffset : byteLength front + byteLength cs = source.byteCount := by
      rw [source.byteCount_eq, hchars, byteLength_append]
    cases hscan : scan (byteLength front) cs with
    | error fault' =>
      obtain ⟨gap, before, after, cause, rfl, -, hbroken, rfl⟩ := scan_eq_error hscan
      rw [hscan, readOn, List.mem_singleton] at h
      obtain rfl := Except.error.inj h
      refine ⟨front ++ gap, before, after, cause, by simp [hchars], hbroken, ?_⟩
      rw [List.append_assoc, byteLength_append front]
    | ok scanned =>
      obtain ⟨-, -, -, hread⟩ | ⟨hkind, -, -, -, hread⟩ := readOn_step hfits hoffset hscan
      · rw [hread] at h
        simp at h
      · obtain ⟨gap, text, rfl, -, -, -, hstop⟩ := divides_of_scan hscan hkind
        rw [hread, hstop, ← byteLength_append] at h
        refine ih ?_ ((List.mem_cons.1 h).resolve_left (by simp))
        rw [hchars, List.append_assoc front]

/-- What reading a source yields, as a whole, where its offsets are true. -/
theorem exists_readings (hfits : source.byteCount < UInt32.size) :
    ∃ readings : List Reading, readings.length ≤ source.byteCount + 1 ∧
      (∀ reading ∈ readings, source.TellsOffsets reading) ∧
      ∀ limit, source.readOn limit (scan 0 source.chars) = readings.take limit := by
  have hoffset : 0 + byteLength source.chars = source.byteCount := by
    rw [Nat.zero_add, source.byteCount_eq]
  obtain ⟨ts, last, htiles, hreads⟩ := exists_tilesText hfits hoffset
  have htiled := tiledBy_of_tilesText htiles
  refine ⟨ts.map .ok ++ [last], htiled.length_le, ?_, hreads⟩
  rw [List.forall_mem_append, List.forall_mem_map, List.forall_mem_singleton]
  refine ⟨fun token htoken => ?_, ?_⟩
  · obtain ⟨before, text, after, hchars, htext, hstart, hstop⟩ := htiled.exists_text token htoken
    exact .token hchars htext hstart hstop
  · obtain ⟨token, rfl, hlexeme, hstart, hstop⟩ | ⟨fault, rfl, -⟩ := htiled.last_eq
    · exact .eof hlexeme hstart hstop
    · have hmem : .error fault ∈
          source.readOn (source.byteCount + 1) (scan (byteLength []) source.chars) := by
        rw [byteLength_nil, hreads, List.take_of_length_le htiled.length_le]
        exact List.mem_append_right _ List.mem_cons_self
      obtain ⟨front, before, after, cause, hchars, hbroken, rfl⟩ :=
        exists_broken_of_readOn hfits (List.nil_append _).symm hmem
      refine .fault hchars hbroken (UInt32.toNat_ofNat_of_lt' (Nat.lt_of_le_of_lt ?_ hfits))
      rw [source.byteCount_eq, hchars, byteLength_append _ after]
      exact Nat.le_add_right _ _

theorem tellsOffsets_of_mem_tokens (hfits : source.byteCount < UInt32.size) {reading : Reading}
    (h : reading ∈ source.tokens) : source.TellsOffsets reading := by
  obtain ⟨readings, -, htells, hreads⟩ := exists_readings hfits
  rw [tokens, hreads] at h
  exact htells reading (List.mem_of_mem_take h)

/-! ## Places -/

/-- A position between characters of a source, and not inside a line end. -/
structure IsPlace (source : Source) (position : UInt32) (before after : List Char) : Prop where
  chars_eq : source.chars = before ++ after
  position_eq : position.toNat = byteLength before
  not_inside : ¬ InsideLineEnd before after

/-- A reading whose offsets are true is at a place. -/
theorem TellsOffsets.exists_isPlace {reading : Reading} (h : source.TellsOffsets reading) :
    ∃ before after, source.IsPlace reading.position before after := by
  cases h with
  | eof _ hstart =>
    refine ⟨source.chars, [], (List.append_nil _).symm, ?_, fun h => nomatch h.2⟩
    rw [← source.byteCount_eq]
    exact hstart
  | @token before text after _ hchars htext hstart =>
    refine ⟨before, text ++ after, by rw [hchars, List.append_assoc], hstart, ?_⟩
    obtain ⟨c, cs, rfl, hink, -⟩ := htext.exists_cons
    refine not_insideLineEnd_of_isInk fun d hd => ?_
    obtain rfl := Option.some.inj hd
    exact hink
  | fault hchars hbroken hposition => exact ⟨_, _, hchars, hposition, hbroken.not_insideLineEnd _⟩

end Source

/-! ## Iterating a cursor -/

theorem Source.scanAt_zero (source : Source) : source.scanAt 0 = scan 0 source.chars :=
  scanAt_byteLength (List.nil_append source.chars).symm

namespace TokenCursor

/-- In a body whose length fits into 32 bits, the offsets that iterating a cursor tells are
true, and iteration comes to an end. -/
theorem take_tellsOffsets {source : Source} (hfits : source.byteCount < UInt32.size) :
    ∃ readings : List Reading, (∀ reading ∈ readings, source.TellsOffsets reading) ∧
      ∀ limit, (take { source } limit).1 = readings.take limit := by
  obtain ⟨readings, -, htells, hreads⟩ := Source.exists_readings hfits
  refine ⟨readings, htells, fun limit => ?_⟩
  rw [take_eq_readOn rfl, ← hreads, ← source.scanAt_zero]
  rfl

/-- A name, and a number that breaks off at the end. -/
theorem take_tellsOffsets_brokenNumber :
    (Source.mk "a 1." "").byteCount < UInt32.size ∧
      (take { source := ⟨"a 1.", ""⟩ } 5).1 =
        [.ok ⟨.ofName "a", 0, 1⟩, .error ⟨4, .invalidNumber⟩] ∧
      (Source.mk "a 1." "").TellsOffsets (.error ⟨4, .invalidNumber⟩) := by
  have hfits : (Source.mk "a 1." "").byteCount < UInt32.size := by decide
  have hall : (take { source := ⟨"a 1.", ""⟩ } 5).1 =
      [.ok ⟨.ofName "a", 0, 1⟩, .error ⟨4, .invalidNumber⟩] := by decide +kernel
  obtain ⟨readings, htells, htake⟩ := take_tellsOffsets hfits
  have hmem : .error ⟨4, .invalidNumber⟩ ∈ readings.take 5 := by
    rw [← htake, hall]
    exact List.mem_cons_of_mem _ List.mem_cons_self
  exact ⟨hfits, hall, htells _ (List.mem_of_mem_take hmem)⟩

/-- Line feeds and then a letter. -/
def lineFeedsAndLetter (n : Nat) : Source :=
  ⟨String.ofList (List.replicate n '\n' ++ ['a']), "GraphQL"⟩

theorem scan_lineFeeds (n offset : Nat) (cs : List Char) :
    scan offset (List.replicate n '\n' ++ cs) = scan (offset + n) cs := by
  induction n generalizing offset with
  | zero => rfl
  | succ n ih =>
    rw [List.replicate_succ, List.cons_append, scan_blank (by decide), ih, Nat.add_assoc,
      Nat.add_comm n]
    rfl

theorem scanAt_lineFeedsAndLetter (n : Nat) :
    (lineFeedsAndLetter n).scanAt 0 = .ok ⟨.ofName "a", n, n + 1, []⟩ := by
  have hchars : (lineFeedsAndLetter n).chars = List.replicate n '\n' ++ ['a'] :=
    String.toList_ofList
  rw [Source.scanAt_zero, hchars, scan_lineFeeds, Nat.zero_add]
  rfl

/-- If the letter stands at the last offset, its end is cut down to the start of the body,
so it is read again and again. -/
theorem take_lineFeedsAndLetter {n : Nat} (hn : n + 1 = UInt32.size) (limit : Nat) :
    (take { source := lineFeedsAndLetter n } limit).1 =
      List.replicate limit (.ok ⟨.ofName "a", .ofNat n, 0⟩) := by
  have htoken : Scanned.token ⟨.ofName "a", n, n + 1, []⟩ = ⟨.ofName "a", .ofNat n, 0⟩ := by
    have hwrap : UInt32.ofNat UInt32.size = 0 := by decide
    show (⟨.ofName "a", .ofNat n, .ofNat (n + 1)⟩ : Token) = _
    rw [hn, hwrap]
  rw [take_eq_readOn rfl]
  show (lineFeedsAndLetter n).readOn limit ((lineFeedsAndLetter n).scanAt 0) = _
  induction limit with
  | zero => rfl
  | succ limit ih =>
    rw [Source.readOn_succ limit (scanAt_lineFeedsAndLetter n) nofun, htoken, List.replicate_succ,
      ← ih]
    rfl

/-- In a body of any length, offsets that are told need not be true, and iteration need not
come to an end. -/
theorem not_take_tellsOffsets :
    (¬ ∀ source : Source, ∃ readings : List Reading,
      (∀ reading ∈ readings, source.TellsOffsets reading) ∧
        ∀ limit, (take { source } limit).1 = readings.take limit) ∧
      ∃ source : Source, ∃ reading ∈ (take { source } 1).1, ¬ source.TellsOffsets reading := by
  obtain ⟨n, hn⟩ : ∃ n, n + 1 = UInt32.size := ⟨UInt32.size - 1, rfl⟩
  refine ⟨fun h => ?_, lineFeedsAndLetter n, .ok ⟨.ofName "a", .ofNat n, 0⟩, ?_, ?_⟩
  · obtain ⟨readings, -, htake⟩ := h (lineFeedsAndLetter n)
    have hlength := congrArg List.length (htake (readings.length + 1))
    rw [take_lineFeedsAndLetter hn, List.length_replicate, List.length_take] at hlength
    omega
  · rw [take_lineFeedsAndLetter hn]
    exact List.mem_cons_self
  · -- The token has a text, so it does not end at the start of the body.
    rintro (⟨⟨⟩⟩ | ⟨-, htext, -, hstop⟩)
    have hstop : 0 = byteLength (_ ++ _) := hstop
    have hsize := byteLength_pos htext.ne_nil
    rw [byteLength_append] at hstop
    omega

end TokenCursor

end GraphQLSyntax
