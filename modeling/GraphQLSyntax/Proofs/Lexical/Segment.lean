import GraphQLSyntax.Proofs.Lexical.Division
import GraphQLSyntax.Proofs.Lexical.Locality
import GraphQLSyntax.Source.Location

/-!
# Segments of a text

The tokens that are read one after the other take up a segment of the text, which ends
where the last of them does.  The segment may be cut out of the text, at its front up to
where the first token starts, and read on its own: this yields the same lexemes, and then
the end.
-/

namespace GraphQLSyntax

/-! ## Tokens in order -/

/-- No token is empty, and none begins before those before it have ended. -/
structure Token.InOrder (ts : List Token) : Prop where
  nonempty : ∀ t ∈ ts, t.start < t.stop
  apart : ts.Pairwise fun t t' => t.stop ≤ t'.start

namespace Token.InOrder

variable {ts u v : List Token}

theorem sublist (h : InOrder ts) (hu : u.Sublist ts) : InOrder u :=
  ⟨fun t ht => h.nonempty t (hu.subset ht), h.apart.sublist hu⟩

theorem stop_le_start (h : InOrder (u ++ v)) {t t' : Token} (ht : t ∈ u) (ht' : t' ∈ v) :
    t.stop ≤ t'.start :=
  (List.pairwise_append.1 h.apart).2.2 t ht t' ht'

/-- No token begins before the first one. -/
theorem head_start_le (h : InOrder u) {first t : Token} (hfirst : u.head? = some first)
    (ht : t ∈ u) : first.start ≤ t.start := by
  obtain ⟨u, rfl⟩ := List.head?_eq_some_iff.1 hfirst
  obtain rfl | ht := List.mem_cons.1 ht
  · exact UInt32.le_refl _
  · have hstop : first.stop ≤ t.start := h.stop_le_start (u := [first]) (by simp) ht
    exact UInt32.le_trans (UInt32.le_of_lt (h.nonempty first (by simp))) hstop

/-- No token ends after the last one. -/
theorem stop_le_last (h : InOrder u) {last t : Token} (hlast : u.getLast? = some last)
    (ht : t ∈ u) : t.stop ≤ last.stop := by
  obtain ⟨u, rfl⟩ := List.getLast?_eq_some_iff.1 hlast
  obtain ht | ht := List.mem_append.1 ht
  · have hstart : t.stop ≤ last.start := h.stop_le_start ht (List.mem_singleton.2 rfl)
    exact UInt32.le_trans hstart (UInt32.le_of_lt (h.nonempty last (by simp)))
  · obtain rfl := List.mem_singleton.1 ht
    exact UInt32.le_refl _

end Token.InOrder

/-! ## Reading segments -/

/-- From the offset on, and before the rest, the segment is taken up by the tokens.  Each
token is also scanned from its text alone, where a segment may be made to begin. -/
inductive Reads : Nat → List Char → List Token → List Char → Prop
  | nil (offset : Nat) (rest : List Char) : Reads offset [] [] rest
  | token {offset : Nat} {ignored text segment rest : List Char} {lexeme : Lexeme}
      {ts : List Token} (hkind : lexeme.kind ≠ .eof) (hne : text ≠ [])
      (hscan : ScansAs ignored text lexeme (segment ++ rest))
      (htext : ScansAs [] text lexeme (segment ++ rest))
      (hrest : Reads (offset + byteLength (ignored ++ text)) segment ts rest) :
      Reads offset (ignored ++ text ++ segment)
        (⟨lexeme, .ofNat (offset + byteLength ignored),
          .ofNat (offset + byteLength (ignored ++ text))⟩ :: ts) rest

namespace Reads

variable {offset : Nat} {segment rest : List Char} {t : Token} {ts u v w : List Token}

theorem mono (h : Reads offset segment ts rest) {rest' : List Char}
    (hbegins : BeginsAs rest' rest) : Reads offset segment ts rest' := by
  induction h with
  | nil => exact .nil ..
  | @token _ _ _ segment rest _ _ hkind hne hscan htext _ ih =>
    have hbegins' : BeginsAs (segment ++ rest') (segment ++ rest) := hbegins.append segment
    exact .token hkind hne (hscan.mono hbegins') (htext.mono hbegins') (ih hbegins)

/-- The offsets of the tokens are all that depends on where a segment starts. -/
theorem restart (h : Reads offset segment ts rest) (offset' : Nat) :
    ∃ ts', Reads offset' segment ts' rest ∧ ts'.map Token.lexeme = ts.map Token.lexeme := by
  induction h generalizing offset' with
  | nil => exact ⟨[], .nil .., rfl⟩
  | token hkind hne hscan htext _ ih =>
    obtain ⟨ts', hreads, heq⟩ := ih _
    exact ⟨_, .token hkind hne hscan htext hreads, congrArg (_ :: ·) heq⟩

/-- A segment is split between the tokens that it is taken up by. -/
theorem split (h : Reads offset segment (u ++ v) rest) :
    ∃ before after, segment = before ++ after ∧ Reads offset before u (after ++ rest) ∧
      Reads (offset + byteLength before) after v rest := by
  induction u generalizing offset segment with
  | nil => exact ⟨[], segment, rfl, .nil .., h⟩
  | cons t u ih =>
    cases h with
    | @token _ ignored text segment _ lexeme _ hkind hne hscan htext hrest =>
      obtain ⟨before, after, rfl, hbefore, hafter⟩ := ih hrest
      rw [List.append_assoc] at hscan htext
      rw [Nat.add_assoc, ← byteLength_append] at hafter
      exact ⟨ignored ++ text ++ before, after, by simp, .token hkind hne hscan htext hbefore,
        hafter⟩

/-- What is ignored before the first token may be left out. -/
theorem trim (h : Reads offset segment (t :: ts) rest) :
    ∃ ignored segment', segment = ignored ++ segment' ∧
      t.start = .ofNat (offset + byteLength ignored) ∧
      Reads (offset + byteLength ignored) segment' (t :: ts) rest := by
  cases h with
  | @token _ ignored text segment _ lexeme _ hkind hne hscan htext hrest =>
    rw [byteLength_append, ← Nat.add_assoc] at hrest ⊢
    exact ⟨ignored, text ++ segment, by simp, rfl, .token hkind hne htext htext hrest⟩

/-- A segment ends with its last token. -/
theorem stop_eq (h : Reads offset segment ts rest) (hlast : ts.getLast? = some t) :
    t.stop = .ofNat (offset + byteLength segment) := by
  induction h with
  | nil => cases hlast
  | @token offset ignored text segment rest lexeme ts _ _ _ _ hrest ih =>
    cases hrest with
    | nil =>
      rw [List.getLast?_singleton, Option.some.injEq] at hlast
      rw [← hlast, List.append_nil]
    | token =>
      rw [ih (by simpa using hlast), byteLength_append (ignored ++ text), Nat.add_assoc]

/-- The tokens come one after the other and lie inside the segment. -/
theorem inOrder (h : Reads offset segment ts rest)
    (hfits : offset + byteLength segment < UInt32.size) :
    Token.InOrder ts ∧
      ∀ t ∈ ts, offset ≤ t.start.toNat ∧ t.stop.toNat ≤ offset + byteLength segment := by
  induction h with
  | nil => exact ⟨⟨nofun, .nil⟩, nofun⟩
  | @token offset ignored text segment rest lexeme ts _ hne _ _ _ ih =>
    simp only [byteLength_append] at hfits ih ⊢
    obtain ⟨hts, hinside⟩ := ih (by omega)
    have hsize := byteLength_pos hne
    have hstart : (UInt32.ofNat (offset + byteLength ignored)).toNat =
        offset + byteLength ignored :=
      UInt32.toNat_ofNat_of_lt' (by omega)
    have hstop : (UInt32.ofNat (offset + (byteLength ignored + byteLength text))).toNat =
        offset + (byteLength ignored + byteLength text) :=
      UInt32.toNat_ofNat_of_lt' (by omega)
    refine ⟨⟨List.forall_mem_cons.2 ⟨?_, hts.nonempty⟩, .cons (fun t ht => ?_) hts.apart⟩,
      List.forall_mem_cons.2 ⟨?_, fun t ht => ?_⟩⟩
    · rw [UInt32.lt_iff_toNat_lt, hstart, hstop]
      omega
    · rw [UInt32.le_iff_toNat_le, hstop]
      exact (hinside t ht).1
    · rw [hstart, hstop]
      omega
    · have := hinside t ht
      omega

/-- Tokens that come one after the other take up a segment of their own, from the start of
the first to the end of the last, which is read as their lexemes. -/
theorem cut (h : Reads offset segment (u ++ v ++ w) rest) {first last : Token}
    (hfirst : v.head? = some first) (hlast : v.getLast? = some last) :
    ∃ before text after vs, segment = before ++ text ++ after ∧
      first.start = .ofNat (offset + byteLength before) ∧
      last.stop = .ofNat (offset + byteLength (before ++ text)) ∧
      Reads 0 text vs [] ∧ vs.map Token.lexeme = v.map Token.lexeme := by
  obtain ⟨upTo, after, rfl, hupTo, -⟩ := h.split
  obtain ⟨before, text, rfl, -, htext⟩ := hupTo.split
  obtain ⟨v, rfl⟩ := List.head?_eq_some_iff.1 hfirst
  have hstop := htext.stop_eq hlast
  obtain ⟨ignored, text, rfl, hstart, htext⟩ := htext.trim
  obtain ⟨vs, hvs, heq⟩ := (htext.mono (.of_isPrefix List.nil_prefix)).restart 0
  refine ⟨before ++ ignored, text, after, vs, by simp, ?_, ?_, hvs, heq⟩
  · rw [hstart, byteLength_append, Nat.add_assoc]
  · rw [hstop]
    simp only [byteLength_append, Nat.add_assoc]

end Reads

/-! ## Reading sources -/

namespace Source

variable {source : Source} {ts : List Token} {token : Token}

theorem reads_of_readOn (hfits : source.byteCount < UInt32.size) {limit offset : Nat}
    {cs : List Char} (hoffset : offset + byteLength cs = source.byteCount)
    (h : source.readOn limit (scan offset cs) = ts.map .ok ++ [.ok token])
    (hkind : token.kind = .eof) :
    token.start = source.length ∧ token.stop = source.length ∧
      ∃ segment rest, cs = segment ++ rest ∧ Reads offset segment ts rest ∧ Ignored [] rest := by
  induction limit generalizing offset cs ts with
  | zero => cases ts <;> cases h
  | succ limit ih =>
    cases hscan : scan offset cs with
    | error fault =>
      rw [hscan, readOn] at h
      cases ts <;> cases h
    | ok scanned =>
      obtain ⟨heof, hstart, hstop, hread⟩ | ⟨hlexeme, -, hoffset', -, hread⟩ :=
        readOn_step hfits hoffset hscan
      · rw [hread] at h
        cases ts with
        | nil =>
          obtain rfl : scanned.token = token := by simpa using h
          obtain ⟨hgap, -⟩ := ignored_of_scan hscan (congrArg Lexeme.kind heof)
          exact ⟨hstart, hstop, [], cs, rfl, .nil .., hgap⟩
        | cons t ts => simp at h
      · rw [hread] at h
        cases ts with
        | nil =>
          obtain rfl : scanned.token = token := Except.ok.inj (List.cons.inj h).1
          exact absurd hkind hlexeme
        | cons t ts =>
          obtain ⟨rfl, htail⟩ : scanned.token = t ∧ _ := by simpa using h
          obtain ⟨ignored, text, rfl, hne, hscans, htext⟩ := scan_local hscan hlexeme
          have heq := Except.ok.inj (hscan.symm.trans (hscans offset _ (.refl _)))
          obtain ⟨lexeme, start, stop, rest'⟩ := scanned
          obtain ⟨-, rfl, rfl, -⟩ := Scanned.mk.inj heq
          obtain ⟨hstart, hstop, segment, rest, rfl, hreads, hgap⟩ := ih hoffset' htail
          exact ⟨hstart, hstop, ignored ++ text ++ segment, rest, (List.append_assoc ..).symm,
            .token hlexeme hne hscans htext hreads, hgap⟩

/-- The tokens of a source take up a segment of its text, behind which everything is ignored, and
the end stands behind the last byte. -/
theorem reads_of_tokens (hfits : source.byteCount < UInt32.size)
    (h : source.tokens = ts.map .ok ++ [.ok token]) (hkind : token.kind = .eof) :
    token.start = source.length ∧ token.stop = source.length ∧
      ∃ segment rest, source.chars = segment ++ rest ∧ Reads 0 segment ts rest ∧
        Ignored [] rest :=
  reads_of_readOn hfits (by simp [byteCount_eq]) h hkind

theorem tokens_inOrder (hfits : source.byteCount < UInt32.size)
    (h : source.tokens = ts.map .ok ++ [.ok token]) (hkind : token.kind = .eof) :
    Token.InOrder ts ∧ ∀ t ∈ ts, t.stop ≤ source.length := by
  obtain ⟨-, -, segment, rest, hchars, hreads, -⟩ := reads_of_tokens hfits h hkind
  have hsize : byteLength segment ≤ source.byteCount := by
    rw [byteCount_eq, hchars, byteLength_append]
    omega
  obtain ⟨hts, hinside⟩ := hreads.inOrder (by omega)
  refine ⟨hts, fun t ht => ?_⟩
  have := (hinside t ht).2
  rw [UInt32.le_iff_toNat_le, Source.length, UInt32.toNat_ofNat_of_lt' hfits]
  omega

/-- The token at the end of a source. -/
def endToken (source : Source) : Token :=
  ⟨.bare .eof, source.length, source.length⟩

theorem readOn_of_reads (hfits : source.byteCount < UInt32.size) {limit offset : Nat}
    {segment rest : List Char} (h : Reads offset segment ts rest) (hgap : Ignored [] rest)
    (hoffset : offset + byteLength (segment ++ rest) = source.byteCount)
    (hlimit : byteLength (segment ++ rest) < limit) :
    source.readOn limit (scan offset (segment ++ rest)) =
      ts.map .ok ++ [.ok source.endToken] := by
  induction limit generalizing offset segment ts with
  | zero => omega
  | succ limit ih =>
    cases h with
    | nil =>
      have hskip := hgap.skipIgnored_eq offset
      rw [List.append_nil] at hskip
      rw [List.nil_append] at hoffset ⊢
      rw [scan, hskip, skipIgnored, hoffset]
      rfl
    | @token _ ignored text segment _ lexeme ts hkind _ hscans _ hrest =>
      rw [List.append_assoc (ignored ++ text)] at hoffset hlimit ⊢
      have hscan := hscans offset _ (.refl _)
      obtain ⟨heof, -⟩ | ⟨-, -, hoffset', hless, hread⟩ := readOn_step hfits hoffset hscan
      · exact absurd (congrArg Lexeme.kind heof) hkind
      · have heq := ih hrest hoffset' (Nat.lt_of_lt_of_le hless (by omega))
        rw [hread, heq]
        rfl

/-- A source has the tokens that its text is taken up by, up to where everything is ignored. -/
theorem tokens_of_reads (hfits : source.byteCount < UInt32.size) {segment rest : List Char}
    (hchars : source.chars = segment ++ rest) (h : Reads 0 segment ts rest)
    (hgap : Ignored [] rest) : source.tokens = ts.map .ok ++ [.ok source.endToken] := by
  have hsize := source.byteCount_eq
  rw [hchars] at hsize
  rw [tokens, hchars]
  exact readOn_of_reads hfits h hgap (by omega) (by omega)

end Source

/-- No offset in a source is cut down. -/
theorem Source.toNat_byteLength {source : Source} (hfits : source.byteCount < UInt32.size)
    {cs ds : List Char} (hchars : source.chars = cs ++ ds) :
    (UInt32.ofNat (byteLength cs)).toNat = byteLength cs := by
  have hsize := source.byteCount_eq
  rw [hchars, byteLength_append] at hsize
  exact UInt32.toNat_ofNat_of_lt' (by omega)

/-- The text of a location that covers part of the text of its source. -/
theorem Location.text?_eq_some {source : Source} (hfits : source.byteCount < UInt32.size)
    {before text after : List Char} (hchars : source.chars = before ++ text ++ after) :
    Location.text?
        ⟨.ofNat (byteLength before), .ofNat (byteLength (before ++ text)), some source⟩ =
      some (String.ofList text) := by
  have hstop := source.toNat_byteLength hfits hchars
  have hupTo : takeBytes? (byteLength (before ++ text)) source.chars = some (before ++ text) := by
    rw [hchars, takeBytes?_byteLength_append]
  rw [List.append_assoc] at hchars
  have hstart := source.toNat_byteLength hfits hchars
  have hbefore : takeBytes? (byteLength before) source.chars = some before := by
    rw [hchars, takeBytes?_byteLength_append]
  have hle : UInt32.ofNat (byteLength before) ≤ UInt32.ofNat (byteLength (before ++ text)) := by
    rw [UInt32.le_iff_toNat_le, hstart, hstop, byteLength_append]
    omega
  simp only [Location.text?, Option.bind_eq_bind, Option.bind_some, if_pos hle, hstart, hstop,
    hbefore, hupTo, List.drop_left]

end GraphQLSyntax
