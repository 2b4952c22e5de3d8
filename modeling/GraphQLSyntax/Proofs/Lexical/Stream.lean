import GraphQLSyntax.Proofs.Lexical.Scanning
import GraphQLSyntax.Token.Reader

/-!
# What reading a source yields

Reading on from the start of a source yields proper tokens and at last the end of
the text or a fault, and the end token stands right behind the last byte.  That
takes no more reads than there are bytes, since every other token spans at least
one, and nothing is lost when offsets are cut down to 32 bits as long as the length
of the body fits into them.
-/

namespace GraphQLSyntax

/-- What reading a source yields: proper tokens, then the end or a fault. -/
inductive IsStream : List Reading → Prop
  | eof (token : Token) (h : token.lexeme = .bare .eof) : IsStream [.ok token]
  | fault (fault : Fault) (h : fault.cause.category = .lexical) : IsStream [.error fault]
  | token (token : Token) (rest : List Reading) (hkind : token.kind ≠ .eof)
      (hproper : token.lexeme.IsProper) (hrest : IsStream rest) :
      IsStream (.ok token :: rest)

theorem IsStream.ne_nil {readings : List Reading} (h : IsStream readings) : readings ≠ [] := by
  cases h <;> simp

/-- The end comes last, and every other token is proper. -/
theorem IsStream.of_ok_cons {token : Token} {rest : List Reading}
    (h : IsStream (.ok token :: rest)) :
    (token.lexeme = .bare .eof ∧ rest = []) ∨
      (token.kind ≠ .eof ∧ token.lexeme.IsProper ∧ IsStream rest) := by
  cases h with
  | eof _ h => exact .inl ⟨h, rfl⟩
  | token _ _ hkind hproper hrest => exact .inr ⟨hkind, hproper, hrest⟩

theorem IsStream.isProper {token : Token} {rest : List Reading}
    (h : IsStream (.ok token :: rest)) : token.lexeme.IsProper := by
  obtain ⟨h, -⟩ | ⟨-, h, -⟩ := h.of_ok_cons
  · rw [h]
    rfl
  · exact h

theorem IsStream.isProper_of_mem {token : Token} {readings : List Reading} (h : IsStream readings)
    (hmem : .ok token ∈ readings) : token.lexeme.IsProper := by
  induction h with
  | eof token' h =>
    obtain rfl := Except.ok.inj (List.mem_singleton.1 hmem)
    rw [h]
    rfl
  | fault => simp at hmem
  | token token' rest _ hproper _ ih =>
    rcases List.mem_cons.1 hmem with htoken | hmem
    · obtain rfl := Except.ok.inj htoken
      exact hproper
    · exact ih hmem

theorem IsStream.of_append {u : List Token} {rest : List Reading}
    (h : IsStream (u.map .ok ++ rest)) (hrest : rest ≠ []) : IsStream rest := by
  induction u with
  | nil => exact h
  | cons token u ih =>
    apply ih
    generalize hreadings : (token :: u).map Except.ok ++ rest = readings at h
    cases h <;> simp_all

/-- A stream is some tokens, none of which is the end, and a last reading. -/
theorem IsStream.exists_eq {readings : List Reading} (h : IsStream readings) :
    ∃ (ts : List Token) (last : Reading), readings = ts.map .ok ++ [last] ∧
      (∀ t ∈ ts, t.kind ≠ .eof) ∧ last.isLast = true := by
  induction h with
  | eof token h => exact ⟨[], .ok token, rfl, by simp, by simp [Reading.isLast, Token.kind, h]⟩
  | fault fault _ => exact ⟨[], .error fault, rfl, by simp, rfl⟩
  | token token rest hkind _ _ ih =>
    obtain ⟨ts, last, rfl, hts, hlast⟩ := ih
    exact ⟨token :: ts, last, rfl, List.forall_mem_cons.2 ⟨hkind, hts⟩, hlast⟩

theorem utf8ByteSize_eq_byteLength (text : String) :
    text.utf8ByteSize = byteLength text.toList := by
  suffices h : ∀ cs, (String.ofList cs).utf8ByteSize = byteLength cs by
    simpa using h text.toList
  intro cs
  induction cs with
  | nil => simp
  | cons c cs ih =>
    rw [← List.singleton_append, String.ofList_append, String.utf8ByteSize_append, ih]
    simp

namespace Source

theorem byteCount_eq (source : Source) : source.byteCount = byteLength source.chars :=
  utf8ByteSize_eq_byteLength source.body

/-- One read in a body whose offsets fit into 32 bits: it yields the end, or a token
behind which reading goes on in a shorter text. -/
theorem readOn_step {source : Source} (hfits : source.byteCount < UInt32.size) {offset : Nat}
    {cs : List Char} {scanned : Scanned} (hoffset : offset + byteLength cs = source.byteCount)
    (hscan : scan offset cs = .ok scanned) :
    (scanned.lexeme = .bare .eof ∧ scanned.token.start = source.length ∧
      scanned.token.stop = source.length ∧
      ∀ limit, source.readOn (limit + 1) (scan offset cs) = [.ok scanned.token]) ∨
    (scanned.lexeme.kind ≠ .eof ∧ scanned.lexeme.IsProper ∧
      scanned.stop + byteLength scanned.rest = source.byteCount ∧
      byteLength scanned.rest < byteLength cs ∧
      ∀ limit, source.readOn (limit + 1) (scan offset cs) =
        .ok scanned.token :: source.readOn limit (scan scanned.stop scanned.rest)) := by
  rw [hscan]
  obtain ⟨ignored, before, rfl, hcovers⟩ := scan_covers hscan
  obtain ⟨text, rfl, hstop, hempty⟩ := hcovers.exists_text
  simp only [byteLength_append] at hoffset ⊢
  by_cases hkind : scanned.lexeme.kind = .eof
  · have hend := hcovers.eq_nil hkind
    rw [← byteLength_append, hend, byteLength_nil] at hoffset
    obtain ⟨rfl, -⟩ := List.append_eq_nil_iff.1 hend
    refine .inl ⟨?_, ?_, ?_, fun limit => ?_⟩
    · rw [← hkind]
      exact hcovers.isProper.eq_bare (by rw [hkind]; rfl)
    · simp [Scanned.token, Source.length, hcovers.start_eq, ← hoffset]
    · simp [Scanned.token, Source.length, hstop, ← hoffset]
    · simp [readOn, Scanned.token, Token.kind, hkind]
  · have hsize : 0 < byteLength text := byteLength_pos fun htext => hkind (hempty htext)
    have hfit : scanned.token.stop.toNat = scanned.stop := UInt32.toNat_ofNat_of_lt' (by omega)
    refine .inr ⟨hkind, hcovers.isProper, by omega, by omega, fun limit => ?_⟩
    rw [readOn, if_neg (by simpa [Scanned.token, Token.kind] using hkind), if_pos hfit]

/-- Reading on from any place in a body whose offsets fit into 32 bits, in as many
reads as it may take. -/
theorem readOn_isStream {source : Source} (hfits : source.byteCount < UInt32.size)
    {limit offset : Nat} {cs : List Char} (hoffset : offset + byteLength cs = source.byteCount)
    (hlimit : byteLength cs < limit) :
    IsStream (source.readOn limit (scan offset cs)) ∧
      ∀ token, .ok token ∈ source.readOn limit (scan offset cs) → token.kind = .eof →
        token.start = source.length := by
  induction limit generalizing offset cs with
  | zero => omega
  | succ limit ih =>
    cases hscan : scan offset cs with
    | error fault =>
      rw [readOn]
      exact ⟨.fault fault (scan_lexical hscan), by simp⟩
    | ok scanned =>
      rw [← hscan]
      obtain ⟨heof, hstart, -, hread⟩ | ⟨hkind, hproper, hoffset', hless, hread⟩ :=
        readOn_step hfits hoffset hscan
      · rw [hread]
        refine ⟨.eof _ heof, fun token htoken _ => ?_⟩
        obtain rfl : token = scanned.token := by simpa using htoken
        exact hstart
      · obtain ⟨hstream, hend⟩ := ih hoffset' (by omega)
        rw [hread]
        refine ⟨.token _ _ hkind hproper hstream, fun token htoken hkind' => ?_⟩
        obtain rfl | htoken : token = scanned.token ∨ _ := by simpa using htoken
        · exact absurd hkind' hkind
        · exact hend token htoken hkind'

variable {source : Source}

theorem tokens_isStream (hfits : source.byteCount < UInt32.size) : IsStream source.tokens :=
  (readOn_isStream hfits (by simp [byteCount_eq]) (by simp [byteCount_eq])).1

/-- The end token stands behind the last byte. -/
theorem start_eq_length (hfits : source.byteCount < UInt32.size) {token : Token}
    (h : .ok token ∈ source.tokens) (hkind : token.kind = .eof) :
    token.start = source.length :=
  (readOn_isStream hfits (by simp [byteCount_eq]) (by simp [byteCount_eq])).2 token h hkind

end Source

end GraphQLSyntax
