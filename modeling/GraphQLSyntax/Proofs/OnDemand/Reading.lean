import GraphQLSyntax.Proofs.Lexical.Filler
import GraphQLSyntax.Proofs.Lexical.Tiling

/-!
# Asking for one token after the other

The tokens of a source are what one gets by asking, after each token, for the one at the offset
where it ends.  They differ from each other, since they stand in different places; and if there is
no fault, the end comes last, behind which there is nothing but the end again.
-/

namespace GraphQLSyntax

namespace Source

variable {source : Source}

/-- What reading on and on yields after a token. -/
inductive ReadsOn (source : Source) : Token → List Reading → Prop
  | last {token : Token} (hend : token = source.endToken) : ReadsOn source token []
  | fault {token : Token} {fault : Fault} (hkind : token.kind ≠ .eof)
      (hnext : source.readToken token.stop = .error fault) :
      ReadsOn source token [.error fault]
  | next {token next : Token} {rest : List Reading} (hkind : token.kind ≠ .eof)
      (hnext : source.readToken token.stop = .ok next) (hrest : ReadsOn source next rest) :
      ReadsOn source token (.ok next :: rest)

/-- Behind the end there is the end again. -/
theorem readToken_length (hfits : source.byteCount < UInt32.size) :
    source.readToken source.length = .ok source.endToken := by
  have hlength : source.length.toNat = source.byteCount := UInt32.toNat_ofNat_of_lt' hfits
  rw [readToken, hlength, scanAt, if_pos (Nat.le_refl _)]
  rfl

theorem readToken_of_readOn {limit : Nat} {offset : UInt32} {reading : Reading}
    {rest : List Reading}
    (h : source.readOn limit (source.scanAt offset.toNat) = reading :: rest) :
    source.readToken offset = reading := by
  rw [readToken]
  cases limit with
  | zero => cases h
  | succ limit =>
    cases hscan : source.scanAt offset.toNat with
    | error fault =>
      rw [hscan, readOn] at h
      exact (List.cons.inj h).1
    | ok scanned =>
      rw [hscan, readOn] at h
      split at h <;> exact (List.cons.inj h).1

/-- What reading on yields, up to the end, is what asking for one token after the other yields. -/
theorem readsOn_of_readOn {limit offset : Nat} {token : Token} {rest : List Reading}
    (h : source.readOn limit (source.scanAt offset) = .ok token :: rest)
    (hstream : IsStream (.ok token :: rest))
    (hend : ∀ t, .ok t ∈ (.ok token :: rest : List Reading) → t.kind = .eof →
      t = source.endToken) :
    source.ReadsOn token rest := by
  induction limit generalizing offset token rest with
  | zero => cases h
  | succ limit ih =>
    obtain ⟨hlexeme, rfl⟩ | ⟨hkind, -, hrest⟩ := hstream.of_ok_cons
    · exact .last (hend token (List.mem_singleton_self _) (congrArg Lexeme.kind hlexeme))
    · cases hscan : source.scanAt offset with
      | error fault =>
        rw [hscan, readOn] at h
        cases h
      | ok scanned =>
        have htoken : scanned.token = token := by
          rw [hscan, readOn] at h
          split at h <;> exact Except.ok.inj (List.cons.inj h).1
        subst htoken
        rw [readOn_succ limit hscan hkind] at h
        have htail := (List.cons.inj h).2
        cases rest with
        | nil => exact absurd rfl hrest.ne_nil
        | cons reading rest =>
          have hnext := readToken_of_readOn htail
          cases reading with
          | error fault =>
            -- nothing comes after a fault
            cases hrest
            exact .fault hkind hnext
          | ok next =>
            exact .next hkind hnext
              (ih htail hrest fun t ht => hend t (List.mem_cons_of_mem _ ht))

/-- The end is read once, and it comes last. -/
theorem eq_endToken_of_mem_tokens (hfits : source.byteCount < UInt32.size) {token : Token}
    (hmem : .ok token ∈ source.tokens) (hkind : token.kind = .eof) : token = source.endToken := by
  obtain ⟨ts, last, htokens, hts, -⟩ := (tokens_isStream hfits).exists_eq
  rw [htokens, List.mem_append, List.mem_singleton] at hmem
  obtain hmem | rfl := hmem
  · obtain ⟨t, ht, heq⟩ := List.mem_map.1 hmem
    obtain rfl := Except.ok.inj heq
    exact absurd hkind (hts t ht)
  · have hall : source.tokens = (ts ++ [token]).map .ok := by rw [htokens, List.map_append]; rfl
    obtain ⟨us, hus, -⟩ := exists_tokens_eq hfits hall
    exact (List.append_inj' hus rfl).2 |> List.singleton_inj.1

/-- How many tokens there are before the end or the first fault. -/
def tokenCount (source : Source) : Nat :=
  source.tokens.countP fun reading => !reading.isLast

/-- The tokens before the end or the first fault differ from each other, as they stand in different
places. -/
theorem exists_tokens_nodup (hfits : source.byteCount < UInt32.size) :
    ∃ (ts : List Token) (last : Reading), source.tokens = ts.map .ok ++ [last] ∧
      (∀ t ∈ ts, t.kind ≠ .eof) ∧ last.isLast = true ∧ ts.Nodup := by
  obtain ⟨ts, last, htokens, hts, hlast⟩ := (tokens_isStream hfits).exists_eq
  have hoffset : 0 + byteLength source.chars = source.byteCount := by
    rw [Nat.zero_add, source.byteCount_eq]
  obtain ⟨ts', last', htiles, hreads⟩ := exists_tilesText hfits hoffset
  have htiled := tiledBy_of_tilesText htiles
  have htokens' : source.tokens = ts'.map .ok ++ [last'] := by
    rw [tokens, hreads, List.take_of_length_le htiled.length_le]
  have hmaps : ts.map Except.ok = ts'.map (Except.ok (ε := Fault)) :=
    (List.append_inj' (htokens.symm.trans htokens') rfl).1
  obtain rfl : ts = ts' := (List.map_inj_right fun _ _ => Except.ok.inj).1 hmaps
  have horder := htiled.inOrder
  refine ⟨ts, last, htokens, hts, hlast, horder.apart.imp_of_mem fun ht _ hle heq => ?_⟩
  subst heq
  exact UInt32.not_lt.2 hle (horder.nonempty _ ht)

theorem length_tokens (hfits : source.byteCount < UInt32.size) :
    source.tokens.length = source.tokenCount + 1 := by
  obtain ⟨ts, last, htokens, hts, hlast, -⟩ := exists_tokens_nodup hfits
  have hall : ∀ reading : Reading, reading ∈ ts.map .ok → (!reading.isLast) = true := by
    simpa [Reading.isLast] using hts
  have hcount : (ts.map .ok).countP (fun reading : Reading => !reading.isLast) = ts.length := by
    rw [List.countP_eq_length.2 hall, List.length_map]
  rw [tokenCount, htokens, List.countP_append, hcount]
  simp [hlast]

end Source

end GraphQLSyntax
