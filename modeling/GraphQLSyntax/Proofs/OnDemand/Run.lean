import Mathlib.Data.List.Infix
import Mathlib.Data.List.Nodup
import GraphQLSyntax.Proofs.OnDemand.Executable
import GraphQLSyntax.Proofs.OnDemand.Schema
import GraphQLSyntax.Proofs.Parsing.Run

/-!
# A single pass over the tokens

Whole documents: there, and only there, the end is consumed, which asks for one more token.  So a
parser that reads tokens when they are needed comes to what parsing the source comes to, it asks for
no token before the end twice, and it is never deeper in productions within themselves than there
are tokens.
-/

namespace GraphQLSyntax

/-! ## Whole documents -/

namespace OnDemand

variable {source : Source} {α β : Type} {b j : Nat}

/-- Both parsers have consumed the end. -/
structure AtEnd (source : Source) (s : ParserState) (r : State) : Prop where
  sources_eq : s.source = source ∧ r.source = source
  options_eq : r.options = s.options
  lastStop_eq : r.lastStop = s.lastStop
  serial_eq : r.serial = s.serial
  readings_eq : r.account.readings source = source.tokens ++ [.ok source.endToken]
  deepest_lt : r.account.deepest < source.tokens.length

/-- Both parsers return the same and have consumed the end, or both stop for the same fault. -/
inductive Ended (source : Source) :
    EStateM.Result Fault ParserState β → EStateM.Result Stop State β → Prop
  | ok {x : β} {s' : ParserState} {r' : State} (hend : AtEnd source s' r') :
      Ended source (.ok x s') (.ok x r')
  | fault {fault : Fault} {r' : State} (s' : ParserState) (hwithin : r'.account.Within source) :
      Ended source (.error fault s') (.error (.fault fault) r')

/-- With fewer tokens left to read than the bound, both parsers come to an end. -/
def Ends (source : Source) (b : Nat) (p : Parser β) (q : OnDemand β) : Prop :=
  ∀ s r, Matches source s r → s.upcoming.length < b → Ended source (p s) (q r)

theorem Tracks.ends {p : Parser α} {q : OnDemand α} {f : α → Parser β} {g : α → OnDemand β}
    (h : Tracks source b j p q) (hf : ∀ x, Ends source (b - j) (f x) (g x)) :
    Ends source b (p >>= f) (q >>= g) := by
  intro s r hmatches hlt
  have houtcome := h s r hmatches hlt
  simp only [Bind.bind, EStateM.bind]
  generalize p s = result at houtcome
  generalize q r = result' at houtcome
  cases houtcome with
  | fault s' hwithin => exact .fault s' hwithin
  | ok hmatches' hconsumed => exact hf _ _ _ hmatches' (by omega)

theorem skipEnd_of_ne {r : State} (h : r.ahead.kind ≠ .eof) :
    (Parser.skipEnd : OnDemand Bool) r = .ok false r := by
  show (if r.ahead.kind == .eof then (do let _ ← consume; return true) else return false :
    OnDemand Bool) r = _
  rw [if_neg (by simpa using h)]
  rfl

/-- To consume the end asks for one more token, and there is the end again. -/
theorem skipEnd_eof (hfits : source.byteCount < UInt32.size) {r : State}
    (hsource : r.source = source) (hahead : r.ahead = source.endToken) :
    (Parser.skipEnd : OnDemand Bool) r = .ok true
      { r with
        ahead := source.endToken
        lastStop := source.length
        account := r.account.request source.length } := by
  have hconsume : consume r = .ok source.endToken
      { r with
        ahead := source.endToken
        lastStop := source.length
        account := r.account.request source.length } := by
    have hagain : source.readToken source.endToken.stop = .ok source.endToken :=
      Source.readToken_length hfits
    rw [consume, hsource, hahead, hagain]
    rfl
  show (if r.ahead.kind == .eof then (do let _ ← consume; return true) else return false :
    OnDemand Bool) r = _
  rw [if_pos (by rw [hahead]; rfl)]
  simp only [Bind.bind, EStateM.bind, hconsume]
  rfl

namespace Ends

variable {p : Parser β} {q : OnDemand β}

/-- Nothing is read after the end. -/
theorem andThen {p : Parser α} {q : OnDemand α} {f : α → Parser β} {g : α → OnDemand β}
    (h : Ends source b p q)
    (hf : ∀ x s r, AtEnd source s r → Ended source (f x s) (g x r)) :
    Ends source b (p >>= f) (q >>= g) := by
  intro s r hmatches hlt
  have hended := h s r hmatches hlt
  simp only [Bind.bind, EStateM.bind]
  generalize p s = result at hended
  generalize q r = result' at hended
  cases hended with
  | fault s' hwithin => exact .fault s' hwithin
  | ok hend => exact hf _ _ _ hend

theorem ite_skipEnd (hfits : source.byteCount < UInt32.size) (x : β) (h : Ends source b p q) :
    Ends source b (do if ← Parser.skipEnd then return x else p)
      (do if ← Parser.skipEnd then return x else q) := by
  intro s r hmatches hlt
  simp only [Bind.bind, EStateM.bind]
  by_cases hkind : s.ahead.kind = .eof
  · -- nothing is left to read, so all tokens have been asked for, and now the end once more
    obtain ⟨hahead, hupcoming⟩ := hmatches.eq_of_eof hkind
    have hreadings := hmatches.readings_eq
    rw [hupcoming, List.append_nil] at hreadings
    rw [Parser.skipEnd_of_eof hkind hupcoming,
      skipEnd_eof hfits hmatches.sources_eq.2 (hmatches.ahead_eq.trans hahead)]
    refine .ok ⟨hmatches.sources_eq, hmatches.options_eq, congrArg Token.stop hahead.symm,
      hmatches.serial_eq, ?_, ?_⟩
    · rw [Account.readings_request, hreadings, Source.readToken_length hfits]
    · rw [← hmatches.length_eq, hupcoming]
      exact hmatches.deepest_lt
  · have hkind' : r.ahead.kind ≠ .eof := by rwa [hmatches.ahead_eq]
    rw [Parser.skipEnd_of_ne hkind, skipEnd_of_ne hkind']
    exact h s r hmatches hlt

theorem untilEnd (hfits : source.byteCount < UInt32.size) {limit limit' : Nat}
    (hitem : Tracks source b 1 p q) (hb : b ≤ limit) (hb' : b ≤ limit') :
    Ends source b (Parser.untilEnd p limit) (Parser.untilEnd q limit') := by
  induction b generalizing limit limit' with
  | zero => exact fun _ _ _ hlt => absurd hlt (Nat.not_lt_zero _)
  | succ c ih =>
    obtain ⟨limit, rfl⟩ := Nat.exists_eq_add_of_lt hb
    obtain ⟨limit', rfl⟩ := Nat.exists_eq_add_of_lt hb'
    refine hitem.round.ends fun x => ite_skipEnd hfits [x] ?_
    have hrest := ih hitem.fewer (Nat.le_add_right c limit) (Nat.le_add_right c limit')
    exact .andThen hrest fun xs _ _ hend => .ok hend

/-- A document ends with marking what it has read. -/
theorem mark_pure (h : Ends source b p q) {f : β → Tag → α} (start : UInt32) :
    Ends source b (do let x ← p; return f x (← ParserCore.mark start))
      (do let x ← q; return f x (← ParserCore.mark start)) := by
  refine .andThen h fun x s r hend => ?_
  obtain ⟨hsource, hsource'⟩ := hend.sources_eq
  show Ended source
    (.ok (f x ⟨s.serial, s.options.locate s.source start s.lastStop⟩)
      { s with serial := s.serial + 1 })
    (.ok (f x ⟨r.serial, r.options.locate r.source start r.lastStop⟩)
      { r with serial := r.serial + 1 })
  rw [hend.serial_eq, hend.lastStop_eq, hend.options_eq, hsource, hsource']
  exact .ok ⟨⟨rfl, rfl⟩, rfl, rfl, rfl, hend.readings_eq, hend.deepest_lt⟩

end Ends

theorem ends_document (hfits : source.byteCount < UInt32.size) {limit limit' : Nat}
    (hb : b ≤ limit) (hb' : b ≤ limit') :
    Ends source b (Parser.document limit) (Parser.document limit') :=
  Tracks.here.ends fun start =>
    .mark_pure (.untilEnd hfits (tracks_definition hb hb') hb hb') start

theorem ends_schemaDocument (hfits : source.byteCount < UInt32.size) {limit limit' : Nat}
    (hb : b ≤ limit) (hb' : b ≤ limit') :
    Ends source b (Parser.schemaDocument limit) (Parser.schemaDocument limit') :=
  Tracks.here.ends fun start =>
    .mark_pure (.untilEnd hfits (tracks_schemaDefinition hb hb') hb hb') start

/-! ## Whole runs -/

/-- Both runs return the same, and all tokens have been asked for once, and the end once more; or
they stop for the same fault, and some of the tokens have been asked for. -/
inductive Finished (source : Source) : Except Fault β → Except Stop β × Account → Prop
  | ok {x : β} {account : Account}
      (hreadings : account.readings source = source.tokens ++ [.ok source.endToken])
      (hdeepest : account.deepest < source.tokens.length) : Finished source (.ok x) (.ok x, account)
  | fault {fault : Fault} {account : Account} (hwithin : account.Within source) :
      Finished source (.error fault) (.error (.fault fault), account)

theorem run_finished (hfits : source.byteCount < UInt32.size) {p : Nat → Parser β}
    {q : OnDemand β} (h : Ends source source.tokens.length (p (source.tokens.length + 1)) q)
    (options : ParseOptions) :
    Finished source (Parser.run p source options source.tokens) (run q source options) := by
  have hstream := Source.tokens_isStream hfits
  obtain ⟨reading, rest, htokens⟩ := List.exists_cons_of_ne_nil hstream.ne_nil
  have hreadOn := source.tokens_eq_readOn_scanAt.symm.trans htokens
  have hfirst : source.readToken 0 = reading := Source.readToken_of_readOn hreadOn
  have hreadings : (Account.request {} 0).readings source = [reading] := by
    rw [Account.readings_request, hfirst]
    rfl
  cases reading with
  | error fault =>
    rw [run, hfirst, htokens]
    refine .fault ⟨⟨rest, ?_⟩, Nat.zero_lt_one⟩
    rw [hreadings, htokens]
    rfl
  | ok ahead =>
    -- both parsers start with the first token ahead, and that has been asked for
    have hmatches : Matches source { source, options, ahead, upcoming := rest }
        { source, options, ahead, account := .request {} 0 } := by
      refine ⟨⟨rfl, rfl⟩, rfl, rfl, rfl, rfl, ?_, ?_, Nat.zero_lt_one, Nat.zero_lt_one⟩
      · rw [hreadings, htokens]
        rfl
      · rw [htokens] at hstream
        refine Source.readsOn_of_readOn hreadOn hstream fun t ht => ?_
        rw [← htokens] at ht
        exact Source.eq_endToken_of_mem_tokens hfits ht
    have hended := h _ _ hmatches (by rw [htokens]; exact Nat.lt_succ_self _)
    rw [run, hfirst, htokens, Parser.run]
    rw [htokens] at hended
    dsimp only at hended ⊢
    generalize p _ _ = result at hended
    generalize q _ = result' at hended
    cases hended with
    | fault s' hwithin => exact .fault hwithin
    | ok hend => exact .ok hend.readings_eq hend.deepest_lt

namespace Finished

variable {result : Except Fault β} {run : Except Stop β × Account}

theorem map (h : Finished source result run) (f : β → α) :
    Finished source (result.map f) (run.1.map f, run.2) := by
  cases h with
  | ok hreadings hdeepest => exact .ok hreadings hdeepest
  | fault hwithin => exact .fault hwithin

theorem fst_eq (h : Finished source result run) : run.1 = result.mapError .fault := by
  cases h <;> rfl

/-- Nothing is asked for after the end but the end again, and that only by a parser that returns. -/
theorem readings (h : Finished source result run) :
    (∃ x, run.1 = .ok x) ∧ run.2.readings source = source.tokens ++ [.ok source.endToken] ∨
      (∃ stop, run.1 = .error stop) ∧ run.2.readings source <+: source.tokens := by
  cases h with
  | ok hreadings => exact .inl ⟨⟨_, rfl⟩, hreadings⟩
  | fault hwithin => exact .inr ⟨⟨_, rfl⟩, hwithin.isPrefix⟩

theorem isPrefix (h : Finished source result run) :
    run.2.readings source <+: source.tokens ++ [.ok source.endToken] := by
  obtain ⟨-, hreadings⟩ | ⟨-, hprefix⟩ := h.readings
  · rw [hreadings]
  · exact hprefix.trans (List.prefix_append _ _)

theorem length_requests_le (h : Finished source result run) :
    run.2.requests.length ≤ source.tokens.length + 1 := by
  have hlength := h.isPrefix.length_le
  rwa [Account.length_readings, List.length_append] at hlength

theorem deepest_lt (h : Finished source result run) : run.2.deepest < source.tokens.length := by
  cases h with
  | ok _ hdeepest => exact hdeepest
  | fault hwithin =>
    have hlength := hwithin.isPrefix.length_le
    rw [Account.length_readings] at hlength
    exact Nat.lt_of_lt_of_le hwithin.deepest_lt hlength

/-- Nothing is asked for twice but the end. -/
theorem nodup (h : Finished source result run) (hfits : source.byteCount < UInt32.size) :
    ((run.2.readings source).filter fun reading => !reading.isLast).Nodup := by
  obtain ⟨ts, last, htokens, -, hlast, hnodup⟩ := Source.exists_tokens_nodup hfits
  have hsublist := h.isPrefix.sublist.filter fun reading => !reading.isLast
  refine hsublist.nodup ?_
  have hend : Reading.isLast (.ok source.endToken) = true := rfl
  rw [htokens, List.filter_append, List.filter_append, List.filter_singleton,
    List.filter_singleton, hlast, hend]
  simpa using (hnodup.map fun _ _ => Except.ok.inj).filter _

end Finished

end OnDemand

namespace Source

variable {source : Source}

theorem parseOnDemand_finished (hfits : source.byteCount < UInt32.size) (grammar : Grammar)
    (options : ParseOptions) {limit : Nat} (hlimit : source.tokens.length ≤ limit) :
    OnDemand.Finished source ((source.parseNode grammar options).mapError (·.fault))
      (source.parseOnDemand grammar options limit) := by
  have hresult : (source.parseNode grammar options).mapError (·.fault) =
      source.runParser grammar options := by
    rw [parseNode_eq_mapError]
    cases source.runParser grammar options <;> rfl
  rw [hresult]
  cases grammar with
  | executable =>
    have hends := OnDemand.ends_document hfits (Nat.le_succ _) hlimit
    exact (OnDemand.run_finished hfits (p := Parser.document) hends options).map
      Node.document
  | schema =>
    have hends := OnDemand.ends_schemaDocument hfits (Nat.le_succ _) hlimit
    exact (OnDemand.run_finished hfits (p := Parser.schemaDocument) hends options).map
      Node.schemaDocument

/-- Parsing goes over the tokens once.  With any limit that is not below the number of tokens, the
parser that reads them when they are needed comes to what parsing comes to: it stops for a fault of
the text, never because it went around without consuming a token, consumed the end anywhere else
than where the document ends, or used up its limit.  It asks for one token after the other, for the
end a second time if it returns, and for no token before the end twice; and it is never deeper in
productions within themselves than there are tokens. -/
theorem parseOnDemand_singlePass (hfits : source.byteCount < UInt32.size) (grammar : Grammar)
    (options : ParseOptions) {limit : Nat} (hlimit : source.tokens.length ≤ limit) :
    let run := source.parseOnDemand grammar options limit
    run.1 = (source.parseNode grammar options).mapError (fun error => .fault error.fault) ∧
      ((∃ node, run.1 = .ok node) ∧
          run.2.readings source = source.tokens ++ [.ok source.endToken] ∨
        (∃ stop, run.1 = .error stop) ∧ run.2.readings source <+: source.tokens) ∧
      run.2.requests.length ≤ source.tokenCount + 2 ∧
      ((run.2.readings source).filter fun reading => !reading.isLast).Nodup ∧
      run.2.deepest ≤ source.tokenCount := by
  intro run
  have hfinished := parseOnDemand_finished hfits grammar options hlimit
  have hrequests := hfinished.length_requests_le
  have hdeepest := hfinished.deepest_lt
  rw [length_tokens hfits] at hrequests hdeepest
  refine ⟨?_, hfinished.readings, hrequests, hfinished.nodup hfits, Nat.le_of_lt_succ hdeepest⟩
  rw [hfinished.fst_eq]
  cases source.parseNode grammar options <;> rfl

/-- Lists within lists in an argument of a field. -/
theorem parseOnDemand_singlePass_nested :
    let source : Source := ⟨"\x7ba(b:[[1]])\x7d", ""⟩
    let run := source.parseOnDemand .executable {} 13
    source.byteCount < UInt32.size ∧ source.tokens.length ≤ 13 ∧
      run.1 = (source.parseNode .executable {}).mapError (fun error => .fault error.fault) ∧
      run.2.requests.length ≤ source.tokenCount + 2 ∧ run.2.deepest ≤ source.tokenCount ∧
      (source.tokenCount, run.2.requests.length, run.2.deepest) = (12, 14, 2) := by
  intro source run
  have hfits : source.byteCount < UInt32.size := by decide +kernel
  have hlimit : source.tokens.length ≤ 13 := by decide +kernel
  obtain ⟨hresult, -, hrequests, -, hdeepest⟩ :=
    parseOnDemand_singlePass hfits .executable {} hlimit
  exact ⟨hfits, hlimit, hresult, hrequests, hdeepest, by decide +kernel⟩

end Source

end GraphQLSyntax
