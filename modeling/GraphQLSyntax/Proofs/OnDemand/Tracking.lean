import Mathlib.Logic.Basic
import GraphQLSyntax.Proofs.OnDemand.Basic
import GraphQLSyntax.Proofs.OnDemand.Reading
import GraphQLSyntax.Proofs.Recognition.Basic

/-!
# Parsers that go along with each other

A parser that has everything to read at hand, and one that reads tokens when they are needed, come
to the same.  While they go along with each other, what the second one has asked for, together with
what the first one still has to read, is what reading the source yields; so to ask for a token is to
have one less to read.

The rules below carry this through a parser, one for each way in which parsers are made of others,
and count the tokens that are consumed at least.  A bound on what is left to read says that limits
are not used up; the limits of the two parsers need not be the same.  That rounds and productions
within themselves make progress is what the counts are for, and no rule leads to a stop that is not
a fault.
-/

namespace GraphQLSyntax

namespace OnDemand

variable {source : Source} {α β : Type} {b j k : Nat}

/-- What was read where tokens were asked for, in this order. -/
def Account.readings (account : Account) (source : Source) : List Reading :=
  account.requests.reverse.map source.readToken

/-- The parsers are at the same place: what has been asked for and what is left to read are the
readings of the source.  The second one has never been deeper in productions within themselves than
it has consumed tokens. -/
structure Matches (source : Source) (s : ParserState) (r : State) : Prop where
  sources_eq : s.source = source ∧ r.source = source
  options_eq : r.options = s.options
  ahead_eq : r.ahead = s.ahead
  lastStop_eq : r.lastStop = s.lastStop
  serial_eq : r.serial = s.serial
  readings_eq : r.account.readings source ++ s.upcoming = source.tokens
  readsOn : source.ReadsOn s.ahead s.upcoming
  depth_lt : r.account.depth < r.account.requests.length
  deepest_lt : r.account.deepest < r.account.requests.length

/-- Nothing has been asked for but some of what reading the source yields, from the first reading
on. -/
structure Account.Within (account : Account) (source : Source) : Prop where
  isPrefix : account.readings source <+: source.tokens
  deepest_lt : account.deepest < account.requests.length

theorem Account.length_readings (account : Account) (source : Source) :
    (account.readings source).length = account.requests.length := by
  simp [readings]

theorem Account.readings_request (account : Account) (offset : UInt32) :
    (account.request offset).readings source =
      account.readings source ++ [source.readToken offset] := by
  simp [readings, request]

theorem Matches.within {s : ParserState} {r : State} (h : Matches source s r) :
    r.account.Within source :=
  ⟨⟨s.upcoming, h.readings_eq⟩, h.deepest_lt⟩

/-- Every token has been asked for or is left to read. -/
theorem Matches.length_eq {s : ParserState} {r : State} (h : Matches source s r) :
    r.account.requests.length + s.upcoming.length = source.tokens.length := by
  rw [← h.readings_eq, List.length_append, Account.length_readings]

/-- Nothing is left to read if the end is ahead. -/
theorem Matches.eq_of_eof {s : ParserState} {r : State} (h : Matches source s r)
    (hkind : s.ahead.kind = .eof) : s.ahead = source.endToken ∧ s.upcoming = [] := by
  have hreadsOn := h.readsOn
  generalize s.upcoming = upcoming at hreadsOn
  cases hreadsOn with
  | last hend => exact ⟨hend, rfl⟩
  | fault hother => exact absurd hkind hother
  | next hother => exact absurd hkind hother

/-- Both parsers return the same, and at least so many tokens have been consumed; or both stop for
the same fault. -/
inductive Outcome (source : Source) (k : Nat) (s : ParserState) :
    EStateM.Result Fault ParserState β → EStateM.Result Stop State β → Prop
  | ok {x : β} {s' : ParserState} {r' : State} (hmatches : Matches source s' r')
      (hconsumed : s'.upcoming.length + k ≤ s.upcoming.length) :
      Outcome source k s (.ok x s') (.ok x r')
  | fault {fault : Fault} {r' : State} (s' : ParserState)
      (hwithin : r'.account.Within source) :
      Outcome source k s (.error fault s') (.error (.fault fault) r')

/-- With fewer tokens left to read than the bound, the second parser comes to what the first one
comes to, and returns only if it has consumed so many tokens. -/
def Tracks (source : Source) (b k : Nat) (p : Parser β) (q : OnDemand β) : Prop :=
  ∀ s r, Matches source s r → s.upcoming.length < b → Outcome source k s (p s) (q r)

/-! ## One parser after the other -/

theorem Outcome.mono {s : ParserState} {result : EStateM.Result Fault ParserState β}
    {result' : EStateM.Result Stop State β} (h : Outcome source k s result result')
    (hk : j ≤ k) : Outcome source j s result result' := by
  cases h with
  | ok hmatches hconsumed => exact .ok hmatches (by omega)
  | fault s' hwithin => exact .fault s' hwithin

theorem Outcome.bind {s : ParserState} {r : State} {p : Parser α} {q : OnDemand α}
    {f : α → Parser β} {g : α → OnDemand β} (h : Outcome source j s (p s) (q r))
    (hf : ∀ x, Tracks source b k (f x) (g x)) (hb : s.upcoming.length < b + j) :
    Outcome source (j + k) s ((p >>= f) s) ((q >>= g) r) := by
  simp only [Bind.bind, EStateM.bind]
  generalize p s = result at h
  generalize q r = result' at h
  cases h with
  | fault s' hwithin => exact .fault s' hwithin
  | @ok x s' r' hmatches hconsumed =>
    have hnext := hf x s' r' hmatches (by omega)
    dsimp only
    generalize f x s' = next at hnext
    generalize g x r' = next' at hnext
    cases hnext with
    | fault s'' hwithin => exact .fault s'' hwithin
    | ok hmatches hconsumed' => exact .ok hmatches (by omega)

namespace Tracks

variable {p p' : Parser β} {q q' : OnDemand β}

theorem mono {b' k' : Nat} (h : Tracks source b k p q) (hb : b' ≤ b) (hk : k' ≤ k) :
    Tracks source b' k' p q :=
  fun s r hmatches hlt => (h s r hmatches (Nat.lt_of_lt_of_le hlt hb)).mono hk

theorem pure (x : β) : Tracks source b 0 (pure x) (pure x) :=
  fun _ _ hmatches _ => .ok hmatches (Nat.le_refl _)

/-- What comes after consumed tokens has fewer tokens to read. -/
theorem bind {p : Parser α} {q : OnDemand α} {f : α → Parser β} {g : α → OnDemand β}
    (h : Tracks source b j p q) (hf : ∀ x, Tracks source (b - j) k (f x) (g x)) :
    Tracks source b (j + k) (p >>= f) (q >>= g) :=
  fun s r hmatches hlt => (h s r hmatches hlt).bind hf (by omega)

theorem forget (h : Tracks source b k p q) : Tracks source b 0 p q :=
  h.mono (Nat.le_refl b) (Nat.zero_le k)

theorem fewer (h : Tracks source b k p q) : Tracks source (b - 1) k p q :=
  h.mono (Nat.sub_le b 1) (Nat.le_refl k)

/-- If a token is consumed at first, it does not matter for that what comes then, and there it is
one token less to read. -/
theorem thenFewer {p : Parser α} {q : OnDemand α} {f : α → Parser β} {g : α → OnDemand β}
    (h : Tracks source b 1 p q) (hf : ∀ x, Tracks source (b - 1) 0 (f x) (g x)) :
    Tracks source b 1 (p >>= f) (q >>= g) :=
  h.bind hf

theorem first {p : Parser α} {q : OnDemand α} {f : α → Parser β} {g : α → OnDemand β}
    (h : Tracks source b 1 p q) (hf : ∀ x, Tracks source b 0 (f x) (g x)) :
    Tracks source b 1 (p >>= f) (q >>= g) :=
  h.thenFewer fun x => (hf x).fewer

/-- It is enough that a token is consumed later. -/
theorem andThen {p : Parser α} {q : OnDemand α} {f : α → Parser β} {g : α → OnDemand β}
    (h : Tracks source b j p q) (hf : ∀ x, Tracks source b k (f x) (g x)) :
    Tracks source b k (p >>= f) (q >>= g) := by
  have hbind := (h.mono (Nat.le_refl b) (Nat.zero_le j)).bind hf
  rwa [Nat.zero_add] at hbind

theorem ite {test : Prop} [Decidable test] (hp : Tracks source b k p q)
    (hp' : Tracks source b k p' q') :
    Tracks source b k (if test then p else p') (if test then q else q') := by
  split
  case isTrue => exact hp
  case isFalse => exact hp'

/-! ## Looking ahead and marking -/

theorem peek : Tracks source b 0 ParserCore.peek ParserCore.peek := by
  intro s r hmatches _
  have hpeek : OnDemand.peek r = .ok s.ahead r := by
    rw [← hmatches.ahead_eq]
    rfl
  show Outcome source 0 s (.ok s.ahead s) (OnDemand.peek r)
  rw [hpeek]
  exact .ok hmatches (Nat.le_refl _)

theorem here : Tracks source b 0 Parser.here Parser.here :=
  .andThen peek fun _ => .pure _

theorem sees (kind : TokenKind) : Tracks source b 0 (Parser.sees kind) (Parser.sees kind) :=
  .andThen peek fun _ => .pure _

theorem seesKeyword (word : String) :
    Tracks source b 0 (Parser.seesKeyword word) (Parser.seesKeyword word) :=
  .andThen peek fun _ => .pure _

theorem mark (start : UInt32) :
    Tracks source b 0 (ParserCore.mark start) (ParserCore.mark start) := by
  intro s r hmatches _
  obtain ⟨hsource, hsource'⟩ := hmatches.sources_eq
  have hmark : OnDemand.mark start r =
      .ok ⟨s.serial, s.options.locate s.source start s.lastStop⟩
        { r with serial := s.serial + 1 } := by
    rw [← hmatches.serial_eq, ← hmatches.lastStop_eq, ← hmatches.options_eq, hsource, ← hsource']
    rfl
  show Outcome source 0 s (Parser.mark start s) (OnDemand.mark start r)
  rw [hmark]
  exact .ok ⟨hmatches.sources_eq, hmatches.options_eq, hmatches.ahead_eq, hmatches.lastStop_eq,
    rfl, hmatches.readings_eq, hmatches.readsOn, hmatches.depth_lt, hmatches.deepest_lt⟩
    (Nat.le_refl _)

/-- A production ends with marking what it has read. -/
theorem mark_pure {f : Tag → β} (start : UInt32) :
    Tracks source b 0 (do return f (← ParserCore.mark start))
      (do return f (← ParserCore.mark start)) :=
  .andThen (mark start) fun _ => .pure _

/-- A parser that fails has consumed as many tokens as one likes. -/
theorem fail (cause : Lexeme → Cause) :
    Tracks source b k (ParserCore.fail cause : Parser β) (ParserCore.fail cause) := by
  intro s r hmatches _
  have hfail : (OnDemand.fail cause : OnDemand β) r =
      .error (.fault ⟨s.ahead.start, cause s.ahead.lexeme⟩) r := by
    rw [← hmatches.ahead_eq]
    rfl
  show Outcome source k s (Parser.fail cause s) (OnDemand.fail cause r)
  rw [hfail]
  exact .fault s hmatches.within

theorem unexpected : Tracks source b k (Parser.unexpected : Parser β) Parser.unexpected :=
  fail .unexpected

end Tracks

/-! ## Consuming a token -/

/-- A token that is not the end is consumed, and then the next one is ahead, or the fault that
stands in its place stops both parsers. -/
theorem Matches.advance {s : ParserState} {r : State} (h : Matches source s r)
    (hkind : s.ahead.kind ≠ .eof) : Outcome source 1 s (Parser.advance s) (advance r) := by
  have hadvance : OnDemand.advance r = consume r := by
    have htest : (r.ahead.kind == .eof) = false := by
      rw [h.ahead_eq]
      exact beq_eq_false_iff_ne.2 hkind
    show (if (r.ahead.kind == .eof) = true then throw .pastEnd else consume : OnDemand Token) r = _
    rw [htest]
    rfl
  have hreadsOn := h.readsOn
  have hreadings := h.readings_eq
  have hdepth := h.depth_lt
  have hdeepest := h.deepest_lt
  generalize hupcoming : s.upcoming = upcoming at hreadsOn hreadings
  rw [hadvance, consume, h.sources_eq.2, h.ahead_eq]
  cases hreadsOn with
  | last hend => exact absurd (congrArg Token.kind hend) hkind
  | fault _ hnext =>
    rw [Parser.advance_eq_error hupcoming, hnext]
    refine .fault s ⟨⟨[], ?_⟩, ?_⟩
    · rw [List.append_nil, Account.readings_request, hnext]
      exact hreadings
    · exact Nat.lt_succ_of_lt hdeepest
  | next _ hnext hrest =>
    rw [Parser.advance_eq_ok hupcoming, hnext]
    refine .ok ⟨⟨h.sources_eq.1, rfl⟩, h.options_eq, rfl, rfl, h.serial_eq, ?_, hrest, ?_, ?_⟩ ?_
    · rw [Account.readings_request, hnext, List.append_assoc]
      exact hreadings
    · exact Nat.lt_succ_of_lt hdepth
    · exact Nat.lt_succ_of_lt hdeepest
    · rw [hupcoming]
      exact Nat.le_refl _

namespace Tracks

variable {p p' : Parser β} {q q' : OnDemand β} {kind : TokenKind}

/-- Whether a token is consumed depends on what is ahead, and the end is not consumed. -/
theorem ite_advance (test : Token → Bool) (htest : ∀ token, test token = true → token.kind ≠ .eof)
    {f : Token → Parser β} {g : Token → OnDemand β}
    (hf : ∀ token, Tracks source (b - 1) j (f token) (g token))
    (hp : Tracks source b k p q) (hk : k ≤ j + 1) {s : ParserState} {r : State}
    (hmatches : Matches source s r) (hlt : s.upcoming.length < b) :
    Outcome source k s ((if test s.ahead = true then Parser.advance >>= f else p) s)
      ((if test r.ahead = true then OnDemand.advance >>= g else q) r) := by
  rw [hmatches.ahead_eq]
  split
  case isTrue hahead =>
    exact ((hmatches.advance (htest _ hahead)).bind hf (by omega)).mono (by omega)
  case isFalse => exact hp s r hmatches hlt

/-- If a token of a kind is ahead, it may be consumed, unless it is the end. -/
theorem ite_sees_advance (hkind : kind ≠ .eof) {f : Token → Parser β} {g : Token → OnDemand β}
    (hf : ∀ token, Tracks source (b - 1) j (f token) (g token))
    (hp : Tracks source b k p q) (hk : k ≤ j + 1) :
    Tracks source b k (do if ← Parser.sees kind then ParserCore.advance >>= f else p)
      (do if ← Parser.sees kind then ParserCore.advance >>= g else q) := by
  intro s r hmatches hlt
  refine ite_advance (·.kind == kind) ?_ hf hp hk hmatches hlt
  intro token hahead
  exact (beq_iff_eq.1 hahead).trans_ne hkind

/-- A name that is ahead may be consumed. -/
theorem ite_seesKeyword_advance (word : String) {f : Token → Parser β} {g : Token → OnDemand β}
    (hf : ∀ token, Tracks source (b - 1) j (f token) (g token))
    (hp : Tracks source b k p q) (hk : k ≤ j + 1) :
    Tracks source b k (do if ← Parser.seesKeyword word then ParserCore.advance >>= f else p)
      (do if ← Parser.seesKeyword word then ParserCore.advance >>= g else q) := by
  intro s r hmatches hlt
  refine ite_advance (·.lexeme.isKeyword word) ?_ hf hp hk hmatches hlt
  intro token hahead
  have hname : token.kind = .name := beq_iff_eq.1 (Bool.and_eq_true_iff.1 hahead).1
  rw [hname]
  decide

theorem skip (hkind : kind ≠ .eof) :
    Tracks source b 0 (Parser.skip kind) (Parser.skip kind) :=
  .ite_sees_advance hkind (fun _ => .pure true) (.pure false) (Nat.zero_le _)

theorem expect (hkind : kind ≠ .eof) :
    Tracks source b 1 (Parser.expect kind) (Parser.expect kind) :=
  .ite_sees_advance hkind (fun token => .pure token.lexeme) (.fail _) (Nat.le_refl _)

theorem expectKeyword (word : String) :
    Tracks source b 1 (Parser.expectKeyword word) (Parser.expectKeyword word) :=
  .ite_seesKeyword_advance word (fun _ => .pure ()) (.fail _) (Nat.le_refl _)

end Tracks

end OnDemand

end GraphQLSyntax
