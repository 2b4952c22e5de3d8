import GraphQLSyntax.Proofs.OnDemand.Tracking

/-!
# Parsers that get on

Where a parser goes around, tokens have been consumed on the way: the rounds of a repetition consume
one each, and a production within itself comes after one.  So no check stops the parser, no limit is
used up which is not below the number of tokens that are left to read, and the depth is below the
number of tokens that have been asked for.
-/

namespace GraphQLSyntax.OnDemand

variable {source : Source} {α β : Type} {b k limit limit' : Nat}

/-- A production began when so many tokens were left to read. -/
structure Frame.BeganAt (frame : Frame) (source : Source) (b : Nat) : Prop where
  depth_lt : frame.depth < frame.requested
  requested_add : frame.requested + b = source.tokens.length

theorem checkProgress_eq {frame : Frame} {r : State}
    (h : frame.requested < r.account.requests.length) : checkProgress frame r = .ok ⟨⟩ r := by
  show (if r.account.requests.length ≤ frame.requested then throw .idle else Pure.pure ⟨⟩ :
    OnDemand PUnit) r = .ok ⟨⟩ r
  rw [if_neg (Nat.not_le_of_lt h)]
  rfl

theorem setDepth_eq (depth : Nat) (r : State) :
    setDepth depth r = .ok ⟨⟩ { r with
      account := { r.account with depth, deepest := max r.account.deepest depth } } :=
  rfl

/-- A depth that is below the number of requests may be set. -/
theorem Matches.withDepth {s : ParserState} {r : State} (h : Matches source s r) (depth : Nat)
    (hdepth : depth < r.account.requests.length) :
    Matches source s
      { r with
        account := { r.account with depth, deepest := max r.account.deepest depth } } :=
  ⟨h.sources_eq, h.options_eq, h.ahead_eq, h.lastStop_eq, h.serial_eq, h.readings_eq, h.readsOn,
    hdepth, Nat.max_lt.2 ⟨h.deepest_lt, hdepth⟩⟩

namespace Tracks

variable {p p' : Parser β} {q q' : OnDemand β} {kind : TokenKind}

/-! ## Tests -/

theorem ite_of_test {test : Parser Bool} {test' : OnDemand Bool}
    (htest : Tracks source b 0 test test') (hp : Tracks source b k p q)
    (hp' : Tracks source b k p' q') :
    Tracks source b k (do if ← test then p else p') (do if ← test' then q else q') :=
  .andThen htest fun _ => .ite hp hp'

/-- A token that is ahead is skipped, and then there is one less to read. -/
theorem ite_skip (hkind : kind ≠ .eof) {j : Nat} (hp : Tracks source (b - 1) j p q)
    (hp' : Tracks source b k p' q') (hk : k ≤ j + 1) :
    Tracks source b k (do if ← Parser.skip kind then p else p')
      (do if ← Parser.skip kind then q else q') := by
  rw [Parser.ite_skip_eq, Parser.ite_skip_eq]
  exact .ite_sees_advance hkind (fun _ => hp) hp' hk

/-- A parser that goes on by the token ahead. -/
theorem bind_peek {f : Token → Parser β} {g : Token → OnDemand β}
    (h : ∀ s r, Matches source s r → s.upcoming.length < b →
      Outcome source k s (f s.ahead s) (g s.ahead r)) :
    Tracks source b k (ParserCore.peek >>= f) (ParserCore.peek >>= g) := by
  intro s r hmatches hlt
  have hpeek : (OnDemand.peek >>= g) r = g s.ahead r := by
    rw [← hmatches.ahead_eq]
    rfl
  show Outcome source k s (f s.ahead s) ((OnDemand.peek >>= g) r)
  rw [hpeek]
  exact h s r hmatches hlt

/-! ## On the way around -/

/-- With a bound of zero there is nothing to show. -/
theorem zero : Tracks source 0 k p q :=
  fun _ _ _ hlt => absurd hlt (Nat.not_lt_zero _)

/-- A limit that is not below the number of tokens to read is not used up, if a token is consumed
from one limit to the next. -/
theorem limited {p : Nat → Parser β} {q : Nat → OnDemand β} (hb : b ≤ limit) (hb' : b ≤ limit')
    (hstep : ∀ c < b, ∀ limit limit', c ≤ limit → c ≤ limit' →
      Tracks source c k (p limit) (q limit') →
      Tracks source (c + 1) k (p (limit + 1)) (q (limit' + 1))) :
    Tracks source b k (p limit) (q limit') := by
  -- by induction on the bound, not on one of the limits, which go down together with it
  induction b generalizing limit limit' with
  | zero => exact .zero
  | succ c ih =>
    obtain ⟨limit, rfl⟩ := Nat.exists_eq_add_of_lt hb
    obtain ⟨limit', rfl⟩ := Nat.exists_eq_add_of_lt hb'
    refine hstep c (Nat.lt_succ_self c) _ _ (Nat.le_add_right c _) (Nat.le_add_right c _) ?_
    exact ih (Nat.le_add_right c _) (Nat.le_add_right c _)
      fun d hd => hstep d (Nat.lt_succ_of_lt hd)

theorem round (h : Tracks source b 1 p q) :
    Tracks source b 1 (ParserCore.round p) (ParserCore.round q) := by
  intro s r hmatches hlt
  have houtcome := h s r hmatches hlt
  have hround : OnDemand.round q r =
      (q >>= fun x => checkProgress ⟨r.account.requests.length, r.account.depth⟩ >>= fun _ =>
        Pure.pure x) r := rfl
  show Outcome source 1 s (p s) (OnDemand.round q r)
  rw [hround]
  simp only [Bind.bind, EStateM.bind]
  generalize p s = result at houtcome
  generalize q r = result' at houtcome
  cases houtcome with
  | fault s' hwithin => exact .fault s' hwithin
  | ok hmatches' hconsumed =>
    have hlength := hmatches.length_eq
    have hlength' := hmatches'.length_eq
    dsimp only
    rw [checkProgress_eq (by dsimp only; omega)]
    exact .ok hmatches' hconsumed

/-- A production begins. -/
theorem bind_enter {f : ParserCore.Frame Parser → Parser β} {g : Frame → OnDemand β}
    (h : ∀ frame c, c < b → frame.BeganAt source c → Tracks source (c + 1) k (f ()) (g frame)) :
    Tracks source b k (ParserCore.enter >>= f) (ParserCore.enter >>= g) :=
  fun s r hmatches hlt =>
    h ⟨r.account.requests.length, r.account.depth⟩ s.upcoming.length hlt
      ⟨hmatches.depth_lt, hmatches.length_eq⟩ s r hmatches (Nat.lt_succ_self _)

/-- Within itself a production has fewer tokens to read than it had when it began. -/
theorem nested {frame : Frame} (hframe : frame.BeganAt source b) (h : Tracks source b k p q) :
    Tracks source b k p (ParserCore.nested frame q) := by
  intro s r hmatches hlt
  obtain ⟨hdepth, hrequested⟩ := hframe
  have hlength := hmatches.length_eq
  -- a token has been asked for since the production began, so one level more is still below
  have hentered := hmatches.withDepth (frame.depth + 1) (by omega)
  have houtcome := h s _ hentered hlt
  have hnested : OnDemand.nested frame q r = (checkProgress frame >>= fun _ =>
      setDepth (frame.depth + 1) >>= fun _ => q >>= fun x =>
        setDepth frame.depth >>= fun _ => Pure.pure x) r := rfl
  show Outcome source k s (p s) (OnDemand.nested frame q r)
  rw [hnested]
  simp only [Bind.bind, EStateM.bind]
  rw [checkProgress_eq (by omega)]
  simp only [setDepth_eq]
  generalize p s = result at houtcome
  generalize q _ = result' at houtcome
  cases houtcome with
  | fault s' hwithin => exact .fault s' hwithin
  | ok hmatches' hconsumed =>
    have hlength' := hmatches'.length_eq
    exact .ok (hmatches'.withDepth frame.depth (by omega)) hconsumed

/-! ## Repetitions -/

variable {opening close : TokenKind}

theorem untilClose (hclose : close ≠ .eof) (hitem : Tracks source b 1 p q) (hb : b ≤ limit)
    (hb' : b ≤ limit') :
    Tracks source b 1 (Parser.untilClose p close limit) (Parser.untilClose q close limit') := by
  refine limited (p := Parser.untilClose p close) (q := Parser.untilClose q close) hb hb'
    fun c hc limit limit' _ _ ih => ?_
  refine .ite_skip hclose (.pure []) (.thenFewer ?_ fun x => ?_) (Nat.le_refl 1)
  · exact (hitem.mono hc (Nat.le_refl 1)).round
  · exact .andThen ih.forget fun xs => .pure (x :: xs)

theorem any (hopening : opening ≠ .eof) (hclose : close ≠ .eof)
    (hitem : Tracks source (b - 1) 1 p q) (hb : b - 1 ≤ limit) (hb' : b - 1 ≤ limit') :
    Tracks source b 1 (Parser.any opening p close limit) (Parser.any opening q close limit') :=
  .thenFewer (.expect hopening) fun _ => (untilClose hclose hitem hb hb').forget

theorem many (hopening : opening ≠ .eof) (hclose : close ≠ .eof)
    (hitem : Tracks source (b - 1) 1 p q) (hb : b - 1 ≤ limit) (hb' : b - 1 ≤ limit') :
    Tracks source b 1 (Parser.many opening p close limit) (Parser.many opening q close limit') :=
  .thenFewer (.expect hopening) fun _ => .andThen hitem fun x =>
    .andThen (untilClose hclose hitem hb hb') fun xs => .pure (x :: xs)

theorem parenthesized (hitem : Tracks source b 1 p q) (hb : b ≤ limit) (hb' : b ≤ limit') :
    Tracks source b 0 (Parser.parenthesized p limit) (Parser.parenthesized q limit') := by
  refine .ite_of_test (.sees .parenOpen) ?_ (.pure [])
  refine .forget (many ?_ ?_ hitem.fewer ?_ ?_)
  · decide
  · decide
  · exact Nat.le_trans (Nat.sub_le b 1) hb
  · exact Nat.le_trans (Nat.sub_le b 1) hb'

theorem whileSees (hitem : Tracks source b 1 p q) (hb : b ≤ limit) (hb' : b ≤ limit') :
    Tracks source b 0 (Parser.whileSees kind p limit) (Parser.whileSees kind q limit') := by
  refine limited (p := Parser.whileSees kind p) (q := Parser.whileSees kind q) hb hb'
    fun c hc limit limit' _ _ ih => ?_
  refine .ite_of_test (.sees kind) (.forget (.thenFewer ?_ fun x => ?_)) (.pure [])
  · exact (hitem.mono hc (Nat.le_refl 1)).round
  · exact .andThen ih fun xs => .pure (x :: xs)

end Tracks

end GraphQLSyntax.OnDemand
