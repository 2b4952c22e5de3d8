import GraphQLSyntax.Proofs.Parsing.Run

/-!
# Parsers that refuse variables

Of two parsers one may be a restriction of the other: it goes on in the same way until it meets
a dollar sign where a value begins, and there it stops.  So the two return the same, with the
same left to be read, or both stop with the same fault, or the restricted one stops at the first
dollar sign, and then the other one does not return a constant.

What the parsers return is written with tokens of certain kinds, and of a dollar sign it is said
behind tokens of which kinds it stands.  `Agree` says this of two parsers as a whole, `AgreeFrom`
of two parsers in the middle of a production.  There is one rule for each way in which parsers
are made of others.
-/

namespace GraphQLSyntax

/-! ## Tokens of certain kinds -/

namespace ParserState

variable {s s₁ s₂ : ParserState} {ks ks' : List TokenKind}

/-- No dollar sign is ahead, and nothing will ever come in place of what is ahead. -/
structure IsStuck (s : ParserState) : Prop where
  upcoming_eq : s.upcoming = []
  kind_ne : s.ahead.kind ≠ .dollar

/-- Tokens of these kinds are consumed on the way from one state to the other, which may be as
well that consuming has come to nothing there. -/
def Passes (s : ParserState) (ks : List TokenKind) (s' : ParserState) : Prop :=
  (∃ u : List Token, s.readings = u.map .ok ++ s'.readings ∧ u.map Token.kind = ks) ∨ s'.IsStuck

/-- The token comes right behind tokens of these kinds. -/
def Meets (s : ParserState) (ks : List TokenKind) (token : Token) : Prop :=
  ∃ (u : List Token) (rest : List Reading),
    s.readings = u.map .ok ++ .ok token :: rest ∧ u.map Token.kind = ks

theorem IsStuck.of_readings_eq (h : s.IsStuck) (heq : s₁.readings = s.readings) :
    s₁.IsStuck := by
  obtain ⟨hahead, hupcoming⟩ := List.cons.inj heq
  obtain ⟨hnil, hkind⟩ := h
  exact ⟨hupcoming.trans hnil, Except.ok.inj hahead ▸ hkind⟩

theorem Passes.of_readings_eq (h : s₁.readings = s.readings) : s.Passes [] s₁ :=
  .inl ⟨[], h.symm, rfl⟩

theorem Passes.trans (h : s.Passes ks s₁) (h' : s₁.Passes ks' s₂) : s.Passes (ks ++ ks') s₂ := by
  rcases h' with ⟨v, hv, rfl⟩ | hstuck
  · rcases h with ⟨u, hu, rfl⟩ | hstuck
    · exact .inl ⟨u ++ v, by rw [hu, hv, List.map_append, List.append_assoc], List.map_append⟩
    · -- Nothing was consumed in the second part.
      obtain rfl : v = [] := by
        have hlength := congrArg List.length hv
        simp only [readings, hstuck.upcoming_eq, List.length_append, List.length_map,
          List.length_cons, List.length_nil] at hlength
        exact List.length_eq_zero_iff.1 (by omega)
      exact .inr (hstuck.of_readings_eq hv.symm)
  · exact .inr hstuck

/-- What is met later was there to be read from the start. -/
theorem Passes.trans_meets {token : Token} (h : s.Passes ks s₁) (h' : s₁.Meets ks' token)
    (hkind : token.kind = .dollar) : s.Meets (ks ++ ks') token := by
  obtain ⟨v, rest, hv, rfl⟩ := h'
  rcases h with ⟨u, hu, rfl⟩ | hstuck
  · exact ⟨u ++ v, rest, by rw [hu, hv, List.map_append, List.append_assoc], List.map_append⟩
  · -- Nothing but what is ahead is left, and that is no dollar sign.
    have hmem : Except.ok token ∈ s₁.readings := by simp [hv]
    rw [readings, hstuck.upcoming_eq, List.mem_singleton] at hmem
    exact absurd (Except.ok.inj hmem ▸ hkind) hstuck.kind_ne

end ParserState

namespace Parser

variable {β δ : Type} {starts : TokenKind → Prop} {kind : TokenKind} {ks ks' : List TokenKind}

/-- If a token of one of the kinds in `starts` is ahead and the parser returns, it has consumed
tokens of the given kinds. -/
def Takes (starts : TokenKind → Prop) (ks : List TokenKind) (p : Parser β) : Prop :=
  ∀ s x s', starts s.ahead.kind → p s = .ok x s' → s.Passes ks s'

/-- Nothing is asked of a kind. -/
abbrev anyKind (_ : TokenKind) : Prop :=
  True

namespace Takes

variable {p : Parser β} {f : β → Parser δ}

theorem pure (x : β) : Takes starts [] (pure x) := by
  rintro s _ _ - ⟨⟩
  exact .of_readings_eq rfl

theorem bind (hp : Takes starts ks p) (hf : ∀ x, Takes anyKind ks' (f x)) :
    Takes starts (ks ++ ks') (p >>= f) := by
  intro s y s₂ hstart hrun
  obtain ⟨x, s₁, hx, hy⟩ := bind_eq_ok hrun
  exact (hp s x s₁ hstart hx).trans (hf x s₁ y s₂ trivial hy)

/-- The token ahead may be looked at first. -/
theorem here_bind {f : UInt32 → Parser β} (h : ∀ start, Takes starts ks (f start)) :
    Takes starts ks (here >>= f) :=
  fun s => h s.ahead.start s

theorem mark (start : UInt32) : Takes starts [] (mark start) := by
  rintro s _ _ - ⟨⟩
  exact .of_readings_eq rfl

theorem mark_pure (g : Tag → β) (start : UInt32) :
    Takes starts [] (do return g (← Parser.mark start)) :=
  .bind (mark start) fun m => .pure (g m)

/-- What is ahead is consumed, or stays ahead for ever. -/
theorem advance (hkind : kind ≠ .dollar) : Takes (· = kind) [kind] advance := by
  rintro s token s' rfl hrun
  cases hupcoming : s.upcoming with
  | nil =>
    rw [advance_eq_last hupcoming] at hrun
    cases hrun
    exact .inr ⟨hupcoming, hkind⟩
  | cons reading rest =>
    cases reading with
    | ok next =>
      rw [advance_eq_ok hupcoming] at hrun
      cases hrun
      exact .inl ⟨[s.ahead], by simp [ParserState.readings, hupcoming], rfl⟩
    | error fault =>
      rw [advance_eq_error hupcoming] at hrun
      cases hrun

theorem expect (hkind : kind ≠ .dollar) : Takes starts [kind] (expect kind) := by
  intro s x s' _ hrun
  change (if s.ahead.kind == kind then (do return (← Parser.advance).lexeme)
    else fail (.expectedKind kind) : Parser Lexeme) s = .ok x s' at hrun
  split at hrun
  · rename_i hahead
    obtain ⟨token, s₁, htoken, hrun⟩ := bind_eq_ok hrun
    cases hrun
    exact advance hkind s token s' (beq_iff_eq.1 hahead) htoken
  · cases hrun

end Takes

/-! ## A parser and its restriction -/

/-- What is known of the results of a parser. -/
structure Layout (β : Type) where
  /-- Nothing in the result is a variable. -/
  isConst : β → Prop
  /-- The kinds of the tokens that the result is written with. -/
  kinds : β → List TokenKind
  /-- Behind tokens of these kinds, in the middle of a result, a value begins. -/
  valueBegins : List TokenKind → Prop

namespace Layout

/-- Results that come behind tokens of the given kinds. -/
def behind (done : List TokenKind) (L : Layout β) : Layout β where
  isConst := L.isConst
  kinds x := done ++ L.kinds x
  valueBegins ks := ∃ ks', ks = done ++ ks' ∧ L.valueBegins ks'

end Layout

/-- The outcome of a restricted parser that was started in the given state, and that of the
unrestricted one. -/
inductive Restricts (L : Layout β) (s₀ : ParserState) :
    EStateM.Result Fault ParserState β → EStateM.Result Fault ParserState β → Prop
  | ok {x : β} {s : ParserState} (hconst : L.isConst x) (hplain : .dollar ∉ L.kinds x)
      (hpasses : s₀.Passes (L.kinds x) s) : Restricts L s₀ (.ok x s) (.ok x s)
  | fault (fault : Fault) (s : ParserState) : Restricts L s₀ (.error fault s) (.error fault s)
  | variable {token : Token} {ks : List TokenKind} {s : ParserState}
      {out : EStateM.Result Fault ParserState β} (hmeets : s₀.Meets ks token)
      (hkind : token.kind = .dollar) (hplain : .dollar ∉ ks) (hbegins : L.valueBegins ks)
      (hout : ∀ x s', out = .ok x s' → ¬ L.isConst x) :
      Restricts L s₀ (.error ⟨token.start, .unexpected token.lexeme⟩ s) out

/-- If a token of one of the kinds in `starts` is ahead, the first parser is a restriction of the
second one. -/
def Agree (starts : TokenKind → Prop) (L : Layout β) (p q : Parser β) : Prop :=
  ∀ s, starts s.ahead.kind → Restricts L s (p s) (q s)

/-- If tokens of the kinds `done`, none of them a dollar sign, were consumed since the start, the
first parser is a restriction of the second one from there on. -/
def AgreeFrom (starts : TokenKind → Prop) (done : List TokenKind) (L : Layout β)
    (p q : Parser β) : Prop :=
  .dollar ∉ done → ∀ s₀ s, s₀.Passes done s → starts s.ahead.kind → Restricts L s₀ (p s) (q s)

variable {done : List TokenKind} {L : Layout β} {M : Layout δ} {p p' q q' : Parser β}

theorem Agree.of_agreeFrom (h : AgreeFrom starts [] L p q) : Agree starts L p q :=
  fun s hstart => h List.not_mem_nil s s (.of_readings_eq rfl) hstart

theorem Agree.here_bind {f g : UInt32 → Parser β}
    (h : ∀ start, Agree starts L (f start) (g start)) :
    Agree starts L (here >>= f) (here >>= g) :=
  fun s hstart => h s.ahead.start s hstart

theorem Agree.peek_bind {f g : Token → Parser β}
    (h : ∀ token, Agree (· = token.kind) L (f token) (g token)) :
    Agree starts L (peek >>= f) (peek >>= g) :=
  fun s _ => h s.ahead s rfl

namespace AgreeFrom

/-! ### The same on both sides -/

theorem pure {x : β} (hconst : L.isConst x) (hkinds : L.kinds x = done) :
    AgreeFrom starts done L (pure x) (pure x) := by
  rintro hplain s₀ s hpasses -
  exact .ok hconst (hkinds ▸ hplain) (hkinds ▸ hpasses)

theorem fail (cause : Lexeme → Cause) : AgreeFrom starts done L (fail cause) (fail cause) :=
  fun _ _ _ _ _ => .fault _ _

theorem unexpected : AgreeFrom starts done L unexpected unexpected :=
  fail .unexpected

/-- Both parsers look at the token ahead. -/
theorem peek_bind {f g : Token → Parser β}
    (h : ∀ token, starts token.kind → AgreeFrom (· = token.kind) done L (f token) (g token)) :
    AgreeFrom starts done L (peek >>= f) (peek >>= g) :=
  fun hplain s₀ s hpasses hstart => h s.ahead hstart hplain s₀ s hpasses rfl

/-- Both parsers remember where they start. -/
theorem here_bind {f g : UInt32 → Parser β}
    (h : ∀ start, AgreeFrom starts done L (f start) (g start)) :
    AgreeFrom starts done L (here >>= f) (here >>= g) :=
  fun hplain s₀ s hpasses hstart => h s.ahead.start hplain s₀ s hpasses hstart

theorem ite {test : Bool} (hp : AgreeFrom starts done L p q) (hq : AgreeFrom starts done L p' q') :
    AgreeFrom starts done L (if test then p else p') (if test then q else q') := by
  cases test with
  | true => exact hp
  | false => exact hq

/-- Both parsers begin with the same part, in which no dollar sign is consumed. -/
theorem takes_bind {r : Parser δ} {f g : δ → Parser β} (hr : Takes starts ks r)
    (hks : .dollar ∉ ks) (hf : ∀ x, AgreeFrom anyKind (done ++ ks) L (f x) (g x)) :
    AgreeFrom starts done L (r >>= f) (r >>= g) := by
  intro hplain s₀ s hpasses hstart
  simp only [Bind.bind, EStateM.bind]
  cases hrun : r s with
  | error fault s' => exact .fault fault s'
  | ok x s' =>
    have hplain' : .dollar ∉ done ++ ks := by
      rw [List.mem_append, not_or]
      exact ⟨hplain, hks⟩
    exact hf x hplain' s₀ s' (hpasses.trans (hr s x s' hstart hrun)) trivial

theorem expect_bind {f g : Lexeme → Parser β} (hkind : kind ≠ .dollar)
    (hf : ∀ x, AgreeFrom anyKind (done ++ [kind]) L (f x) (g x)) :
    AgreeFrom starts done L (expect kind >>= f) (expect kind >>= g) :=
  .takes_bind (.expect hkind) (by simpa using hkind.symm) hf

/-- Both parsers end with marking what they have read. -/
theorem mark_pure {g : Tag → β} (start : UInt32) (hconst : ∀ m, L.isConst (g m))
    (hkinds : ∀ m, L.kinds (g m) = done) :
    AgreeFrom starts done L (do return g (← mark start)) (do return g (← mark start)) :=
  .takes_bind (.mark start) List.not_mem_nil fun m =>
    .pure (hconst m) (by rw [hkinds m, List.append_nil])

/-- Both parsers go on according to whether a token of a certain kind is ahead. -/
theorem ite_sees (hp : AgreeFrom (· = kind) done L p q) (hq : AgreeFrom starts done L p' q') :
    AgreeFrom starts done L (do if ← sees kind then p else p')
      (do if ← sees kind then q else q') := by
  intro hplain s₀ s hpasses hstart
  show Restricts L s₀ ((if s.ahead.kind == kind then p else p') s)
    ((if s.ahead.kind == kind then q else q') s)
  by_cases hahead : s.ahead.kind = kind
  · rw [if_pos (beq_iff_eq.2 hahead), if_pos (beq_iff_eq.2 hahead)]
    exact hp hplain s₀ s hpasses hahead
  · rw [if_neg (mt beq_iff_eq.1 hahead), if_neg (mt beq_iff_eq.1 hahead)]
    exact hq hplain s₀ s hpasses hstart

/-- Both parsers consume a token of a certain kind if it is ahead, and go on accordingly. -/
theorem ite_skip (hkind : kind ≠ .dollar)
    (hp : AgreeFrom anyKind (done ++ [kind]) L p q) (hq : AgreeFrom starts done L p' q') :
    AgreeFrom starts done L (do if ← skip kind then p else p')
      (do if ← skip kind then q else q') := by
  rw [ite_skip_eq, ite_skip_eq]
  exact .ite_sees (.takes_bind (.advance hkind) (by simpa using hkind.symm) fun _ => hp) hq

/-! ### A part in which they may differ -/

/-- What is known of a part is known of it in the middle of a production. -/
theorem of_agree (h : Agree starts L p q) : AgreeFrom starts done (L.behind done) p q := by
  intro hplain s₀ s hpasses hstart
  have hout := h s hstart
  generalize p s = out at hout
  generalize q s = out' at hout
  cases hout with
  | ok hconst hplain' hpasses' =>
    refine .ok hconst ?_ (hpasses.trans hpasses')
    simpa [Layout.behind, hplain] using hplain'
  | fault fault s' => exact .fault fault s'
  | @«variable» token ks s' out hmeets hkind hplain' hbegins hout =>
    refine .variable (hpasses.trans_meets hmeets hkind) hkind ?_ ⟨ks, rfl, hbegins⟩ hout
    simpa [hplain] using hplain'

/-- A production goes on after one of its parts.  A variable in the part is one in what is
returned. -/
theorem part_bind {f g : β → Parser δ} (hp : Agree starts L p q)
    (hbegins : ∀ ks, L.valueBegins ks → M.valueBegins (done ++ ks))
    (hconst : ∀ x s y s', g x s = .ok y s' → M.isConst y → L.isConst x)
    (hf : ∀ x, L.isConst x → AgreeFrom anyKind (done ++ L.kinds x) M (f x) (g x)) :
    AgreeFrom starts done M (p >>= f) (q >>= g) := by
  intro hplain s₀ s hpasses hstart
  have hpart : AgreeFrom starts done (L.behind done) p q := of_agree hp
  have hout := hpart hplain s₀ s hpasses hstart
  simp only [Bind.bind, EStateM.bind]
  generalize p s = out at hout
  generalize q s = out' at hout
  cases hout with
  | ok hconst hplain' hpasses' => exact hf _ hconst hplain' s₀ _ hpasses' trivial
  | fault fault s' => exact .fault fault s'
  | «variable» hmeets hkind hplain' hbegins' hout =>
    obtain ⟨ks, rfl, hks⟩ := hbegins'
    refine .variable hmeets hkind hplain' (hbegins ks hks) ?_
    intro y s₂ hy hyconst
    cases hq : out' with
    | error fault s' => simp [hq] at hy
    | ok x s₁ =>
      rw [hq] at hy
      exact hout x s₁ hq (hconst x s₁ y s₂ hy hyconst)

end AgreeFrom

/-! ## Repetitions -/

/-- Lists of results up to a closing token. -/
def Layout.closed (close : TokenKind) (L : Layout β) : Layout (List β) where
  isConst xs := ∀ x ∈ xs, L.isConst x
  kinds xs := xs.flatMap L.kinds ++ [close]
  valueBegins ks := ∃ (xs : List β) (ks' : List TokenKind),
    ks = xs.flatMap L.kinds ++ ks' ∧ L.valueBegins ks'

/-- Items are read one after the other up to a closing token; what is asked of the next ones may
depend on the one that was read last. -/
theorem Agree.item_or_close {close : TokenKind} (hclose : close ≠ .dollar)
    {rest rest' : β → Parser (List β)} (hitem : Agree anyKind L p q)
    (hrest : ∀ x, Agree anyKind (L.closed close) (rest x) (rest' x)) :
    Agree anyKind (L.closed close)
      (do if ← skip close then return [] else
        let x ← p
        let xs ← rest x
        return x :: xs)
      (do if ← skip close then return [] else
        let x ← q
        let xs ← rest' x
        return x :: xs) := by
  refine .of_agreeFrom (.ite_skip hclose (.pure (by simp [Layout.closed]) rfl) ?_)
  refine .part_bind hitem (fun ks hks => ⟨[], ks, rfl, hks⟩) ?_ fun x hx => ?_
  · intro x s ys s' hrun hconst
    obtain ⟨xs, s₁, -, hrun⟩ := bind_eq_ok hrun
    cases hrun
    exact hconst x List.mem_cons_self
  · refine .part_bind (hrest x) ?_ ?_ fun xs hxs => .pure ?_ ?_
    · rintro _ ⟨xs, ks, rfl, hks⟩
      exact ⟨x :: xs, ks, by simp, hks⟩
    · rintro xs s _ s' ⟨⟩ hconst
      exact fun y hy => hconst y (List.mem_cons_of_mem _ hy)
    · exact List.forall_mem_cons.2 ⟨hx, hxs⟩
    · simp [Layout.closed]

theorem Agree.untilClose {close : TokenKind} (hclose : close ≠ .dollar)
    (hitem : Agree anyKind L p q) (limit : Nat) :
    Agree anyKind (L.closed close) (untilClose p close limit) (untilClose q close limit) := by
  induction limit with
  | zero => exact .of_agreeFrom .unexpected
  | succ limit ih => exact hitem.item_or_close hclose fun _ => ih

theorem Agree.any {opening close : TokenKind} (hopening : opening ≠ .dollar)
    (hclose : close ≠ .dollar) (hitem : Agree anyKind L p q) {limit : Nat} :
    Agree starts ((L.closed close).behind [opening]) (any opening p close limit)
      (any opening q close limit) :=
  .of_agreeFrom (.expect_bind hopening fun _ => .of_agree (hitem.untilClose hclose limit))

end Parser

end GraphQLSyntax
