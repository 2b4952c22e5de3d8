import GraphQLSyntax.Proofs.Recognition.Basic

/-!
# Recognition of repetitions

A repetition is bounded by a limit, and each round consumes a token, so a limit no
lower than the number of readings left is never reached.  An item must not begin
with the token that ends the repetition, and what an item can begin with must not
go on with the item before it.
-/

namespace GraphQLSyntax.Parser

variable {β γ : Type}
variable {limit n : Nat} {starts follows inner : Lexeme → Prop}
variable {item : Parser β} {erase : β → γ} {L : Language γ} {close : TokenKind}

theorem Recognizes.untilClose
    (hitem : Recognizes n anything item erase L inner) (hn : n ≤ limit)
    (hL : L.Starts fun x => x.kind ≠ close ∧ inner x) (hinner : inner (.bare close))
    (heof : close ≠ .eof) (hvalue : close.hasValue = false) :
    Recognizes n anything (untilClose item close limit) (List.map erase) (L.closedBy close)
      anything := by
  induction limit generalizing n with
  | zero =>
    obtain rfl : n = 0 := by omega
    exact .of_zero
  | succ limit ih =>
    cases n with
    | zero => exact .of_zero
    | succ n =>
      have hstarts : (L.closedBy close).Starts inner :=
        (hL.mono fun _ h => h.2).closedBy hinner
      have hround : Recognizes (n + 1) (fun x => anything x ∧ x.kind ≠ close)
          (do
            let x ← item
            let xs ← Parser.untilClose item close limit
            return x :: xs)
          (List.map erase) (L.seq fun x => (L.closedBy close).image (x :: ·)) anything := by
        refine .bind (m := n) (hitem.mono (Nat.le_refl _) fun _ _ => trivial)
          (fun x => .bind_pure ?_) ?_ (fun x => ?_)
        · have hrest := ih (hitem.mono (Nat.le_succ n) fun _ => id) (Nat.le_of_succ_le_succ hn)
          exact hrest.image (erase x :: ·)
        · intro w x hw
          have := hL.length_pos hw
          omega
        · exact .of_starts (hstarts.image _) fun _ => id
      refine Recognizes.congr ?_ (Language.closedBy_eq_union close L)
      exact .ite_skip_union heof hvalue (.pure rfl) hround (fun _ _ => ⟨trivial, trivial⟩)
        (.of_starts (.seq hL) fun _ h => h.1)

theorem Recognizes.any {opening : TokenKind}
    (hitem : Recognizes n anything item erase L inner) (hn : n ≤ limit)
    (hL : L.Starts fun x => x.kind ≠ close ∧ inner x) (hinner : inner (.bare close))
    (hopening : opening ≠ .eof ∧ opening.hasValue = false)
    (hclose : close ≠ .eof ∧ close.hasValue = false) :
    Recognizes (n + 1) starts (any opening item close limit) (List.map erase)
      (L.enclosed opening close) anything := by
  have h : Recognizes (n + 1) starts (Parser.any opening item close limit) (List.map erase)
      ((Language.symbol (.bare opening)).seq fun _ => L.closedBy close) anything :=
    .symbol_bind (.expect_bare hopening.1 hopening.2)
      fun _ => .untilClose hitem hn hL hinner hclose.1 hclose.2
  refine h.congr ?_
  funext w xs
  rw [Language.seq_symbol_iff]
  rfl

theorem Recognizes.many {opening : TokenKind}
    [L.Inhabited] (hitem : Recognizes n anything item erase L inner) (hn : n ≤ limit)
    (hL : L.Starts fun x => x.kind ≠ close ∧ inner x) (hinner : inner (.bare close))
    (hopening : opening ≠ .eof ∧ opening.hasValue = false)
    (hclose : close ≠ .eof ∧ close.hasValue = false) :
    Recognizes (n + 1) starts (many opening item close limit) (List.map erase)
      (.nonempty (L.enclosed opening close)) anything := by
  have hrest : Recognizes n anything
      (do
        let x ← item
        let xs ← Parser.untilClose item close limit
        return x :: xs)
      (List.map erase) (L.seq fun x => (L.closedBy close).image (x :: ·)) anything := by
    refine .bind (m := n) hitem (fun x => .bind_pure ?_) (fun _ _ _ => Nat.le_add_right ..)
      (fun x => ?_)
    · exact (untilClose hitem hn hL hinner hclose.1 hclose.2).image (erase x :: ·)
    · exact .of_starts (((hL.mono fun _ h => h.2).closedBy hinner).image _) fun _ => id
  have h : Recognizes (n + 1) starts (Parser.many opening item close limit)
      (List.map erase) ((Language.symbol (.bare opening)).seq fun _ =>
        L.seq fun x => (L.closedBy close).image (x :: ·)) anything :=
    .symbol_bind (.expect_bare hopening.1 hopening.2) fun _ => hrest
  refine h.congr ?_
  funext w xs
  rw [Language.seq_symbol_iff]
  simp only [Language.nonempty, Language.enclosed, Language.seq, eq_iff_iff]
  constructor
  · rintro ⟨⟨v, rfl, hv⟩, hne⟩
    obtain ⟨x, xs, rfl⟩ := List.exists_cons_of_ne_nil hne
    obtain ⟨v₁, v₂, rfl, hv₁, hv₂⟩ := Language.closedBy_cons.1 hv
    exact ⟨_, rfl, v₁, v₂, x, rfl, hv₁, xs, hv₂, rfl⟩
  · rintro ⟨_, rfl, v₁, v₂, x, rfl, hv₁, xs, hv₂, rfl⟩
    exact ⟨⟨_, rfl, Language.closedBy_cons.2 ⟨v₁, v₂, rfl, hv₁, hv₂⟩⟩, by simp⟩

theorem Recognizes.parenthesized
    [L.Inhabited] (hitem : Recognizes n anything item erase L inner) (hn : n ≤ limit)
    (hL : L.Starts fun x => x.kind ≠ .parenClose ∧ inner x)
    (hinner : inner (.bare .parenClose)) :
    Recognizes (n + 1) starts (parenthesized item limit) (List.map erase) L.parenthesized
      (·.kind ≠ .parenOpen) := by
  refine .ite_sees ?_ ?_
  · have hmany : Recognizes (n + 1) (fun x => starts x ∧ x.kind = .parenOpen)
        (Parser.many .parenOpen item .parenClose limit) (List.map erase)
        (.nonempty (L.enclosed .parenOpen .parenClose)) anything :=
      .many hitem hn hL hinner ⟨by decide, rfl⟩ ⟨by decide, rfl⟩
    exact hmany.union_right (fun _ _ => trivial)
      (.ret [] fun _ hne hopen => hne hopen.2)
  · have hnone : Recognizes (n + 1) (fun x => starts x ∧ x.kind ≠ .parenOpen)
        (Pure.pure ([] : List β)) (List.map erase) (.ret []) anything := .pure rfl
    refine hnone.union_left (fun _ _ => trivial) ?_
    refine .of_starts (.nonempty (.enclosed .parenOpen .parenClose L)) ?_
    rintro _ rfl ⟨-, hne⟩
    exact hne rfl

theorem Recognizes.whileSees {kind : TokenKind}
    (hitem : Recognizes n (·.kind = kind) item erase L inner) (hn : n ≤ limit)
    (hL : L.Starts fun x => x.kind = kind ∧ inner x) :
    Recognizes n starts (whileSees kind item limit) (List.map erase) L.star
      fun x => x.kind ≠ kind ∧ inner x := by
  induction limit generalizing n starts with
  | zero =>
    obtain rfl : n = 0 := by omega
    exact .of_zero
  | succ limit ih =>
    cases n with
    | zero => exact .of_zero
    | succ n =>
      have hround : Recognizes (n + 1) (fun x => starts x ∧ x.kind = kind)
          (do
            let x ← item
            let xs ← Parser.whileSees kind item limit
            return x :: xs)
          (List.map erase) (L.seq fun x => L.star.image (x :: ·))
          fun x => x.kind ≠ kind ∧ inner x := by
        refine .bind (m := n) (hitem.mono (Nat.le_refl _) fun _ hx => hx.2)
          (fun x => .bind_pure ?_) ?_ (fun x => ?_)
        · have hrest : Recognizes n anything (Parser.whileSees kind item limit) _ _ _ :=
            ih (hitem.mono (Nat.le_succ n) fun _ => id) (Nat.le_of_succ_le_succ hn)
          exact hrest.image (erase x :: ·)
        · intro w x hw
          have := hL.length_pos hw
          omega
        · exact .image (.star (hL.mono fun _ h => h.2) fun _ h => h.2) _
      have hnone : Recognizes (n + 1) (fun x => starts x ∧ x.kind ≠ kind)
          (Pure.pure ([] : List β)) (List.map erase) (.ret []) anything := .pure rfl
      refine Recognizes.congr ?_ (Language.star_eq_union L)
      refine .ite_sees (hround.union_right (fun _ => id) ?_)
        (hnone.union_left (fun _ _ => trivial) ?_)
      · exact .ret [] fun x hne heq => hne.1 heq.2
      · exact .of_starts (.seq hL) fun x heq hne => hne.2 heq.1

section UntilStop

variable {kind : TokenKind} {test : Parser Bool} {loop : Nat → Parser (List β)}

/-- Where it is at the end, a loop may stop: no further item can begin there. -/
theorem Recognizes.stop (hL : L.Starts fun x => x.kind ≠ kind ∧ inner x) (x : β) :
    Recognizes n (fun a => anything a ∧ a.kind = kind) (Pure.pure [x]) (List.map erase)
      (L.star.image (erase x :: ·)) (·.kind = kind) := by
  have hlast : Recognizes n (fun a => anything a ∧ a.kind = kind) (Pure.pure [x])
      (List.map erase) (.ret [erase x]) anything := .pure rfl
  refine hlast.widen ?_ ?_
  · rintro w xs ⟨rfl, rfl⟩
    exact ⟨[], rfl, rfl⟩
  · rintro w _ r a v ⟨xs, hw, rfl⟩ hr heq ⟨-, ha⟩
    cases xs with
    | nil => exact ⟨⟨hw, rfl⟩, by simp⟩
    | cons y ys =>
      obtain ⟨w₁, w₂, rfl, hw₁, -⟩ := hw
      obtain ⟨t, w₁, rfl, ht, -⟩ := hL w₁ y hw₁
      obtain ⟨rfl, -⟩ := List.cons.inj heq
      exact absurd ha ht

/-- Where it is not at the end, a loop has to go on: what follows an item is the end or
a further item. -/
theorem Recognizes.goOn {rest : Parser (List β)}
    (hrest : Recognizes n (fun a => anything a ∧ a.kind ≠ kind) rest (List.map erase)
      L.star.nonempty (·.kind = kind)) (x : β) :
    Recognizes n (fun a => anything a ∧ a.kind ≠ kind)
      (do
        let xs ← rest
        return x :: xs)
      (List.map erase) (L.star.image (erase x :: ·)) (·.kind = kind) := by
  have hmore : Recognizes n (fun a => anything a ∧ a.kind ≠ kind)
      (do
        let xs ← rest
        return x :: xs)
      (List.map erase) (L.star.nonempty.image (erase x :: ·)) (·.kind = kind) :=
    .bind_pure (hrest.image (erase x :: ·))
  refine hmore.widen ?_ ?_
  · rintro w _ ⟨xs, ⟨hw, -⟩, rfl⟩
    exact ⟨xs, hw, rfl⟩
  · rintro w _ r a v ⟨xs, hw, rfl⟩ hr heq ⟨-, ha⟩
    refine ⟨⟨xs, ⟨hw, ?_⟩, rfl⟩, hr⟩
    rintro rfl
    obtain rfl : w = [] := hw
    rw [spell_nil, List.nil_append] at heq
    exact ha (hr a (by simp [heq]))

/-- A loop that reads one item after the other until it sees that they are at an
end. -/
theorem Recognizes.untilStop
    (htest : ∀ s : ParserState, IsStream s.readings →
      ∃ s', test s = .ok (s.ahead.kind == kind) s' ∧ s'.readings = s.readings)
    (hloop : ∀ limit, loop (limit + 1) = do
      let x ← item
      if ← test then return [x]
      else
        let xs ← loop limit
        return x :: xs)
    (hitem : Recognizes n anything item erase L inner) (hn : n ≤ limit)
    (hL : L.Starts fun x => x.kind ≠ kind ∧ inner x) (hinner : ∀ x, x.kind = kind → inner x) :
    Recognizes n starts (loop limit) (List.map erase) L.star.nonempty (·.kind = kind) := by
  induction limit generalizing n starts with
  | zero =>
    obtain rfl : n = 0 := by omega
    exact .of_zero
  | succ limit ih =>
    cases n with
    | zero => exact .of_zero
    | succ n =>
      have hrest : ∀ x, Recognizes n anything
          (do
            if ← test then return [x]
            else
              let xs ← loop limit
              return x :: xs)
          (List.map erase) (L.star.image (erase x :: ·)) (·.kind = kind) := by
        intro x
        exact .ite_stay htest (.stop hL x) (.goOn
          (ih (hitem.mono (Nat.le_succ n) fun _ => id) (Nat.le_of_succ_le_succ hn)) x)
      rw [hloop]
      refine Recognizes.congr ?_ (Language.star_nonempty_eq L)
      refine .bind (hitem.mono (Nat.le_refl _) fun _ _ => trivial) hrest ?_ (fun x => ?_)
      · intro w x hw
        have := hL.length_pos hw
        omega
      · exact .image (.star (hL.mono fun _ h => h.2) hinner) _

end UntilStop

theorem Recognizes.untilEnd
    (hitem : Recognizes n anything item erase L inner) (hn : n ≤ limit)
    (hL : L.Starts fun x => x.kind ≠ .eof ∧ inner x) (hinner : ∀ x, x.kind = .eof → inner x) :
    Recognizes n starts (untilEnd item limit) (List.map erase) L.star.nonempty
      (·.kind = .eof) :=
  .untilStop (fun _ => skipEnd_stays) (fun _ => rfl) hitem hn hL hinner

end GraphQLSyntax.Parser
