import GraphQLSyntax.Proofs.Parsing.Run

/-!
# Two runs of a parser

Two runs of a parser go along with each other if tokens, states and faults of the one go together
with those of the other: then both return, and what they return is the same in some view of the
tags on either side, or both stop, with faults that go together.

What goes together is for a comparison to say, which has to answer for the single steps: for looking
at the token ahead, for consuming it and for tagging a node.  The rules below say how this goes
through a parser, one for each way in which parsers are made of others.  The second of the two
parsers differs from the first one where it goes on with what was returned.
-/

namespace GraphQLSyntax

variable {α β γ δ ε : Type}

/-- Both parsers return, with values and states that go together; or they stop with faults that go
together. -/
inductive GoTogether (States : ParserState → ParserState → Prop) (Faults : Fault → Fault → Prop)
    (Values : β → β → Prop) :
    EStateM.Result Fault ParserState β → EStateM.Result Fault ParserState β → Prop
  | ok {x x' : β} {s s' : ParserState} (hvalues : Values x x') (hs : States s s') :
      GoTogether States Faults Values (.ok x s) (.ok x' s')
  | error {fault fault' : Fault} (h : Faults fault fault') (s s' : ParserState) :
      GoTogether States Faults Values (.error fault s) (.error fault' s')

/-- What goes together in two runs of a parser, and how the tags are looked at on either side. -/
structure Comparison (γ : Type) where
  /-- Tokens that are consumed in the same place. -/
  Tokens : Token → Token → Prop
  /-- Faults with which both runs may stop. -/
  Faults : Fault → Fault → Prop
  /-- States that both runs may come to. -/
  States : ParserState → ParserState → Prop
  left : Tag → γ
  right : Tag → γ
  lexeme_eq {t t' : Token} : Tokens t t' → t.lexeme = t'.lexeme
  faults_of_tokens {t t' : Token} (cause : Cause) :
    Tokens t t' → Faults ⟨t.start, cause⟩ ⟨t'.start, cause⟩
  ahead {s s' : ParserState} : States s s' → Tokens s.ahead s'.ahead
  advance {s s' : ParserState} : States s s' →
    GoTogether States Faults (fun t t' => t.lexeme = t'.lexeme) (Parser.advance s)
      (Parser.advance s')
  mark {s s' : ParserState} {t t' : Token} : States s s' → Tokens t t' →
    GoTogether States Faults (fun m m' => left m = right m') (Parser.mark t.start s)
      (Parser.mark t'.start s')

namespace Comparison

variable (c : Comparison γ)

/-- From states that go together the parsers go along with each other, and what they return is the
same if the tags on either side are looked at. -/
def Alike (view : (Tag → γ) → β → δ) (p p' : Parser β) : Prop :=
  ∀ s s', c.States s s' →
    GoTogether c.States c.Faults (fun x x' => view c.left x = view c.right x') (p s) (p' s')

namespace Alike

variable {c} {view : (Tag → γ) → β → δ} {p p' q q' : Parser β}

/-! ## One parser after the other -/

theorem pure {x x' : β} (h : view c.left x = view c.right x') :
    c.Alike view (pure x) (pure x') :=
  fun _ _ hs => .ok h hs

theorem bind {view' : (Tag → γ) → α → ε} {f f' : α → Parser β} {r r' : Parser α}
    (hr : c.Alike view' r r')
    (hf : ∀ x x', view' c.left x = view' c.right x' → c.Alike view (f x) (f' x')) :
    c.Alike view (r >>= f) (r' >>= f') := by
  intro s s' hs
  have hresults := hr s s' hs
  simp only [Bind.bind, EStateM.bind]
  generalize r s = result at hresults
  generalize r' s' = result' at hresults
  cases hresults with
  | ok hvalues hs => exact hf _ _ hvalues _ _ hs
  | error h => exact .error h _ _

theorem ite {test : Bool} (hp : c.Alike view p p') (hq : c.Alike view q q') :
    c.Alike view (if test then p else q) (if test then p' else q') := by
  cases test with
  | true => exact hp
  | false => exact hq

/-! ## Looking ahead and marking -/

theorem peek : c.Alike (fun _ => Token.lexeme) ParserCore.peek ParserCore.peek :=
  fun _ _ hs => .ok (c.lexeme_eq (c.ahead hs)) hs

/-- Nodes begin at tokens that go together. -/
theorem here_bind {f f' : UInt32 → Parser β}
    (h : ∀ t t', c.Tokens t t' → c.Alike view (f t.start) (f' t'.start)) :
    c.Alike view (Parser.here >>= f) (Parser.here >>= f') :=
  fun s s' hs => h s.ahead s'.ahead (c.ahead hs) s s' hs

/-- A production ends with marking what it has read. -/
theorem mark_pure {g g' : Tag → β} {t t' : Token} (ht : c.Tokens t t')
    (h : ∀ m m', c.left m = c.right m' → view c.left (g m) = view c.right (g' m')) :
    c.Alike view (do return g (← ParserCore.mark t.start))
      (do return g' (← ParserCore.mark t'.start)) := by
  have hmark : c.Alike (fun look m => look m) (Parser.mark t.start) (Parser.mark t'.start) :=
    fun s s' hs => c.mark hs ht
  exact .bind hmark fun m m' hm => .pure (h m m' hm)

theorem sees (kind : TokenKind) : c.Alike (fun _ => id) (Parser.sees kind) (Parser.sees kind) :=
  .bind peek fun _ _ h => .pure (congrArg (fun x : Lexeme => x.kind == kind) h)

theorem seesKeyword (word : String) :
    c.Alike (fun _ => id) (Parser.seesKeyword word) (Parser.seesKeyword word) :=
  .bind peek fun _ _ h => .pure (congrArg (·.isKeyword word) h)

/-- What a parser tests is the same in both runs. -/
theorem ite_of_test {test : Parser Bool} (htest : c.Alike (fun _ => id) test test)
    (hp : c.Alike view p p') (hq : c.Alike view q q') :
    c.Alike view (do if ← test then p else q) (do if ← test then p' else q') :=
  .bind htest fun b b' hb => by
    obtain rfl : b = b' := hb
    exact .ite hp hq

theorem fail (cause : Lexeme → Cause) :
    c.Alike view (ParserCore.fail cause) (ParserCore.fail cause) := by
  intro s s' hs
  have hahead := c.ahead hs
  show GoTogether c.States c.Faults _ (.error ⟨s.ahead.start, cause s.ahead.lexeme⟩ s)
    (.error ⟨s'.ahead.start, cause s'.ahead.lexeme⟩ s')
  rw [← c.lexeme_eq hahead]
  exact .error (c.faults_of_tokens _ hahead) s s'

theorem unexpected : c.Alike view Parser.unexpected Parser.unexpected :=
  fail .unexpected

/-! ## Consuming a token -/

theorem advance : c.Alike (fun _ => Token.lexeme) ParserCore.advance ParserCore.advance :=
  fun _ _ hs => c.advance hs

theorem skip (kind : TokenKind) : c.Alike (fun _ => id) (Parser.skip kind) (Parser.skip kind) :=
  .ite_of_test (sees kind) (.bind advance fun _ _ _ => .pure rfl) (.pure rfl)

theorem expect (kind : TokenKind) :
    c.Alike (fun _ => id) (Parser.expect kind) (Parser.expect kind) :=
  .ite_of_test (sees kind) (.bind advance fun _ _ h => .pure h) (.fail _)

theorem expectKeyword (word : String) :
    c.Alike (fun _ => id) (Parser.expectKeyword word) (Parser.expectKeyword word) :=
  .ite_of_test (seesKeyword word) (.bind advance fun _ _ _ => .pure rfl) (.fail _)

/-! ## Repetitions -/

variable {item item' : Parser β} {limit : Nat} {opening close : TokenKind}

theorem untilClose (hitem : c.Alike view item item') :
    c.Alike (fun look => List.map (view look)) (Parser.untilClose item close limit)
      (Parser.untilClose item' close limit) := by
  induction limit with
  | zero => exact unexpected
  | succ limit ih =>
    refine .ite_of_test (skip close) (.pure rfl) ?_
    exact .bind hitem fun x x' hx => .bind ih fun xs xs' hxs =>
      .pure (List.cons_eq_cons.2 ⟨hx, hxs⟩)

theorem any (hitem : c.Alike view item item') :
    c.Alike (fun look => List.map (view look)) (Parser.any opening item close limit)
      (Parser.any opening item' close limit) :=
  .bind (expect opening) fun _ _ _ => hitem.untilClose

theorem many (hitem : c.Alike view item item') :
    c.Alike (fun look => List.map (view look)) (Parser.many opening item close limit)
      (Parser.many opening item' close limit) :=
  .bind (expect opening) fun _ _ _ => .bind hitem fun _ _ hx => .bind hitem.untilClose
    fun _ _ hxs => .pure (List.cons_eq_cons.2 ⟨hx, hxs⟩)

theorem parenthesized (hitem : c.Alike view item item') :
    c.Alike (fun look => List.map (view look)) (Parser.parenthesized item limit)
      (Parser.parenthesized item' limit) :=
  .ite_of_test (sees .parenOpen) hitem.many (.pure rfl)

theorem whileSees {kind : TokenKind} (hitem : c.Alike view item item') :
    c.Alike (fun look => List.map (view look)) (Parser.whileSees kind item limit)
      (Parser.whileSees kind item' limit) := by
  induction limit with
  | zero => exact unexpected
  | succ limit ih =>
    refine .ite_of_test (sees kind) ?_ (.pure rfl)
    exact .bind hitem fun x x' hx => .bind ih fun xs xs' hxs =>
      .pure (List.cons_eq_cons.2 ⟨hx, hxs⟩)

theorem untilEnd (hitem : c.Alike view item item') :
    c.Alike (fun look => List.map (view look)) (Parser.untilEnd item limit)
      (Parser.untilEnd item' limit) := by
  induction limit with
  | zero => exact unexpected
  | succ limit ih =>
    refine .bind hitem fun x x' hx => .ite_of_test (skip .eof) (.pure ?_) ?_
    · exact List.cons_eq_cons.2 ⟨hx, rfl⟩
    · exact .bind ih fun xs xs' hxs => .pure (List.cons_eq_cons.2 ⟨hx, hxs⟩)

end Alike

/-! ## Whole runs -/

/-- Both runs return what is the same if the tags are looked at, or stop with faults that go
together. -/
inductive Runs (view : (Tag → γ) → β → δ) : Except Fault β → Except Fault β → Prop
  | ok {x x' : β} (h : view c.left x = view c.right x') : Runs view (.ok x) (.ok x')
  | error {fault fault' : Fault} (h : c.Faults fault fault') :
      Runs view (.error fault) (.error fault')

variable {c} {view : (Tag → γ) → β → δ} {source source' : Source}
variable {options options' : ParseOptions} {ahead ahead' : Token}
variable {upcoming upcoming' : List Reading}

theorem Alike.run {p : Nat → Parser β} (hp : ∀ n, c.Alike view (p n) (p n))
    (hs : c.States { source, options, ahead, upcoming }
      { source := source', options := options', ahead := ahead', upcoming := upcoming' })
    (hlength : upcoming.length = upcoming'.length) :
    c.Runs view (Parser.run p source options (.ok ahead :: upcoming))
      (Parser.run p source' options' (.ok ahead' :: upcoming')) := by
  have hresults := hp (upcoming.length + 1 + 1) _ _ hs
  simp only [Parser.run, List.length_cons, ← hlength]
  generalize p _ { source, options, ahead, upcoming } = result at hresults
  generalize p _ { source := source', .. } = result' at hresults
  cases hresults with
  | ok hvalues => exact .ok hvalues
  | error h => exact .error h

theorem Runs.map {view' : (Tag → γ) → α → ε} {wrap : β → α} {wrap' : δ → ε}
    {result result' : Except Fault β} (h : c.Runs view result result')
    (hwrap : ∀ look x, view' look (wrap x) = wrap' (view look x)) :
    c.Runs view' (result.map wrap) (result'.map wrap) := by
  cases h with
  | @ok x x' h =>
    refine .ok ?_
    rw [hwrap, hwrap, h]
  | error h => exact .error h

end Comparison

end GraphQLSyntax
