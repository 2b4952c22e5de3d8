import GraphQLSyntax.Proofs.Location.Tiling
import GraphQLSyntax.Proofs.Parsing.Run

/-!
# Parsers that lay out trees

A parser that returns has consumed tokens, and the tree that it returns lies over these.
A production remembers where it starts, runs one parser after the other and tags the node
at the end; in between, what has been returned so far lies over the tokens consumed since
the start.  `LaysOut` says the former of a parser as a whole, `Extends` the latter of one
in the middle of a production.

The rules below say how the two go through a parser, one for each way in which parsers are
made of others.  Nothing is said about a parser that fails.
-/

namespace GraphQLSyntax

/-- Locations are kept, and what is left to read is a stream. -/
structure ParserState.Locates (s : ParserState) : Prop where
  options_eq : s.options = {}
  isStream : IsStream s.readings

/-- The tokens are consumed on the way from one state to another. -/
structure ParserState.Consumes (s : ParserState) (u : List Token) (s' : ParserState) : Prop where
  options_eq : s'.options = s.options
  readings_eq : s.readings = u.map .ok ++ s'.readings
  lastStop_eq : s'.lastStop = (u.getLast?.map Token.stop).getD s.lastStop

namespace ParserState.Consumes

variable {s s₁ s₂ : ParserState} {u v : List Token}

theorem refl (s : ParserState) : s.Consumes [] s :=
  ⟨rfl, rfl, rfl⟩

theorem trans (h : s.Consumes u s₁) (h' : s₁.Consumes v s₂) : s.Consumes (u ++ v) s₂ where
  options_eq := h'.options_eq.trans h.options_eq
  readings_eq := by rw [h.readings_eq, h'.readings_eq, List.map_append, List.append_assoc]
  lastStop_eq := by
    rw [h'.lastStop_eq, h.lastStop_eq, List.getLast?_append]
    cases v.getLast? <;> rfl

theorem locates (h : s.Consumes u s₁) (hs : s.Locates) : s₁.Locates where
  options_eq := h.options_eq.trans hs.options_eq
  isStream := IsStream.of_append (h.readings_eq ▸ hs.isStream) (by simp [readings])

/-- A tag made now of a node that starts where reading did spans what was read. -/
theorem spans (h : s.Consumes u s₁) (hne : u ≠ []) {tag : Tag}
    (hstart : tag.start = s.ahead.start) (hstop : tag.stop = s₁.lastStop) : tag.Spans u where
  start_eq := by
    obtain ⟨t, u, rfl⟩ := List.exists_cons_of_ne_nil hne
    obtain ⟨hahead, -⟩ := List.cons.inj h.readings_eq
    rw [hstart, Except.ok.inj hahead]
    rfl
  stop_eq := by
    rw [hstop, h.lastStop_eq, List.getLast?_eq_some_getLast hne]
    rfl

end ParserState.Consumes

namespace Parser

variable {β δ : Type}

/-- If one of the lexemes in `starts` is ahead, what the parser returns lies over the
tokens that it consumes. -/
def LaysOut (starts : Lexeme → Prop) (p : Parser β) (P : β → List (Piece Tag)) : Prop :=
  ∀ s x s', s.Locates → starts s.ahead.lexeme → p s = .ok x s' →
    ∃ u, s.Consumes u s' ∧ Tiles (P x) u

/-- If what was consumed since `start` is `done`, what the parser returns lies over the
tokens that are consumed from there on. -/
def Extends (start : UInt32) (starts : Lexeme → Prop) (done : List (Piece Tag)) (p : Parser β)
    (P : β → List (Piece Tag)) : Prop :=
  ∀ (s₀ s : ParserState) u x s', s₀.ahead.start = start → s₀.Locates → s₀.Consumes u s →
    Tiles done u → starts s.ahead.lexeme → p s = .ok x s' →
      ∃ v, s₀.Consumes v s' ∧ Tiles (P x) v

variable {start : UInt32} {starts starts' : Lexeme → Prop} {done : List (Piece Tag)}
variable {p : Parser β} {P : β → List (Piece Tag)}

/-! ## From one to the other -/

theorem LaysOut.mono (h : LaysOut starts p P) (hstarts : ∀ x, starts' x → starts x) :
    LaysOut starts' p P :=
  fun s x s' hs hstart => h s x s' hs (hstarts _ hstart)

theorem LaysOut.of_extends (h : ∀ start, Extends start starts [] p P) : LaysOut starts p P :=
  fun s x s' hs hstart hp => h _ s s [] x s' rfl hs (.refl s) .nil hstart hp

/-- A production begins with remembering where it starts. -/
theorem LaysOut.here_bind {f : UInt32 → Parser β}
    (h : ∀ start, Extends start starts [] (f start) P) : LaysOut starts (here >>= f) P :=
  fun s x s' hs hstart hp => h s.ahead.start s s [] x s' rfl hs (.refl s) .nil hstart hp

/-- In the middle of a production, what is returned comes after what was there. -/
theorem LaysOut.toExtends (h : LaysOut starts p P) :
    Extends start starts done p fun x => done ++ P x := by
  intro s₀ s u x s' _ hs hu hdone hstart hp
  obtain ⟨v, hv, htiles⟩ := h s x s' (hu.locates hs) hstart hp
  exact ⟨u ++ v, hu.trans hv, hdone.append htiles⟩

/-! ## One parser after the other -/

theorem Extends.bind {f : β → Parser δ} {Q : δ → List (Piece Tag)}
    (hp : Extends start starts done p P) (hf : ∀ x, Extends start anything (P x) (f x) Q) :
    Extends start starts done (p >>= f) Q := by
  intro s₀ s u y s₂ heq hs hu hdone hstart hrun
  obtain ⟨x, s₁, hx, hy⟩ := bind_eq_ok hrun
  obtain ⟨v, hv, htiles⟩ := hp s₀ s u x s₁ heq hs hu hdone hstart hx
  exact hf x s₀ s₁ v y s₂ heq hs hv htiles trivial hy

/-- A production goes on after one of its parts. -/
theorem Extends.part_bind {f : β → Parser δ} {Q : δ → List (Piece Tag)}
    (hp : LaysOut starts p P) (hf : ∀ x, Extends start anything (done ++ P x) (f x) Q) :
    Extends start starts done (p >>= f) Q :=
  .bind hp.toExtends hf

theorem Extends.pure {x : β} (h : done = P x) : Extends start starts done (pure x) P := by
  rintro s₀ s u _ _ - - hu hdone - ⟨⟩
  exact ⟨u, hu, h ▸ hdone⟩

/-- A production may turn what a part returns into something else. -/
theorem LaysOut.bind_pure {g : β → δ} {Q : δ → List (Piece Tag)} (h : LaysOut starts p P)
    (heq : ∀ x, P x = Q (g x)) : LaysOut starts (do return g (← p)) Q :=
  .of_extends fun _ => .part_bind h fun x => .pure (heq x)

/-- A node with these pieces and this tag. -/
structure IsMarked (done : List (Piece Tag)) (n : Node Tag) (m : Tag) : Prop where
  pieces_eq : n.pieces = done
  tag_eq : n.tag = m
  isWritten : n.IsWritten

/-- A production ends with tagging the node that it has read. -/
theorem Extends.mark_node {g : Tag → β} {n : Tag → Node Tag} (hne : done ≠ [])
    (hnode : ∀ m, P (g m) = [.child (n m)]) (hmarked : ∀ m, IsMarked done (n m) m) :
    Extends start starts done (do return g (← ParserCore.mark start)) P := by
  rintro s₀ s u _ _ hstart hs hu hdone - ⟨⟩
  have hend : s.Consumes [] { s with serial := s.serial + 1 } := ⟨rfl, rfl, rfl⟩
  refine ⟨u, by simpa using hu.trans hend, ?_⟩
  have hoptions : s.options = {} := (hu.locates hs).options_eq
  rw [hnode, hoptions]
  obtain ⟨hpieces, htag, hwritten⟩ :=
    hmarked ⟨s.serial, ParseOptions.locate {} s.source start s.lastStop⟩
  refine .of_liesOver ⟨hwritten, ?_, ?_⟩
  · rw [htag]
    exact hu.spans (hdone.ne_nil hne) hstart.symm rfl
  · rw [hpieces]
    exact hdone

theorem Extends.mark_part {γ : Type → Type} [∀ α, SizeOf (γ α)] [Part γ] {g : Tag → γ Tag}
    (hne : done ≠ []) (hmarked : ∀ m, IsMarked done (Part.toNode (g m)) m) :
    Extends start starts done (do return g (← ParserCore.mark start)) fun x => [.part x] :=
  .mark_node hne (fun _ => rfl) hmarked

/-! ## Looking ahead -/

theorem Extends.mono (h : Extends start starts done p P) (hstarts : ∀ x, starts' x → starts x) :
    Extends start starts' done p P :=
  fun s₀ s u x s' heq hs hu hdone hstart => h s₀ s u x s' heq hs hu hdone (hstarts _ hstart)

theorem Extends.fail {cause : Lexeme → Cause} : Extends start starts done (fail cause) P :=
  fun _ _ _ _ _ _ _ _ _ _ h => nomatch h

theorem Extends.unexpected : Extends start starts done Parser.unexpected P :=
  .fail

/-- A parser may look at the token ahead first. -/
theorem Extends.peek_bind {f : Token → Parser β}
    (h : ∀ token, starts token.lexeme → Extends start (· = token.lexeme) done (f token) P) :
    Extends start starts done (peek >>= f) P :=
  fun s₀ s u x s' heq hs hu hdone hstart hp =>
    h s.ahead hstart s₀ s u x s' heq hs hu hdone rfl hp

/-- A parser may look at the kind of the token ahead first. -/
theorem Extends.sees_bind {kind : TokenKind} {f : Bool → Parser β}
    (h : ∀ b, Extends start (fun x => starts x ∧ (x.kind == kind) = b) done (f b) P) :
    Extends start starts done (sees kind >>= f) P :=
  fun s₀ s u x s' heq hs hu hdone hstart hp =>
    h _ s₀ s u x s' heq hs hu hdone ⟨hstart, rfl⟩ hp

/-- A parser may look first whether the token ahead is a keyword. -/
theorem Extends.seesKeyword_bind {word : String} {f : Bool → Parser β}
    (h : ∀ b, Extends start (fun x => starts x ∧ x.isKeyword word = b) done (f b) P) :
    Extends start starts done (seesKeyword word >>= f) P :=
  fun s₀ s u x s' heq hs hu hdone hstart hp =>
    h _ s₀ s u x s' heq hs hu hdone ⟨hstart, rfl⟩ hp

theorem Extends.ite {test : Bool} {q : Parser β}
    (hp : test = true → Extends start starts done p P)
    (hq : test = false → Extends start starts done q P) :
    Extends start starts done (if test then p else q) P := by
  cases test with
  | true => exact hp rfl
  | false => exact hq rfl

theorem Extends.ite_sees {kind : TokenKind} {q : Parser β}
    (hp : Extends start (fun x => starts x ∧ x.kind = kind) done p P)
    (hq : Extends start (fun x => starts x ∧ x.kind ≠ kind) done q P) :
    Extends start starts done (do if ← sees kind then p else q) P := by
  refine .sees_bind fun b => .ite (fun hb => hp.mono ?_) fun hb => hq.mono ?_
  · rintro x ⟨hx, rfl⟩
    exact ⟨hx, beq_iff_eq.1 hb⟩
  · rintro x ⟨hx, rfl⟩
    exact ⟨hx, beq_eq_false_iff_ne.1 hb⟩

theorem Extends.ite_seesKeyword {word : String} {q : Parser β}
    (hp : Extends start (fun x => starts x ∧ x = .ofName word) done p P)
    (hq : Extends start starts done q P) :
    Extends start starts done (do if ← seesKeyword word then p else q) P := by
  refine .seesKeyword_bind fun b => .ite (fun hb => hp.mono ?_) fun _ => hq.mono fun _ hx => hx.1
  rintro x ⟨hx, rfl⟩
  exact ⟨hx, Lexeme.isKeyword_iff.1 hb⟩

/-! ## Consuming a token -/

/-- Consuming takes up the token ahead, which may be known to be a certain lexeme. -/
theorem LaysOut.advance {f : Token → Lexeme} (heof : ∀ x, starts x → x.kind ≠ .eof)
    (h : ∀ t, starts t.lexeme → t.lexeme.IsProper → t.lexeme = f t) :
    LaysOut starts advance fun t => [.lexeme (f t)] := by
  intro s t s' hs hstart hrun
  obtain ⟨hend, -⟩ | ⟨-, -, hrest⟩ := hs.isStream.of_ok_cons
  · exact absurd (congrArg Lexeme.kind hend) (heof _ hstart)
  cases hnext : s.upcoming with
  | nil => exact absurd hnext hrest.ne_nil
  | cons reading rest =>
    cases reading with
    | error fault =>
      rw [advance_eq_error hnext] at hrun
      cases hrun
    | ok next =>
      rw [advance_eq_ok hnext] at hrun
      cases hrun
      refine ⟨[s.ahead], ⟨rfl, by simp [ParserState.readings, hnext], rfl⟩, ?_⟩
      have hlexeme : s.ahead.lexeme = f s.ahead := h s.ahead hstart hs.isStream.isProper
      show Tiles [.lexeme (f s.ahead)] [s.ahead]
      rw [← hlexeme]
      exact .lexeme s.ahead .nil

theorem LaysOut.expect_bare {kind : TokenKind} (heof : kind ≠ .eof)
    (hvalue : kind.hasValue = false) :
    LaysOut starts (expect kind) fun _ => [.bare kind] := by
  refine .of_extends fun start => .ite_sees (.part_bind (.advance (f := fun _ => .bare kind) ?_ ?_)
    fun _ => .pure rfl) .fail
  · exact fun x hx => hx.2 ▸ heof
  · rintro t ⟨-, rfl⟩ hproper
    exact hproper.eq_bare hvalue

theorem LaysOut.expect_name : LaysOut starts (expect .name) fun x => [.word x.text] := by
  refine .of_extends fun start => .ite_sees (.part_bind
    (.advance (f := fun t => .ofName t.lexeme.text) ?_ ?_) fun _ => .pure rfl) .fail
  · intro x hx
    simp [hx.2]
  · exact fun t ht hproper => (hproper.eq_ofName ht.2).1

theorem LaysOut.expectKeyword {word : String} :
    LaysOut starts (expectKeyword word) fun _ => [.word word] := by
  refine .of_extends fun start => .ite_seesKeyword (.part_bind
    (.advance (f := fun _ => .ofName word) ?_ ?_) fun _ => .pure rfl) .fail
  · rintro _ ⟨-, rfl⟩
    simp
  · exact fun t ht _ => ht.2

/-- Consuming a keyword that is known to be ahead. -/
theorem LaysOut.advance_keyword {word : String} :
    LaysOut (fun x => starts x ∧ x = .ofName word) Parser.advance fun _ => [.word word] := by
  refine .advance (f := fun _ => .ofName word) ?_ fun _ ht _ => ht.2
  rintro _ ⟨-, rfl⟩
  simp

/-- Consuming a punctuator if it is ahead, and going on accordingly. -/
theorem Extends.ite_skip {kind : TokenKind} {q : Parser β} (heof : kind ≠ .eof)
    (hvalue : kind.hasValue = false) (hp : Extends start anything (done ++ [.bare kind]) p P)
    (hq : Extends start anything done q P) :
    Extends start starts done (do if ← skip kind then p else q) P := by
  rw [ite_skip_eq]
  refine .ite_sees (.part_bind (.advance (f := fun _ => .bare kind) ?_ ?_) fun _ => hp)
    (hq.mono fun _ _ => trivial)
  · exact fun x hx => hx.2 ▸ heof
  · rintro t ⟨-, rfl⟩ hproper
    exact hproper.eq_bare hvalue

/-! ## Repetitions -/

section

variable {γ : Type → Type} [∀ α, SizeOf (γ α)] [Part γ] {item : Parser (γ Tag)}
variable {limit : Nat}

theorem LaysOut.untilClose {close : TokenKind} (hitem : LaysOut anything item fun x => [.part x])
    (heof : close ≠ .eof) (hvalue : close.hasValue = false) :
    LaysOut starts (untilClose item close limit) fun xs => Piece.parts xs ++ [.bare close] := by
  induction limit generalizing starts with
  | zero => exact .of_extends fun _ => .unexpected
  | succ limit ih =>
    exact .of_extends fun _ => .ite_skip heof hvalue (.pure rfl) (.part_bind hitem fun _ =>
      .part_bind ih fun _ => .pure rfl)

variable {opening close : TokenKind}

theorem LaysOut.any (hitem : LaysOut anything item fun x => [.part x])
    (hopening : opening ≠ .eof ∧ opening.hasValue = false)
    (hclose : close ≠ .eof ∧ close.hasValue = false) :
    LaysOut starts (any opening item close limit) (Piece.enclosed opening close) :=
  .of_extends fun _ => .bind (LaysOut.expect_bare hopening.1 hopening.2).toExtends fun _ =>
    (LaysOut.untilClose hitem hclose.1 hclose.2).toExtends

/-- What is returned has an item at least, which matters if nothing is written otherwise. -/
theorem LaysOut.many {P : List (γ Tag) → List (Piece Tag)}
    (hitem : LaysOut anything item fun x => [.part x])
    (hopening : opening ≠ .eof ∧ opening.hasValue = false)
    (hclose : close ≠ .eof ∧ close.hasValue = false)
    (hP : ∀ x xs, P (x :: xs) = Piece.enclosed opening close (x :: xs)) :
    LaysOut starts (many opening item close limit) P :=
  .of_extends fun _ => .part_bind (.expect_bare hopening.1 hopening.2) fun _ =>
    .part_bind hitem fun x => .part_bind (.untilClose hitem hclose.1 hclose.2) fun xs =>
      .pure (hP x xs).symm

theorem LaysOut.parenthesized (hitem : LaysOut anything item fun x => [.part x]) :
    LaysOut starts (parenthesized item limit) Piece.parenthesized := by
  have hmany : LaysOut (fun x => starts x ∧ x.kind = .parenOpen)
      (Parser.many .parenOpen item .parenClose limit) Piece.parenthesized :=
    .many hitem ⟨by decide, rfl⟩ ⟨by decide, rfl⟩ fun _ _ => rfl
  exact .of_extends fun _ => .ite_sees hmany.toExtends (.pure rfl)

theorem LaysOut.whileSees {kind : TokenKind} (hitem : LaysOut anything item fun x => [.part x]) :
    LaysOut starts (whileSees kind item limit) Piece.parts := by
  induction limit generalizing starts with
  | zero => exact .of_extends fun _ => .unexpected
  | succ limit ih =>
    exact .of_extends fun _ => .ite_sees (.part_bind (hitem.mono fun _ _ => trivial) fun _ =>
      .part_bind ih fun _ => .pure rfl) (.pure rfl)

end

end Parser

end GraphQLSyntax
