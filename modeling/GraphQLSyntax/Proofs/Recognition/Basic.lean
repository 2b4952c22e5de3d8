import GraphQLSyntax.Grammar.Parser
import GraphQLSyntax.Proofs.Lexical.Stream
import GraphQLSyntax.Proofs.Recognition.Language

/-!
# Recognition

What it means that a parser reads a language exactly, as far as one token of
lookahead goes.  If the parser returns, it has consumed a word, and no other word
of the language agrees with what was consumed and with the token that is now
ahead.  If it stops at a token, what it consumed can be completed to a word, but
no word goes on with that token, except for one to which just the reported
objection is raised.  If it stops because a token cannot be read, what it consumed
can be completed to a word as well.

The rules below say how recognition goes through a parser, one for each way in
which parsers are made of others.  A language is about trees without tags; `erase`
takes the tags off what a parser returns.
-/

namespace GraphQLSyntax

/-- The word that tokens make up if nothing is objected to any of them. -/
def wordOf (u : List Token) : List Terminal :=
  u.map fun token => .plain token.lexeme

@[simp] theorem wordOf_nil : wordOf [] = [] := rfl

@[simp] theorem wordOf_append (u v : List Token) : wordOf (u ++ v) = wordOf u ++ wordOf v :=
  List.map_append

@[simp] theorem length_wordOf (u : List Token) : (wordOf u).length = u.length :=
  List.length_map _

@[simp] theorem spell_wordOf (u : List Token) : spell (wordOf u) = u.map Token.lexeme := by
  simp [spell, wordOf]

theorem allPlain_wordOf (u : List Token) : Terminal.AllPlain (wordOf u) := by
  simp [Terminal.AllPlain, wordOf]

/-- What a parser will read, beginning with the token ahead. -/
def ParserState.readings (s : ParserState) : List Reading :=
  .ok s.ahead :: s.upcoming

/-- The token ahead is the next one to be consumed. -/
theorem ParserState.exists_ahead_cons {s : ParserState} {u : List Token} {token : Token}
    {rest : List Reading} (h : s.readings = u.map .ok ++ .ok token :: rest) :
    ∃ v, u.map Token.lexeme ++ [token.lexeme] = s.ahead.lexeme :: v := by
  cases u with
  | nil =>
    simp only [readings, List.map_nil, List.nil_append, List.cons.injEq, Except.ok.injEq] at h
    exact ⟨[], by simp [h.1]⟩
  | cons t u =>
    simp only [readings, List.map_cons, List.cons_append, List.cons.injEq, Except.ok.injEq] at h
    exact ⟨u.map Token.lexeme ++ [token.lexeme], by simp [h.1]⟩

/-- What comes first in a text that goes on beyond a prefix. -/
theorem head_isPrefix {a : Lexeme} {u v r : List Lexeme} (h : u ++ a :: v <+: r) :
    u ++ [a] <+: r :=
  ((List.prefix_append_right_inj u).2 ⟨v, rfl⟩).trans h

namespace Parser

variable {β γ δ ε : Type}

/-- The tokens can be completed to a word beyond objection. -/
def Extendable (L : Language γ) (u : List Token) : Prop :=
  ∃ w x, L w x ∧ Terminal.AllPlain w ∧ u.map Token.lexeme <+: spell w

/-- The tokens are read as `x`, and as nothing else once it is known what comes
next. -/
structure Accepted (L : Language γ) (follows : Lexeme → Prop) (u : List Token) (next : Lexeme)
    (x : γ) : Prop where
  reads : L (wordOf u) x
  unique : ∀ w y r, L w y → BeginsWith follows r →
    u.map Token.lexeme ++ [next] <+: spell w ++ r → w = wordOf u ∧ y = x

/-- The cause says of just this lexeme that it must not stand where it is found. -/
inductive Blames : Cause → Lexeme → Prop
  | expectedKind (kind : TokenKind) (found : Lexeme) : Blames (.expectedKind kind found) found
  | expectedKeyword {word : String} (hword : isName word = true) (found : Lexeme) :
      Blames (.expectedKeyword word found) found
  | unexpected (found : Lexeme) : Blames (.unexpected found) found
  | duplicateField (name : String) : Blames (.duplicateField name) (.ofName name)
  | reservedName (name : String) : Blames (.reservedName name) (.ofName name)

theorem Blames.not_lexical {cause : Cause} {found : Lexeme} (h : Blames cause found) :
    cause.category ≠ .lexical := by
  cases h <;> simp [Cause.category]

/-- The fault is reported at a token that does not go on from those before it. -/
structure Rejected (L : Language γ) (follows : Lexeme → Prop) (u : List Token) (token : Token)
    (fault : Fault) : Prop where
  position_eq : fault.position = token.start
  blames : Blames fault.cause token.lexeme
  extendable : u = [] ∨ Extendable L u
  objection : ∀ w y r, L w y → BeginsWith follows r →
    u.map Token.lexeme ++ [token.lexeme] <+: spell w ++ r →
      ∃ o : Objection, w[u.length]? = some ⟨token.lexeme, some o⟩ ∧ fault.cause = o.cause
  objected : fault.cause.category ≠ .unexpectedToken →
    ∃ w y, L w y ∧ u.map Token.lexeme ++ [token.lexeme] <+: spell w

theorem Rejected.not_lexical {L : Language γ} {follows : Lexeme → Prop} {u : List Token}
    {token : Token} {fault : Fault} (h : Rejected L follows u token fault) :
    fault.cause.category ≠ .lexical :=
  h.blames.not_lexical

/-- What comes of running a parser in a certain state. -/
def Outcome (s : ParserState) (erase : β → γ) (L : Language γ) (follows : Lexeme → Prop) :
    EStateM.Result Fault ParserState β → Prop
  | .ok x s' =>
    ∃ u : List Token, s.readings = u.map .ok ++ s'.readings ∧
      Accepted L follows u s'.ahead.lexeme (erase x)
  | .error fault _ =>
    ∃ u : List Token,
      (∃ token rest, s.readings = u.map .ok ++ .ok token :: rest ∧
        Rejected L follows u token fault) ∨
      (s.readings = u.map .ok ++ [.error fault] ∧ (u = [] ∨ Extendable L u))

/-- If no more than `limit` readings are left and one of the lexemes in `starts` is
ahead, the parser reads the language exactly. -/
def Recognizes (limit : Nat) (starts : Lexeme → Prop) (p : Parser β) (erase : β → γ)
    (L : Language γ) (follows : Lexeme → Prop) : Prop :=
  ∀ s : ParserState, IsStream s.readings → s.readings.length ≤ limit →
    starts s.ahead.lexeme → Outcome s erase L follows (p s)

variable {limit limit' : Nat} {starts starts' follows middle : Lexeme → Prop}
variable {p : Parser β} {erase : β → γ} {L : Language γ}

theorem Recognizes.mono (h : Recognizes limit starts p erase L follows)
    (hlimit : limit' ≤ limit) (hstarts : ∀ x, starts' x → starts x) :
    Recognizes limit' starts' p erase L follows :=
  fun s hs hlen hstart => h s hs (Nat.le_trans hlen hlimit) (hstarts _ hstart)

/-- What may follow may be restricted. -/
theorem Recognizes.follow {follows' : Lexeme → Prop}
    (h : Recognizes limit starts p erase L follows') (hf : ∀ x, follows x → follows' x) :
    Recognizes limit starts p erase L follows := by
  intro s hs hlen hstart
  have hout := h s hs hlen hstart
  cases hps : p s with
  | ok x s' =>
    rw [hps] at hout
    obtain ⟨u, heq, hacc⟩ := hout
    exact ⟨u, heq, hacc.reads, fun w y r hw hr => hacc.unique w y r hw (hr.mono hf)⟩
  | error fault s' =>
    rw [hps] at hout
    obtain ⟨u, ⟨token, rest, heq, hrej⟩ | ⟨heq, hext⟩⟩ := hout
    · exact ⟨u, .inl ⟨token, rest, heq, hrej.position_eq, hrej.blames, hrej.extendable,
        fun w y r hw hr => hrej.objection w y r hw (hr.mono hf), hrej.objected⟩⟩
    · exact ⟨u, .inr ⟨heq, hext⟩⟩

theorem Recognizes.of_anything (h : Recognizes limit starts p erase L anything) :
    Recognizes limit starts p erase L follows :=
  h.follow fun _ _ => trivial

theorem Extendable.mono {u : List Token} {L M : Language γ} (h : Extendable L u)
    (hle : ∀ w x, L w x → M w x) : Extendable M u :=
  h.imp fun w => Exists.imp fun x hx => ⟨hle w x hx.1, hx.2⟩

/-- A parser for a part of a language is one for the whole of it if the words that
begin with what may be ahead belong to that part. -/
theorem Recognizes.widen {L' : Language γ} {follows' : Lexeme → Prop}
    (h : Recognizes limit starts p erase L' follows')
    (hle : ∀ w x, L' w x → L w x)
    (hpart : ∀ w x r a v, L w x → BeginsWith follows r → spell w ++ r = a :: v → starts a →
      L' w x ∧ BeginsWith follows' r) :
    Recognizes limit starts p erase L follows := by
  intro s hs hlen hstart
  have hout := h s hs hlen hstart
  have key : ∀ w x r (u : List Token) token rest, L w x → BeginsWith follows r →
      s.readings = u.map .ok ++ .ok token :: rest →
      u.map Token.lexeme ++ [token.lexeme] <+: spell w ++ r →
      L' w x ∧ BeginsWith follows' r := by
    intro w x r u token rest hw hr heq hpre
    obtain ⟨v, hv⟩ := ParserState.exists_ahead_cons heq
    rw [hv] at hpre
    obtain ⟨v', hv'⟩ := hpre
    exact hpart w x r _ (v ++ v') hw hr hv'.symm hstart
  cases hps : p s with
  | ok x s' =>
    rw [hps] at hout
    obtain ⟨u, heq, hacc⟩ := hout
    refine ⟨u, heq, hle _ _ hacc.reads, ?_⟩
    intro w y r hw hr hpre
    obtain ⟨hw', hr'⟩ := key w y r u s'.ahead s'.upcoming hw hr heq hpre
    exact hacc.unique w y r hw' hr' hpre
  | error fault s' =>
    rw [hps] at hout
    obtain ⟨u, ⟨token, rest, heq, hrej⟩ | ⟨heq, hext⟩⟩ := hout
    · refine ⟨u, .inl ⟨token, rest, heq, hrej.position_eq, hrej.blames,
        hrej.extendable.imp_right (·.mono hle), ?_, ?_⟩⟩
      · intro w y r hw hr hpre
        obtain ⟨hw', hr'⟩ := key w y r u token rest hw hr heq hpre
        exact hrej.objection w y r hw' hr' hpre
      · intro hcat
        obtain ⟨w, y, hw, hpre⟩ := hrej.objected hcat
        exact ⟨w, y, hle w y hw, hpre⟩
    · exact ⟨u, .inr ⟨heq, hext.imp_right (·.mono hle)⟩⟩

theorem Recognizes.congr {L' : Language γ} (h : Recognizes limit starts p erase L' follows)
    (heq : L = L') : Recognizes limit starts p erase L follows :=
  heq ▸ h

/-- Where nothing of the second language can be ahead, a parser for the first is one
for both. -/
theorem Recognizes.union_left {M : Language γ} {follows' : Lexeme → Prop}
    (h : Recognizes limit starts p erase L follows') (hf : ∀ x, follows x → follows' x)
    (hM : M.Leads follows fun x => ¬ starts x) :
    Recognizes limit starts p erase (L.union M) follows := by
  refine h.widen (fun w x => .inl) ?_
  rintro w x r a v (hw | hw) hr heq ha
  · exact ⟨hw, hr.mono hf⟩
  · exact absurd ha (hM w x r hw hr a (by simp [heq]))

/-- Where nothing of the first language can be ahead, a parser for the second is one
for both. -/
theorem Recognizes.union_right {M : Language γ} {follows' : Lexeme → Prop}
    (h : Recognizes limit starts p erase M follows') (hf : ∀ x, follows x → follows' x)
    (hL : L.Leads follows fun x => ¬ starts x) :
    Recognizes limit starts p erase (L.union M) follows := by
  refine h.widen (fun w x => .inr) ?_
  rintro w x r a v (hw | hw) hr heq ha
  · exact absurd ha (hL w x r hw hr a (by simp [heq]))
  · exact ⟨hw, hr.mono hf⟩

/-- A parser reads only words that begin with what may be ahead. -/
theorem Recognizes.beginning (h : Recognizes limit starts p erase L follows) :
    Recognizes limit starts p erase (L.beginning starts) follows := by
  intro s hs hlen hstart
  have hout := h s hs hlen hstart
  have hbegins : ∀ {w : List Terminal} {a : Lexeme} {v : List Lexeme}, a = s.ahead.lexeme →
      a :: v <+: spell w → BeginsWith starts (spell w) := by
    rintro w a v rfl ⟨v', hv'⟩
    rw [← hv', List.cons_append, beginsWith_cons]
    exact hstart
  have hext : ∀ {u rest}, s.readings = u.map .ok ++ rest → u = [] ∨ Extendable L u →
      u = [] ∨ Extendable (L.beginning starts) u := by
    rintro u rest heq (rfl | ⟨w, x, hw, hplain, hpre⟩)
    · exact .inl rfl
    cases u with
    | nil => exact .inl rfl
    | cons t u =>
      simp only [ParserState.readings, List.map_cons, List.cons_append, List.cons.injEq,
        Except.ok.injEq] at heq
      exact .inr ⟨w, x, ⟨hw, hbegins (by rw [heq.1]) hpre⟩, hplain, hpre⟩
  cases hps : p s with
  | ok x s' =>
    rw [hps] at hout
    obtain ⟨u, heq, hacc⟩ := hout
    refine ⟨u, heq, ⟨hacc.reads, ?_⟩, fun w y r hw => hacc.unique w y r hw.1⟩
    cases u with
    | nil => simp
    | cons t u =>
      simp only [ParserState.readings, List.map_cons, List.cons_append, List.cons.injEq,
        Except.ok.injEq] at heq
      exact hbegins (a := t.lexeme) (v := u.map Token.lexeme) (by rw [heq.1]) (by simp)
  | error fault s' =>
    rw [hps] at hout
    obtain ⟨u, ⟨token, rest, heq, hrej⟩ | ⟨heq, hfault⟩⟩ := hout
    · refine ⟨u, .inl ⟨token, rest, heq, hrej.position_eq, hrej.blames,
        hext heq hrej.extendable, fun w y r hw => hrej.objection w y r hw.1, ?_⟩⟩
      intro hcat
      obtain ⟨w, y, hw, hpre⟩ := hrej.objected hcat
      obtain ⟨v, hv⟩ := ParserState.exists_ahead_cons heq
      exact ⟨w, y, ⟨hw, hbegins rfl (hv ▸ hpre)⟩, hpre⟩
    · exact ⟨u, .inr ⟨heq, hext heq hfault⟩⟩

/-- If no word is empty, only those that begin with what may be ahead matter. -/
theorem Recognizes.of_beginning {first : Lexeme → Prop}
    (h : Recognizes limit starts p erase (L.beginning starts) follows) (hL : L.Starts first) :
    Recognizes limit starts p erase L follows := by
  refine h.widen (fun w x => And.left) ?_
  intro w x r a v hw hr heq ha
  obtain ⟨t, w, rfl, -⟩ := hL w x hw
  obtain ⟨rfl, -⟩ := List.cons.inj heq
  exact ⟨⟨hw, by simpa using ha⟩, hr⟩

/-- Nothing is left to be read in no state, so an exhausted limit does not matter. -/
theorem Recognizes.of_zero : Recognizes 0 starts p erase L follows := by
  intro s hs hlen _
  simp [ParserState.readings] at hlen

/-- What is returned may be looked at in another way. -/
theorem Recognizes.image (h : Recognizes limit starts p erase L follows) (f : γ → ε) :
    Recognizes limit starts p (fun x => f (erase x)) (L.image f) follows := by
  intro s hs hlen hstart
  have hout := h s hs hlen hstart
  have hmono : ∀ {u}, Extendable L u → Extendable (L.image f) u := by
    rintro u ⟨w, x, hw, hplain⟩
    exact ⟨w, f x, ⟨x, hw, rfl⟩, hplain⟩
  cases hps : p s with
  | ok x s' =>
    rw [hps] at hout
    obtain ⟨u, heq, hacc⟩ := hout
    refine ⟨u, heq, ⟨_, hacc.reads, rfl⟩, ?_⟩
    rintro w y r ⟨z, hw, rfl⟩ hr hpre
    obtain ⟨rfl, rfl⟩ := hacc.unique w z r hw hr hpre
    exact ⟨rfl, rfl⟩
  | error fault s' =>
    rw [hps] at hout
    obtain ⟨u, ⟨token, rest, heq, hrej⟩ | ⟨heq, hext⟩⟩ := hout
    · refine ⟨u, .inl ⟨token, rest, heq, hrej.position_eq, hrej.blames,
        hrej.extendable.imp_right hmono, ?_, ?_⟩⟩
      · rintro w y r ⟨x, hw, rfl⟩ hr hpre
        exact hrej.objection w x r hw hr hpre
      · intro hcat
        obtain ⟨w, x, hw, hpre⟩ := hrej.objected hcat
        exact ⟨w, f x, ⟨x, hw, rfl⟩, hpre⟩
    · exact ⟨u, .inr ⟨heq, hext.imp_right hmono⟩⟩

/-- What is returned may be turned into something else. -/
theorem Recognizes.bind_pure {g : β → δ} {erase : δ → γ}
    (h : Recognizes limit starts p (fun x => erase (g x)) L follows) :
    Recognizes limit starts (do return g (← p)) erase L follows := by
  intro s hs hlen hstart
  have hout := h s hs hlen hstart
  show Outcome s erase L follows (EStateM.bind p (fun x => pure (g x)) s)
  unfold EStateM.bind
  cases hps : p s with
  | ok x s' =>
    rw [hps] at hout
    exact hout
  | error fault s' =>
    rw [hps] at hout
    exact hout

/-- Parsers that consume nothing and do not fail read the empty word. -/
theorem Recognizes.of_stay {x : γ}
    (h : ∀ s, ∃ a s', p s = .ok a s' ∧ s'.readings = s.readings ∧ erase a = x) :
    Recognizes limit starts p erase (.ret x) anything := by
  intro s _ _ _
  obtain ⟨a, s', hps, hreadings, hx⟩ := h s
  rw [hps]
  refine ⟨[], by simp [hreadings], ⟨rfl, hx⟩, ?_⟩
  rintro w y r ⟨rfl, rfl⟩ _ _
  exact ⟨rfl, hx.symm⟩

theorem Recognizes.pure {x : β} {y : γ} (h : erase x = y) :
    Recognizes limit starts (pure x) erase (.ret y) anything :=
  .of_stay fun s => ⟨x, s, rfl, rfl, h⟩

/-- Marking a node that is complete. -/
theorem Recognizes.mark_pure {g : Tag → β} {x : γ} (start : UInt32)
    (h : ∀ m, erase (g m) = x) :
    Recognizes limit starts (do return g (← mark start)) erase (.ret x) anything :=
  .of_stay fun s => ⟨_, { s with serial := s.serial + 1 }, rfl, rfl, h _⟩

/-- Remembering where a node starts. -/
theorem Recognizes.here_bind {f : UInt32 → Parser β}
    (h : ∀ start, Recognizes limit starts (f start) erase L follows) :
    Recognizes limit starts (here >>= f) erase L follows :=
  fun s hs hlen hstart => h s.ahead.start s hs hlen hstart

/-! ## One parser after the other -/

section Seq

variable {M : γ → Language ε} {u u₁ u₂ : List Token} {token : Token} {fault : Fault} {x : γ}

theorem Extendable.seq_left [∀ y, (M y).Inhabited] (h : Extendable L u) :
    Extendable (L.seq M) u := by
  obtain ⟨w, x, hw, hplain, hpre⟩ := h
  obtain ⟨v, y, hv, hplain'⟩ := Language.Inhabited.exists_plain (L := M x)
  refine ⟨w ++ v, y, ⟨w, v, x, rfl, hw, hv⟩, by simp [hplain, hplain'], ?_⟩
  rw [spell_append]
  exact hpre.trans (List.prefix_append _ _)

theorem Extendable.seq_right [(M x).Inhabited] (hL : L (wordOf u₁) x)
    (h : u₂ = [] ∨ Extendable (M x) u₂) : Extendable (L.seq M) (u₁ ++ u₂) := by
  obtain ⟨w, y, hw, hplain, hpre⟩ : Extendable (M x) u₂ := by
    rcases h with rfl | h
    · obtain ⟨w, y, hw, hplain⟩ := Language.Inhabited.exists_plain (L := M x)
      exact ⟨w, y, hw, hplain, by simp⟩
    · exact h
  refine ⟨wordOf u₁ ++ w, y, ⟨_, w, _, rfl, hL, hw⟩, by simp [hplain, allPlain_wordOf], ?_⟩
  rw [List.map_append, spell_append, spell_wordOf, List.prefix_append_right_inj]
  exact hpre

/-- Once something has been read on, the first word is known. -/
theorem Accepted.exists_split {s : ParserState} {rest : List Reading}
    (h : Accepted L middle u₁ s.ahead.lexeme x) (hleads : ∀ y, (M y).Leads follows middle)
    (heq : s.readings = u₂.map .ok ++ .ok token :: rest)
    {w : List Terminal} {y : ε} {r : List Lexeme} (hw : (L.seq M) w y)
    (hr : BeginsWith follows r)
    (hpre : (u₁ ++ u₂).map Token.lexeme ++ [token.lexeme] <+: spell w ++ r) :
    ∃ v, w = wordOf u₁ ++ v ∧ M x v y ∧
      u₂.map Token.lexeme ++ [token.lexeme] <+: spell v ++ r := by
  obtain ⟨w₁, w₂, x', rfl, hw₁, hw₂⟩ := hw
  obtain ⟨v, hv⟩ := ParserState.exists_ahead_cons heq
  rw [List.map_append, List.append_assoc, spell_append, List.append_assoc] at hpre
  have hpre₁ := hpre
  rw [hv] at hpre₁
  obtain ⟨rfl, rfl⟩ := h.unique w₁ x' _ hw₁ (hleads x' w₂ y r hw₂ hr) (head_isPrefix hpre₁)
  rw [spell_wordOf, List.prefix_append_right_inj] at hpre
  exact ⟨w₂, rfl, hw₂, hpre⟩

theorem Accepted.seq {s s' : ParserState} {y : ε}
    (h₁ : Accepted L middle u₁ s.ahead.lexeme x) (hleads : ∀ y, (M y).Leads follows middle)
    (heq : s.readings = u₂.map .ok ++ s'.readings)
    (h₂ : Accepted (M x) follows u₂ s'.ahead.lexeme y) :
    Accepted (L.seq M) follows (u₁ ++ u₂) s'.ahead.lexeme y where
  reads := by
    rw [wordOf_append]
    exact ⟨_, _, _, rfl, h₁.reads, h₂.reads⟩
  unique w y' r hw hr hpre := by
    obtain ⟨v, rfl, hv, hpre₂⟩ := h₁.exists_split hleads heq hw hr hpre
    obtain ⟨rfl, rfl⟩ := h₂.unique v y' r hv hr hpre₂
    exact ⟨(wordOf_append u₁ u₂).symm, rfl⟩

theorem Rejected.seq_left [∀ y, (M y).Inhabited] (h : Rejected L middle u token fault)
    (hleads : ∀ y, (M y).Leads follows middle) :
    Rejected (L.seq M) follows u token fault where
  position_eq := h.position_eq
  blames := h.blames
  extendable := h.extendable.imp_right .seq_left
  objection := by
    rintro w y r ⟨w₁, w₂, x, rfl, hw₁, hw₂⟩ hr hpre
    rw [spell_append, List.append_assoc] at hpre
    obtain ⟨o, ho, hcause⟩ := h.objection w₁ x _ hw₁ (hleads x w₂ y r hw₂ hr) hpre
    refine ⟨o, ?_, hcause⟩
    rw [List.getElem?_append_left (List.getElem?_eq_some_iff.1 ho).1, ho]
  objected hcat := by
    obtain ⟨w, x, hw, hpre⟩ := h.objected hcat
    obtain ⟨v, y, hv, -⟩ := Language.Inhabited.exists_plain (L := M x)
    refine ⟨w ++ v, y, ⟨w, v, x, rfl, hw, hv⟩, ?_⟩
    rw [spell_append]
    exact hpre.trans (List.prefix_append _ _)

theorem Rejected.seq_right [(M x).Inhabited] {s : ParserState} {rest : List Reading}
    (h₁ : Accepted L middle u₁ s.ahead.lexeme x)
    (hleads : ∀ y, (M y).Leads follows middle)
    (heq : s.readings = u₂.map .ok ++ .ok token :: rest)
    (h₂ : Rejected (M x) follows u₂ token fault) :
    Rejected (L.seq M) follows (u₁ ++ u₂) token fault where
  position_eq := h₂.position_eq
  blames := h₂.blames
  extendable := .inr (.seq_right h₁.reads h₂.extendable)
  objection w y r hw hr hpre := by
    obtain ⟨v, rfl, hv, hpre₂⟩ := h₁.exists_split hleads heq hw hr hpre
    obtain ⟨o, ho, hcause⟩ := h₂.objection v y r hv hr hpre₂
    refine ⟨o, ?_, hcause⟩
    rw [List.getElem?_append_right (by simp)]
    simpa using ho
  objected hcat := by
    obtain ⟨w, y, hw, hpre⟩ := h₂.objected hcat
    refine ⟨wordOf u₁ ++ w, y, ⟨_, w, _, rfl, h₁.reads, hw⟩, ?_⟩
    rw [List.map_append, List.append_assoc, spell_append, spell_wordOf,
      List.prefix_append_right_inj]
    exact hpre

end Seq

/-- One parser after the other.  What follows the first word must not go on with
it. -/
theorem Recognizes.bind {f : β → Parser δ} {erase' : δ → ε} {M : γ → Language ε}
    [∀ y, (M y).Inhabited] {m : Nat}
    (hp : Recognizes limit starts p erase L middle)
    (hf : ∀ x, Recognizes m anything (f x) erase' (M (erase x)) follows)
    (hlimit : ∀ w y, L w y → limit ≤ m + w.length)
    (hleads : ∀ y, (M y).Leads follows middle) :
    Recognizes limit starts (p >>= f) erase' (L.seq M) follows := by
  intro s hs hlen hstart
  have hout := hp s hs hlen hstart
  show Outcome s erase' (L.seq M) follows (EStateM.bind p f s)
  unfold EStateM.bind
  cases hps : p s with
  | error fault s₁ =>
    rw [hps] at hout
    obtain ⟨u, ⟨token, rest, heq, hrej⟩ | ⟨heq, hext⟩⟩ := hout
    · exact ⟨u, .inl ⟨token, rest, heq, hrej.seq_left hleads⟩⟩
    · exact ⟨u, .inr ⟨heq, hext.imp_right .seq_left⟩⟩
  | ok x s₁ =>
    rw [hps] at hout
    obtain ⟨u₁, heq₁, hacc₁⟩ := hout
    have hs₁ : IsStream s₁.readings :=
      IsStream.of_append (heq₁ ▸ hs) (by simp [ParserState.readings])
    have hlen₁ : s₁.readings.length ≤ m := by
      have h₁ := hlimit _ _ hacc₁.reads
      have h₂ := congrArg List.length heq₁
      simp only [length_wordOf, List.length_append, List.length_map] at h₁ h₂
      omega
    have hout₂ := hf x s₁ hs₁ hlen₁ trivial
    show Outcome s erase' (L.seq M) follows (f x s₁)
    cases hfs : f x s₁ with
    | ok y s₂ =>
      rw [hfs] at hout₂
      obtain ⟨u₂, heq₂, hacc₂⟩ := hout₂
      exact ⟨u₁ ++ u₂, by rw [heq₁, heq₂, List.map_append, List.append_assoc],
        hacc₁.seq hleads heq₂ hacc₂⟩
    | error fault s₂ =>
      rw [hfs] at hout₂
      obtain ⟨u₂, ⟨token, rest, heq₂, hrej⟩ | ⟨heq₂, hext⟩⟩ := hout₂
      · exact ⟨u₁ ++ u₂, .inl ⟨token, rest,
          by rw [heq₁, heq₂, List.map_append, List.append_assoc],
          .seq_right hacc₁ hleads heq₂ hrej⟩⟩
      · exact ⟨u₁ ++ u₂, .inr ⟨by rw [heq₁, heq₂, List.map_append, List.append_assoc],
          .inr (.seq_right hacc₁.reads hext)⟩⟩

/-- One parser after the other, where anything may follow the first word. -/
theorem Recognizes.bind_anything {f : β → Parser δ} {erase' : δ → ε} {M : γ → Language ε}
    [∀ y, (M y).Inhabited] (hp : Recognizes limit starts p erase L anything)
    (hf : ∀ x, Recognizes limit anything (f x) erase' (M (erase x)) follows) :
    Recognizes limit starts (p >>= f) erase' (L.seq M) follows :=
  .bind hp hf (fun _ _ _ => Nat.le_add_right ..) fun _ => .of_anything _

/-- One parser after the other, where what follows the first word cannot go on with
it. -/
theorem Recognizes.bind_leads {f : β → Parser δ} {erase' : δ → ε} {M : γ → Language ε}
    [∀ y, (M y).Inhabited] (hp : Recognizes limit starts p erase L middle)
    (hf : ∀ x, Recognizes limit anything (f x) erase' (M (erase x)) follows)
    (hleads : ∀ y, (M y).Leads follows middle) :
    Recognizes limit starts (p >>= f) erase' (L.seq M) follows :=
  .bind hp hf (fun _ _ _ => Nat.le_add_right ..) hleads

/-- Once a particular lexeme has been read, there is one reading less. -/
theorem Recognizes.symbol_bind {l : Lexeme} {f : β → Parser δ} {erase' : δ → ε}
    {erase : β → Unit} {M : Unit → Language ε} [∀ y, (M y).Inhabited]
    (hp : Recognizes (limit + 1) starts p erase (.symbol l) anything)
    (hf : ∀ x, Recognizes limit anything (f x) erase' (M ()) follows) :
    Recognizes (limit + 1) starts (p >>= f) erase' ((Language.symbol l).seq M) follows := by
  refine .bind hp hf ?_ fun _ => .of_anything _
  rintro w x rfl
  simp

/-- Going on after either of two parsers. -/
theorem ite_bind (test : Bool) (p q : Parser β) (f : β → Parser δ) :
    ((if test then p else q) >>= f) = if test then p >>= f else q >>= f := by
  cases test <;> rfl

/-! ## Looking ahead -/

/-- A parser may look at the token ahead first. -/
theorem Recognizes.peek_bind {f : Token → Parser β}
    (h : ∀ token, starts token.lexeme →
      Recognizes limit (· = token.lexeme) (f token) erase L follows) :
    Recognizes limit starts (peek >>= f) erase L follows :=
  fun s hs hlen hstart => h s.ahead hstart s hs hlen rfl

/-- A parser may branch on the token ahead. -/
theorem Recognizes.ite {test : Bool} {q : Parser β}
    (hp : test = true → Recognizes limit starts p erase L follows)
    (hq : test = false → Recognizes limit starts q erase L follows) :
    Recognizes limit starts (if test then p else q) erase L follows := by
  cases test with
  | true => exact hp rfl
  | false => exact hq rfl

/-- A parser may branch on a test that changes nothing of what is left to be read. -/
theorem Recognizes.ite_stay {kind : TokenKind} {test : Parser Bool} {q : Parser β}
    (htest : ∀ s : ParserState, IsStream s.readings →
      ∃ s', test s = .ok (s.ahead.kind == kind) s' ∧ s'.readings = s.readings)
    (hp : Recognizes limit (fun x => starts x ∧ x.kind = kind) p erase L follows)
    (hq : Recognizes limit (fun x => starts x ∧ x.kind ≠ kind) q erase L follows) :
    Recognizes limit starts (do if ← test then p else q) erase L follows := by
  intro s hs hlen hstart
  obtain ⟨s', heq, hreadings⟩ := htest s hs
  have hahead : s'.ahead = s.ahead := by
    simpa [ParserState.readings] using congrArg List.head? hreadings
  have hbranch : (do if ← test then p else q : Parser β) s =
      (if s'.ahead.kind == kind then p else q) s' := by
    show EStateM.bind test _ s = _
    simp only [EStateM.bind, heq, hahead]
  have houtcome : ∀ out, Outcome s' erase L follows out → Outcome s erase L follows out := by
    intro out h
    cases out <;> simpa only [Outcome, hreadings] using h
  rw [hbranch]
  rw [← hreadings] at hs hlen
  rw [← hahead] at hstart
  by_cases hkind : s'.ahead.kind = kind
  · rw [if_pos (by simpa using hkind)]
    exact houtcome _ (hp s' hs hlen ⟨hstart, hkind⟩)
  · rw [if_neg (by simpa using hkind)]
    exact houtcome _ (hq s' hs hlen ⟨hstart, hkind⟩)

theorem Recognizes.ite_sees {kind : TokenKind} {q : Parser β}
    (hp : Recognizes limit (fun x => starts x ∧ x.kind = kind) p erase L follows)
    (hq : Recognizes limit (fun x => starts x ∧ x.kind ≠ kind) q erase L follows) :
    Recognizes limit starts (do if ← sees kind then p else q) erase L follows :=
  .ite_stay (fun s _ => ⟨s, rfl, rfl⟩) hp hq

theorem Recognizes.ite_seesKeyword {word : String} {q : Parser β}
    (hp : Recognizes limit (fun x => starts x ∧ x = .ofName word) p erase L follows)
    (hq : Recognizes limit (fun x => starts x ∧ x ≠ .ofName word) q erase L follows) :
    Recognizes limit starts (do if ← seesKeyword word then p else q) erase L follows := by
  intro s hs hlen hstart
  show Outcome s erase L follows ((if s.ahead.lexeme.isKeyword word then p else q) s)
  by_cases hword : s.ahead.lexeme = .ofName word
  · rw [if_pos (Lexeme.isKeyword_iff.2 hword)]
    exact hp s hs hlen ⟨hstart, hword⟩
  · rw [if_neg (mt Lexeme.isKeyword_iff.1 hword)]
    exact hq s hs hlen ⟨hstart, hword⟩

/-- A parser may look at the kind of the token ahead first. -/
theorem Recognizes.sees_bind {kind : TokenKind} {f : Bool → Parser β}
    (h : ∀ b, Recognizes limit (fun x => starts x ∧ (x.kind == kind) = b) (f b) erase L follows) :
    Recognizes limit starts (sees kind >>= f) erase L follows :=
  fun s hs hlen hstart => h _ s hs hlen ⟨hstart, rfl⟩

/-- A parser may look first whether the token ahead is a keyword. -/
theorem Recognizes.seesKeyword_bind {word : String} {f : Bool → Parser β}
    (h : ∀ b, Recognizes limit (fun x => starts x ∧ x.isKeyword word = b) (f b) erase L follows) :
    Recognizes limit starts (seesKeyword word >>= f) erase L follows :=
  fun s hs hlen hstart => h _ s hs hlen ⟨hstart, rfl⟩

/-- A parser fails rightly if no word begins with what is ahead, or only words to
which just this objection is raised. -/
theorem Recognizes.fail {cause : Lexeme → Cause}
    (hblames : ∀ x, starts x → x.IsProper → Blames (cause x) x)
    (hobjection : ∀ w y r x v, L w y → BeginsWith follows r → spell w ++ r = x :: v →
      starts x → ∃ o : Objection, w[0]? = some ⟨x, some o⟩ ∧ cause x = o.cause)
    (hobjected : ∀ x, starts x → x.IsProper → (cause x).category ≠ .unexpectedToken →
      ∃ t w y, L (t :: w) y ∧ t.lexeme = x) :
    Recognizes limit starts (fail cause) erase L follows := by
  intro s hs hlen hstart
  have hproper : s.ahead.lexeme.IsProper := hs.isProper
  refine ⟨[], .inl ⟨s.ahead, s.upcoming, rfl, rfl, hblames _ hstart hproper, .inl rfl, ?_, ?_⟩⟩
  · rintro w y r hw hr ⟨v, hv⟩
    exact hobjection w y r _ v hw hr hv.symm hstart
  · intro hcat
    obtain ⟨t, w, y, hw, ht⟩ := hobjected _ hstart hproper hcat
    exact ⟨t :: w, y, hw, by simp [ht]⟩

/-- Nothing comes after a failure. -/
theorem fail_bind (cause : Lexeme → Cause) (f : β → Parser δ) :
    (ParserCore.fail cause >>= f) = (ParserCore.fail cause : Parser δ) :=
  rfl

/-- A parser fails rightly at a token with which no word begins. -/
theorem Recognizes.fail_unexpected {cause : Lexeme → Cause}
    (hcause : ∀ x, Blames (cause x) x ∧ (cause x).category = .unexpectedToken)
    (hnone : ∀ w y r x v, L w y → BeginsWith follows r → spell w ++ r = x :: v → ¬ starts x) :
    Recognizes limit starts (Parser.fail cause) erase L follows := by
  refine .fail (fun x _ _ => (hcause x).1) ?_ (fun x _ _ h => absurd (hcause x).2 h)
  intro w y r x v hw hr heq hx
  exact absurd hx (hnone w y r x v hw hr heq)

theorem Recognizes.unexpected
    (hnone : ∀ w y r x v, L w y → BeginsWith follows r → spell w ++ r = x :: v → ¬ starts x) :
    Recognizes limit starts unexpected erase L follows :=
  .fail_unexpected (fun x => ⟨.unexpected x, rfl⟩) hnone

theorem Recognizes.unexpected_of_starts {first : Lexeme → Prop} (hL : L.Starts first)
    (hfirst : ∀ x, first x → ¬ starts x) :
    Recognizes limit starts Parser.unexpected erase L follows := by
  refine .unexpected ?_
  intro w y r x v hw _ heq
  obtain ⟨t, w, rfl, ht⟩ := hL w y hw
  obtain ⟨rfl, -⟩ := List.cons.inj heq
  exact hfirst _ ht

/-! ## Consuming a token -/

theorem get_bind (f : ParserState → Parser β) (s : ParserState) : (get >>= f) s = f s s :=
  rfl

theorem advance_eq_last {s : ParserState} (h : s.upcoming = []) :
    advance s = .ok s.ahead { s with lastStop := s.ahead.stop } := by
  rw [advance, get_bind, h]
  rfl

theorem advance_eq_ok {s : ParserState} {next : Token} {rest : List Reading}
    (h : s.upcoming = .ok next :: rest) :
    advance s =
      .ok s.ahead { s with ahead := next, upcoming := rest, lastStop := s.ahead.stop } := by
  rw [advance, get_bind, h]
  rfl

theorem advance_eq_error {s : ParserState} {fault : Fault} {rest : List Reading}
    (h : s.upcoming = .error fault :: rest) : advance s = .error fault s := by
  rw [advance, get_bind, h]
  rfl

/-- Consuming reads the token ahead, whatever it is. -/
theorem Recognizes.advance (hstarts : ∀ x, starts x → x.kind ≠ .eof) :
    Recognizes limit starts advance Token.lexeme (.lexeme starts) anything := by
  intro s hs _ hstart
  obtain ⟨heof, -⟩ | ⟨-, hproper, hrest⟩ := hs.of_ok_cons
  · exact absurd (by rw [heof]; rfl) (hstarts _ hstart)
  have hreads : Language.lexeme starts (wordOf [s.ahead]) s.ahead.lexeme :=
    ⟨rfl, hstart, hproper⟩
  cases hnext : s.upcoming with
  | nil => exact absurd hnext hrest.ne_nil
  | cons reading rest =>
    cases reading with
    | ok next =>
      rw [advance_eq_ok hnext]
      refine ⟨[s.ahead], by simp [ParserState.readings, hnext], hreads, ?_⟩
      rintro w y r ⟨rfl, -, -⟩ - ⟨v, hv⟩
      have h : y = s.ahead.lexeme := by
        simp only [List.map_cons, List.map_nil, List.cons_append, spell_cons,
          Terminal.lexeme_plain, List.cons.injEq] at hv
        exact hv.1.symm
      exact ⟨by rw [h]; rfl, h⟩
    | error fault =>
      have hnil : rest = [] := by
        rw [hnext] at hrest
        cases hrest
        rfl
      rw [advance_eq_error hnext]
      refine ⟨[s.ahead], .inr ⟨?_, .inr ⟨_, _, hreads, allPlain_wordOf _, by simp⟩⟩⟩
      simp [ParserState.readings, hnext, hnil]

/-- Consuming reads a particular lexeme if no other one can be ahead. -/
theorem Recognizes.advance_symbol {x : Lexeme} (hx : x.IsProper) (heof : x.kind ≠ .eof)
    (hstarts : ∀ y, starts y → y.IsProper → y = x) :
    Recognizes limit starts Parser.advance (fun _ => ()) (.symbol x) anything := by
  have hread : Recognizes limit (fun y => starts y ∧ y = x) Parser.advance (fun _ => ())
      (.symbol x) anything := by
    have hadvance : Recognizes limit (fun y => starts y ∧ y = x) Parser.advance
        Token.lexeme (.lexeme fun y => starts y ∧ y = x) anything :=
      .advance fun y hy => hy.2 ▸ heof
    refine (hadvance.image fun _ => ()).widen ?_ ?_
    · rintro w - ⟨y, ⟨rfl, ⟨-, rfl⟩, -⟩, -⟩
      rfl
    · rintro w - r a v rfl - heq ⟨ha, rfl⟩
      exact ⟨⟨_, ⟨rfl, ⟨ha, rfl⟩, hx⟩, rfl⟩, by simp⟩
  exact fun s hs hlen hstart =>
    hread s hs hlen ⟨hstart, hstarts _ hstart hs.isProper⟩

theorem skipEnd_of_ne {s : ParserState} (h : s.ahead.kind ≠ .eof) :
    (skipEnd : Parser Bool) s = .ok false s := by
  show (if s.ahead.kind == .eof then (do let _ ← Parser.advance; return true) else return false :
    Parser Bool) s = _
  rw [if_neg (by simpa using h)]
  rfl

/-- The end is consumed without anything coming in its place. -/
theorem skipEnd_of_eof {s : ParserState} (hkind : s.ahead.kind = .eof)
    (hnil : s.upcoming = []) :
    (skipEnd : Parser Bool) s = .ok true { s with lastStop := s.ahead.stop } := by
  show (if s.ahead.kind == .eof then (do let _ ← Parser.advance; return true) else return false :
    Parser Bool) s = _
  rw [if_pos (by simpa using hkind)]
  show EStateM.bind Parser.advance _ s = _
  simp only [EStateM.bind, advance_eq_last hnil]
  rfl

/-- The end stays ahead however often it is consumed. -/
theorem skipEnd_stays {s : ParserState} (hs : IsStream s.readings) :
    ∃ s', (skipEnd : Parser Bool) s = .ok (s.ahead.kind == .eof) s' ∧
      s'.readings = s.readings := by
  obtain ⟨heof, hnil⟩ | ⟨hkind, -⟩ := hs.of_ok_cons
  · have hkind : s.ahead.kind = .eof := congrArg Lexeme.kind heof
    exact ⟨{ s with lastStop := s.ahead.stop }, by rw [skipEnd_of_eof hkind hnil, hkind]; rfl,
      rfl⟩
  · exact ⟨s, by rw [skipEnd_of_ne hkind, beq_eq_false_iff_ne.2 hkind], rfl⟩

/-- Requiring a token of a certain kind reads any such token. -/
theorem Recognizes.expect {kind : TokenKind} (heof : kind ≠ .eof) :
    Recognizes limit starts (Parser.expect kind) id (.lexeme (·.kind = kind)) anything := by
  refine .ite_sees (.bind_pure ?_)
    (.fail_unexpected (fun x => ⟨.expectedKind kind x, rfl⟩) ?_)
  · have hadvance : Recognizes limit (fun x => starts x ∧ x.kind = kind) Parser.advance
        Token.lexeme (.lexeme fun x => starts x ∧ x.kind = kind) anything :=
      .advance fun x hx => hx.2 ▸ heof
    refine hadvance.widen ?_ ?_
    · rintro w x ⟨rfl, ⟨-, hkind⟩, hproper⟩
      exact ⟨rfl, hkind, hproper⟩
    · rintro w x r a v ⟨rfl, hkind, hproper⟩ - heq ⟨ha, -⟩
      obtain ⟨rfl, -⟩ := List.cons.inj heq
      exact ⟨⟨rfl, ⟨ha, hkind⟩, hproper⟩, by simp⟩
  · rintro w x r a v ⟨rfl, hkind, -⟩ - heq ⟨-, ha⟩
    obtain ⟨rfl, -⟩ := List.cons.inj heq
    exact ha hkind

/-- Requiring a punctuator reads it. -/
theorem Recognizes.expect_bare {kind : TokenKind} (heof : kind ≠ .eof)
    (hvalue : kind.hasValue = false) :
    Recognizes limit starts (Parser.expect kind) (fun _ => ()) (.symbol (.bare kind))
      anything := by
  refine .ite_sees (.bind_pure (.advance_symbol ?_ heof ?_))
    (.fail_unexpected (fun x => ⟨.expectedKind kind x, rfl⟩) ?_)
  · exact Lexeme.isProper_bare hvalue
  · rintro y ⟨-, rfl⟩ hy
    exact hy.eq_bare hvalue
  · rintro w x r a v rfl - heq ⟨-, ha⟩
    obtain ⟨rfl, -⟩ := List.cons.inj heq
    exact ha rfl

/-- Requiring a keyword reads it. -/
theorem Recognizes.expectKeyword {word : String} (hword : isName word = true) :
    Recognizes limit starts (Parser.expectKeyword word) (fun _ => ()) (.symbol (.ofName word))
      anything := by
  refine .ite_seesKeyword (.bind_pure (.advance_symbol hword (by simp) ?_))
    (.fail_unexpected (fun x => ⟨.expectedKeyword hword x, rfl⟩) ?_)
  · rintro y ⟨-, rfl⟩ -
    rfl
  · rintro w x r a v rfl - heq ⟨-, ha⟩
    obtain ⟨rfl, -⟩ := List.cons.inj heq
    exact ha rfl

/-- Consuming a token of a kind if it is ahead, and going on accordingly. -/
theorem Recognizes.ite_skip {kind : TokenKind} {q : Parser β}
    (hp : Recognizes limit (fun x => starts x ∧ x.kind = kind)
      (do let _ ← Parser.advance; p) erase L follows)
    (hq : Recognizes limit (fun x => starts x ∧ x.kind ≠ kind) q erase L follows) :
    Recognizes limit starts (do if ← skip kind then p else q) erase L follows := by
  rw [ite_skip_eq]
  exact .ite_sees hp hq

/-- Going on after a punctuator if it is ahead, and without it otherwise. -/
theorem Recognizes.ite_skip_union {kind : TokenKind} {q : Parser β} {M : Language γ}
    {follows' follows'' : Lexeme → Prop} [L.Inhabited]
    (heof : kind ≠ .eof) (hvalue : kind.hasValue = false)
    (hp : Recognizes (limit - 1) anything p erase L follows')
    (hq : Recognizes limit (fun x => starts x ∧ x.kind ≠ kind) q erase M follows'')
    (hf : ∀ x, follows x → follows' x ∧ follows'' x)
    (hM : M.Leads follows (·.kind ≠ kind)) :
    Recognizes limit starts (do if ← skip kind then p else q) erase
      (((Language.symbol (.bare kind)).seq fun _ => L).union M) follows := by
  cases limit with
  | zero => exact .of_zero
  | succ limit =>
    refine .ite_skip ?_ ?_
    · have hseq : Recognizes (limit + 1) (fun x => starts x ∧ x.kind = kind)
          (do let _ ← Parser.advance; p) erase
          ((Language.symbol (.bare kind)).seq fun _ => L) follows' := by
        refine .symbol_bind (.advance_symbol (Lexeme.isProper_bare hvalue) heof ?_) fun _ => hp
        rintro x ⟨-, rfl⟩ hx
        exact hx.eq_bare hvalue
      exact hseq.union_left (fun x hx => (hf x hx).1)
        (hM.mono (fun _ => id) fun _ hne hx => hne hx.2)
    · refine hq.union_right (fun x hx => (hf x hx).2) (.of_starts (.seq (.symbol _)) ?_)
      rintro _ rfl ⟨-, hne⟩
      exact hne rfl

end Parser

end GraphQLSyntax
