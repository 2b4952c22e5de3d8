import GraphQLSyntax.Parsing
import GraphQLSyntax.Proofs.Recognition.Basic

/-!
# Running a parser on a whole stream

A parser of documents is run on everything that reading a source yields.  If it
recognizes a language and does not return before the end, then what it returns is
what all the tokens are read as, and if it fails, the fault is at one of the tokens,
at the end, or the very fault that ended the stream.
-/

namespace GraphQLSyntax

theorem eq_error_of_map {ε α β : Type} {x : Except ε α} {f : α → β} {e : ε}
    (h : x.map f = .error e) : x = .error e := by
  cases x with
  | error e' => exact congrArg Except.error (Except.error.inj h)
  | ok a => cases h

theorem exists_eq_ok_of_map {ε α β : Type} {x : Except ε α} {f : α → β} {b : β}
    (h : x.map f = .ok b) : ∃ a, x = .ok a ∧ f a = b := by
  cases x with
  | error e => cases h
  | ok a => exact ⟨a, rfl, Except.ok.inj h⟩

end GraphQLSyntax

namespace GraphQLSyntax.Parser

variable {β γ δ : Type}

/-- A parser that returns with nothing but the end ahead. -/
def ReturnsAtEnd (limit : Nat) (p : Parser β) : Prop :=
  ∀ s x s', IsStream s.readings → s.readings.length ≤ limit → p s = .ok x s' →
    s'.ahead.kind = .eof

theorem bind_eq_ok {p : Parser β} {f : β → Parser γ} {s s₂ : ParserState} {y : γ}
    (h : (p >>= f) s = .ok y s₂) : ∃ x s₁, p s = .ok x s₁ ∧ f x s₁ = .ok y s₂ := by
  change EStateM.bind p f s = _ at h
  unfold EStateM.bind at h
  cases hps : p s with
  | ok x s₁ => exact ⟨x, s₁, rfl, by simpa [hps] using h⟩
  | error fault s₁ => simp [hps] at h

theorem Recognizes.isStream {limit : Nat} {p : Parser β} {erase : β → γ} {L : Language γ}
    {follows : Lexeme → Prop} (h : Recognizes limit anything p erase L follows)
    {s s' : ParserState} {x : β} (hs : IsStream s.readings) (hlen : s.readings.length ≤ limit)
    (hps : p s = .ok x s') :
    IsStream s'.readings ∧ s'.readings.length ≤ limit := by
  have hout := h s hs hlen trivial
  rw [hps] at hout
  obtain ⟨u, heq, -⟩ := hout
  rw [heq] at hs hlen
  simp only [List.length_append, List.length_map] at hlen
  exact ⟨hs.of_append (by simp [ParserState.readings]), by omega⟩

/-- Items are read until nothing else is left. -/
theorem untilEnd_returnsAtEnd {n limit : Nat} {item : Parser β} {erase : β → γ} {L : Language γ}
    {follows : Lexeme → Prop} (hitem : Recognizes n anything item erase L follows) :
    ReturnsAtEnd n (untilEnd item limit) := by
  intro s xs s' hs hlen hrun
  induction limit generalizing s xs with
  | zero => cases hrun
  | succ limit ih =>
    obtain ⟨x, s₁, hx, hrun⟩ := bind_eq_ok hrun
    obtain ⟨hs₁, hlen₁⟩ := hitem.isStream hs hlen hx
    obtain ⟨s₂, hskip, heq⟩ := skipEnd_stays hs₁
    obtain ⟨_, _, hskip', hrun⟩ := bind_eq_ok hrun
    rw [hskip] at hskip'
    cases hskip'
    have hahead : s₂.ahead = s₁.ahead := by
      simpa using (List.cons.inj heq).1
    split at hrun
    · rename_i hkind
      cases hrun
      rw [hahead]
      exact beq_iff_eq.1 hkind
    · obtain ⟨ys, s₃, hys, hrun⟩ := bind_eq_ok hrun
      cases hrun
      exact ih s₂ ys (heq ▸ hs₁) (heq ▸ hlen₁) hys

/-- Tagging a node reads nothing. -/
theorem ReturnsAtEnd.marked {limit : Nat} {p : Parser β} (h : ReturnsAtEnd limit p)
    (f : β → Tag → δ) :
    ReturnsAtEnd limit (do
      let start ← here
      let x ← p
      return f x (← mark start)) := by
  intro s y s' hs hlen hrun
  obtain ⟨start, s₁, hstart, hrun⟩ := bind_eq_ok hrun
  cases hstart
  obtain ⟨x, s₂, hx, hrun⟩ := bind_eq_ok hrun
  obtain ⟨m, s₃, hm, hrun⟩ := bind_eq_ok hrun
  cases hm
  cases hrun
  exact h s x s₂ hs hlen hx

/-- How two ways to cut a stream in pieces go together. -/
theorem cut_eq {u ts : List Token} {token : Token} {rest : List Reading} {last : Reading}
    (h : ts.map Except.ok ++ [last] = u.map .ok ++ .ok token :: rest) :
    (u = ts ∧ last = .ok token) ∨
      ∃ hk : u.length < ts.length, u = ts.take u.length ∧ token = ts[u.length] ∧ rest ≠ [] := by
  induction u generalizing ts with
  | nil =>
    cases ts with
    | nil => simp_all
    | cons t ts =>
      obtain ⟨hhead, hrest⟩ := List.cons.inj h
      exact .inr ⟨Nat.succ_pos _, rfl, (Except.ok.inj hhead).symm, by simp [← hrest]⟩
  | cons t u ih =>
    cases ts with
    | nil => simp at h
    | cons t' ts =>
      obtain ⟨hhead, htail⟩ := List.cons.inj h
      obtain rfl := Except.ok.inj hhead
      obtain ⟨rfl, rfl⟩ | ⟨hk, htake, htoken, hrest⟩ := ih htail
      · exact .inl ⟨rfl, rfl⟩
      · exact .inr ⟨Nat.succ_lt_succ hk, congrArg (t' :: ·) htake, htoken, hrest⟩

section Run

variable {p : Nat → Parser β} {erase : β → γ} {L : Language γ} {ts : List Token} {last : Reading}
variable {source : Source} {options : ParseOptions}

/-- The outcome of a run is that of the parser in its first state. -/
theorem exists_outcome_of_run (hrec : ∀ n, Recognizes n anything (p n) erase L (·.kind = .eof))
    {ahead : Token} {upcoming : List Reading} (hs : IsStream (.ok ahead :: upcoming)) :
    ∃ n s, s.readings = .ok ahead :: upcoming ∧ s.readings.length ≤ n ∧
      Outcome s erase L (·.kind = .eof) (p n s) ∧
      run p source options (.ok ahead :: upcoming) =
        match p n s with
        | .ok x _ => .ok x
        | .error fault _ => .error fault := by
  refine ⟨_, { source, options, ahead, upcoming }, rfl, ?_, hrec _ _ hs ?_ trivial, rfl⟩ <;>
    simp [ParserState.readings]

/-- The document that is returned is what all the tokens are read as. -/
theorem run_eq_ok (hrec : ∀ n, Recognizes n anything (p n) erase L (·.kind = .eof))
    (hend : ∀ n, ReturnsAtEnd n (p n)) (hs : IsStream (ts.map .ok ++ [last])) {x : β}
    (hrun : run p source options (ts.map .ok ++ [last]) = .ok x) :
    ∃ token, last = .ok token ∧ token.kind = .eof ∧
      Accepted L (·.kind = .eof) ts token.lexeme (erase x) := by
  generalize hreadings : ts.map Except.ok ++ [last] = readings at hs hrun
  rcases readings with _ | ⟨fault | ahead, upcoming⟩
  · cases hrun
  · cases hrun
  · obtain ⟨n, s, hstart, hlen, hout, hp⟩ := exists_outcome_of_run hrec hs
    rw [hp] at hrun
    cases hps : p n s with
    | error fault s' => simp [hps] at hrun
    | ok y s' =>
      rw [hps] at hout hrun
      cases hrun
      obtain ⟨u, heq, hacc⟩ := hout
      rw [← hstart] at hs hreadings
      have hkind := hend n s x s' hs hlen hps
      obtain ⟨rfl, rfl⟩ | ⟨-, -, -, hrest⟩ := cut_eq (hreadings.trans heq)
      · exact ⟨_, rfl, hkind, hacc⟩
      · -- The end is ahead, so nothing comes after it.
        obtain ⟨hs', -⟩ := (hrec n).isStream hs hlen hps
        obtain ⟨-, hnil⟩ | ⟨hne, -⟩ := hs'.of_ok_cons
        · exact absurd hnil hrest
        · exact absurd hkind hne

/-- A fault is reported at one of the tokens, at the end, or it is the one that ended
the stream. -/
theorem run_eq_error (hrec : ∀ n, Recognizes n anything (p n) erase L (·.kind = .eof))
    (hs : IsStream (ts.map .ok ++ [last])) {fault : Fault}
    (hrun : run p source options (ts.map .ok ++ [last]) = .error fault) :
    (∃ k, ∃ hk : k < ts.length, Rejected L (·.kind = .eof) (ts.take k) ts[k] fault) ∨
      (∃ token, last = .ok token ∧ Rejected L (·.kind = .eof) ts token fault) ∨
      (last = .error fault ∧ (ts = [] ∨ Extendable L ts)) := by
  generalize hreadings : ts.map Except.ok ++ [last] = readings at hs hrun
  rcases readings with _ | ⟨fault' | ahead, upcoming⟩
  · simp at hreadings
  · cases hrun
    cases ts with
    | nil => exact .inr (.inr ⟨(List.cons.inj hreadings).1, .inl rfl⟩)
    | cons t ts => simp at hreadings
  · obtain ⟨n, s, hstart, hlen, hout, hp⟩ := exists_outcome_of_run hrec hs
    rw [hp] at hrun
    rw [← hstart] at hreadings
    cases hps : p n s with
    | ok y s' => simp [hps] at hrun
    | error fault' s' =>
      rw [hps] at hout hrun
      cases hrun
      obtain ⟨u, ⟨token, rest, heq, hrej⟩ | ⟨heq, hext⟩⟩ := hout
      · obtain ⟨rfl, rfl⟩ | ⟨hk, htake, rfl, -⟩ := cut_eq (hreadings.trans heq)
        · exact .inr (.inl ⟨token, rfl, hrej⟩)
        · exact .inl ⟨u.length, hk, htake ▸ hrej⟩
      · obtain ⟨hts, hlast⟩ := List.append_inj' (hreadings.trans heq) rfl
        obtain rfl : ts = u := (List.map_inj_right fun _ _ => Except.ok.inj).1 hts
        exact .inr (.inr ⟨by simpa using hlast, hext⟩)

/-- No word without objections goes on with a token that is rejected. -/
theorem Rejected.not_isPrefix {follows : Lexeme → Prop} {u : List Token} {token : Token}
    {fault : Fault} (h : Rejected L follows u token fault) {w : List Terminal} {y : γ}
    {r : List Lexeme} (hw : L w y) (hplain : Terminal.AllPlain w) (hr : BeginsWith follows r) :
    ¬ u.map Token.lexeme ++ [token.lexeme] <+: spell w ++ r := by
  intro hpre
  obtain ⟨o, hget, -⟩ := h.objection w y r hw hr hpre
  simpa using hplain _ (List.mem_of_getElem? hget)

theorem map_lexeme_take_succ {k : Nat} (hk : k < ts.length) :
    (ts.take (k + 1)).map Token.lexeme = (ts.take k).map Token.lexeme ++ [ts[k].lexeme] := by
  rw [List.take_succ_eq_append_getElem hk, List.map_append, List.map_singleton]

/-- Tokens are read as a document exactly if they are written that way and nothing but
the end comes after them. -/
theorem run_eq_ok_iff (hrec : ∀ n, Recognizes n anything (p n) erase L (·.kind = .eof))
    (hend : ∀ n, ReturnsAtEnd n (p n)) (hs : IsStream (ts.map .ok ++ [last])) (y : γ) :
    (∃ x, run p source options (ts.map .ok ++ [last]) = .ok x ∧ erase x = y) ↔
      L (wordOf ts) y ∧ ∃ token, last = .ok token ∧ token.kind = .eof := by
  constructor
  · rintro ⟨x, hrun, rfl⟩
    obtain ⟨token, hlast, hkind, hacc⟩ := run_eq_ok hrec hend hs hrun
    exact ⟨hacc.reads, token, hlast, hkind⟩
  · rintro ⟨hreads, token, rfl, hkind⟩
    have hr : BeginsWith (·.kind = .eof) [token.lexeme] := by
      simpa [BeginsWith] using hkind
    cases hrun : run p source options (ts.map .ok ++ [.ok token]) with
    | ok x =>
      obtain ⟨token', hlast, -, hacc⟩ := run_eq_ok hrec hend hs hrun
      obtain rfl := Except.ok.inj hlast
      exact ⟨x, rfl, (hacc.unique _ y [token.lexeme] hreads hr (by simp)).2.symm⟩
    | error fault =>
      have hplain := allPlain_wordOf ts
      obtain ⟨k, hk, hrej⟩ | ⟨token', hlast, hrej⟩ | ⟨hlast, -⟩ := run_eq_error hrec hs hrun
      · refine absurd ?_ (hrej.not_isPrefix hreads hplain (beginsWith_nil _))
        rw [← map_lexeme_take_succ hk, spell_wordOf, List.append_nil]
        exact (List.take_prefix _ _).map _
      · obtain rfl := Except.ok.inj hlast
        exact absurd (by simp) (hrej.not_isPrefix hreads hplain hr)
      · cases hlast

/-- Tokens can be read as one document only. -/
theorem reads_unique (hrec : ∀ n, Recognizes n anything (p n) erase L (·.kind = .eof))
    (hend : ∀ n, ReturnsAtEnd n (p n)) {token : Token} (hkind : token.kind = .eof)
    (hs : IsStream (ts.map .ok ++ [.ok token])) {y y' : γ} (hy : L (wordOf ts) y)
    (hy' : L (wordOf ts) y') : y = y' := by
  have hread : ∀ y, L (wordOf ts) y →
      ∃ x, run p default default (ts.map .ok ++ [.ok token]) = .ok x ∧ erase x = y :=
    fun y hy => (run_eq_ok_iff hrec hend hs y).2 ⟨hy, token, rfl, hkind⟩
  obtain ⟨x, hrun, rfl⟩ := hread y hy
  obtain ⟨x', hrun', rfl⟩ := hread y' hy'
  rw [Except.ok.inj (hrun.symm.trans hrun')]

end Run

/-- The lexemes as tokens at no particular places. -/
def tokensOf (ls : List Lexeme) : List Token :=
  ls.map fun lexeme => ⟨lexeme, 0, 0⟩

@[simp] theorem map_lexeme_tokensOf (ls : List Lexeme) :
    (tokensOf ls).map Token.lexeme = ls := by
  simp [tokensOf, Function.comp_def]

/-- Any proper lexemes can be read, up to an end behind them. -/
theorem isStream_tokensOf {ls : List Lexeme} (h : ∀ l ∈ ls, l.IsProper ∧ l.kind ≠ .eof) :
    IsStream ((tokensOf ls).map .ok ++ [.ok ⟨.bare .eof, 0, 0⟩]) := by
  induction ls with
  | nil => exact .eof _ rfl
  | cons l ls ih =>
    obtain ⟨⟨hproper, hkind⟩, hrest⟩ := List.forall_mem_cons.1 h
    exact .token _ _ hkind hproper (ih hrest)

/-! ## Trees and what they are written with -/

section Tree

variable {form form' : γ → Prop} {write : γ → List Terminal} {x y : γ}

/-- A plain word is read as what it is written for, if it is well formed in the strict
degree: objections are all that the degrees differ in. -/
theorem ofTree_wordOf (hstrict : ∀ x, form x ↔ form' x ∧ Terminal.AllPlain (write x))
    {ts : List Token} :
    Language.ofTree form' write (wordOf ts) x ↔
      form x ∧ spell (write x) = ts.map Token.lexeme := by
  rw [hstrict x]
  constructor
  · rintro ⟨hform, hword⟩
    exact ⟨⟨hform, hword ▸ allPlain_wordOf ts⟩, by rw [← spell_wordOf, hword]⟩
  · rintro ⟨⟨hform, hplain⟩, hspell⟩
    have hlexemes : (write x).map Terminal.lexeme = ts.map Token.lexeme := hspell
    refine ⟨hform, ?_⟩
    rw [hplain.eq_map_plain, hlexemes, List.map_map]
    rfl

variable {p : Nat → Parser β} {erase : β → γ}

/-- Trees are the same if they are written in the same way, with what can be read. -/
theorem eq_of_spell_eq (hstrict : ∀ x, form x ↔ form' x ∧ Terminal.AllPlain (write x))
    (hrec : ∀ n, Recognizes n anything (p n) erase (.ofTree form' write) (·.kind = .eof))
    (hend : ∀ n, ReturnsAtEnd n (p n)) (hx : form x) (hy : form y)
    (hproper : ∀ t ∈ write x, t.lexeme.IsProper ∧ t.lexeme.kind ≠ .eof)
    (h : spell (write y) = spell (write x)) : y = x := by
  have hs : ∀ l ∈ spell (write x), l.IsProper ∧ l.kind ≠ .eof := List.forall_mem_map.2 hproper
  have hreads : Language.ofTree form' write (wordOf (tokensOf (spell (write x)))) x :=
    (ofTree_wordOf hstrict).2 ⟨hx, (map_lexeme_tokensOf _).symm⟩
  have hreads' : Language.ofTree form' write (wordOf (tokensOf (spell (write x)))) y :=
    (ofTree_wordOf hstrict).2 ⟨hy, h.trans (map_lexeme_tokensOf _).symm⟩
  exact reads_unique hrec hend rfl (isStream_tokensOf hs) hreads' hreads

end Tree

end GraphQLSyntax.Parser

/-! ## Sources -/

namespace GraphQLSyntax.Source

variable {source : Source} {grammar : Grammar} {options : ParseOptions} {error : SyntaxError}
variable {t : Node Tag}

/-- What the parser of a grammar comes to: a tree or a fault. -/
def runParser (source : Source) (grammar : Grammar) (options : ParseOptions) :
    Except Fault (Node Tag) :=
  match grammar with
  | .executable => (Parser.run Parser.document source options source.tokens).map .document
  | .schema => (Parser.run Parser.schemaDocument source options source.tokens).map .schemaDocument

/-- A fault is told with the source that it is in. -/
theorem parseNode_eq_mapError (source : Source) (grammar : Grammar) (options : ParseOptions) :
    source.parseNode grammar options =
      (source.runParser grammar options).mapError (SyntaxError.mk source) := by
  cases grammar with
  | executable =>
    rw [parseNode, parse, runParser]
    cases Parser.run Parser.document source options source.tokens <;> rfl
  | schema =>
    rw [parseNode, parseSchema, runParser]
    cases Parser.run Parser.schemaDocument source options source.tokens <;> rfl

theorem runParser_of_parseNode (h : source.parseNode grammar options = .ok t) :
    source.runParser grammar options = .ok t := by
  rw [parseNode_eq_mapError] at h
  cases hrun : source.runParser grammar options with
  | error fault =>
    rw [hrun] at h
    cases h
  | ok whole =>
    rw [hrun] at h
    exact congrArg Except.ok (Except.ok.inj h)

theorem exists_fault_of_parseNode (h : source.parseNode grammar options = .error error) :
    ∃ fault, source.runParser grammar options = .error fault ∧ error = ⟨source, fault⟩ := by
  rw [parseNode_eq_mapError] at h
  cases hrun : source.runParser grammar options with
  | ok t =>
    rw [hrun] at h
    cases h
  | error fault =>
    rw [hrun] at h
    cases h
    exact ⟨fault, rfl, rfl⟩

end GraphQLSyntax.Source
