import GraphQLSyntax.Proofs.Yield.Terminal

/-!
# Languages

A language relates words of terminals to what they are read as.  Languages are
put together in the way parsers are: one after the other, and repeatedly.

A parser with one token of lookahead reads a language only if what follows a word
can be told apart from what would go on with it.  `Follows` says of a lexeme that
it may come next; `Leads` says what a word and whatever follows it begin with.
-/

namespace GraphQLSyntax

/-- The words of a language, each with what it is read as. -/
def Language (γ : Type) := List Terminal → γ → Prop

/-- What a word looks like to a parser. -/
def spell (w : List Terminal) : List Lexeme :=
  w.map Terminal.lexeme

@[simp] theorem spell_nil : spell [] = [] := rfl

@[simp] theorem spell_cons (t : Terminal) (w : List Terminal) :
    spell (t :: w) = t.lexeme :: spell w := rfl

@[simp] theorem spell_append (v w : List Terminal) : spell (v ++ w) = spell v ++ spell w :=
  List.map_append

/-- A text of lexemes that is empty or begins with one of a certain kind. -/
def BeginsWith (allowed : Lexeme → Prop) (r : List Lexeme) : Prop :=
  ∀ h ∈ r.head?, allowed h

@[simp] theorem beginsWith_nil (allowed : Lexeme → Prop) : BeginsWith allowed [] := by
  simp [BeginsWith]

@[simp] theorem beginsWith_cons (allowed : Lexeme → Prop) (h : Lexeme) (r : List Lexeme) :
    BeginsWith allowed (h :: r) ↔ allowed h := by
  simp [BeginsWith]

theorem BeginsWith.mono {allowed allowed' : Lexeme → Prop}
    {r : List Lexeme} (h : BeginsWith allowed r) (hle : ∀ x, allowed x → allowed' x) :
    BeginsWith allowed' r :=
  fun x hx => hle x (h x hx)

/-- Any lexeme. -/
def anything : Lexeme → Prop :=
  fun _ => True

@[simp] theorem beginsWith_anything (r : List Lexeme) : BeginsWith anything r :=
  fun _ _ => trivial

namespace Language

variable {β γ δ : Type}

/-- The empty word. -/
def ret (x : γ) : Language γ :=
  fun w y => w = [] ∧ y = x

/-- A word of one language, and then one of another that may depend on what the
first was read as. -/
def seq (L : Language β) (M : β → Language γ) : Language γ :=
  fun w y => ∃ u v x, w = u ++ v ∧ L u x ∧ M x v y

/-- A single lexeme out of a class. -/
def lexeme (allowed : Lexeme → Prop) : Language Lexeme :=
  fun w x => w = [.plain x] ∧ allowed x ∧ x.IsProper

/-- One particular lexeme. -/
def symbol (x : Lexeme) : Language Unit :=
  fun w _ => w = [.plain x]

/-- Trees of a certain form, as they are written. -/
def ofTree (form : γ → Prop) (write : γ → List Terminal) : Language γ :=
  fun w x => form x ∧ w = write x

/-- Any number of words, one after the other. -/
def star (L : Language γ) : Language (List γ)
  | w, [] => w = []
  | w, x :: xs => ∃ u v, w = u ++ v ∧ L u x ∧ star L v xs

/-- Words that are read as something else. -/
def image (f : β → γ) (L : Language β) : Language γ :=
  fun w y => ∃ x, L w x ∧ y = f x

/-- The words of two languages. -/
def union (L M : Language γ) : Language γ :=
  fun w x => L w x ∨ M w x

/-- The words that begin with one of certain lexemes, or are empty. -/
def beginning (first : Lexeme → Prop) (L : Language γ) : Language γ :=
  fun w x => L w x ∧ BeginsWith first (spell w)

/-- Any number of words up to and including a punctuator. -/
def closedBy (close : TokenKind) (L : Language γ) : Language (List γ) :=
  fun w xs => ∃ v, w = v ++ [.bare close] ∧ star L v xs

/-- Any number of words between two punctuators. -/
def enclosed (opening close : TokenKind) (L : Language γ) : Language (List γ) :=
  fun w xs => ∃ v, w = .bare opening :: v ∧ closedBy close L v xs

/-- At least one word. -/
def nonempty (L : Language (List γ)) : Language (List γ) :=
  fun w xs => L w xs ∧ xs ≠ []

/-- At least one word in parentheses, or nothing. -/
def parenthesized (L : Language γ) : Language (List γ) :=
  fun w xs => (w = [] ∧ xs = []) ∨ nonempty (enclosed .parenOpen .parenClose L) w xs

theorem seq_ofTree_iff {form : β → Prop} {write : β → List Terminal} {M : β → Language γ}
    {w : List Terminal} {y : γ} :
    (ofTree form write).seq M w y ↔ ∃ x v, form x ∧ w = write x ++ v ∧ M x v y := by
  constructor
  · rintro ⟨u, v, x, rfl, ⟨hx, rfl⟩, hv⟩
    exact ⟨x, v, hx, rfl, hv⟩
  · rintro ⟨x, v, hx, rfl, hv⟩
    exact ⟨_, v, x, rfl, ⟨hx, rfl⟩, hv⟩

theorem seq_symbol_iff {x : Lexeme} {M : Unit → Language γ} {w : List Terminal} {y : γ} :
    (symbol x).seq M w y ↔ ∃ v, w = .plain x :: v ∧ M () v y := by
  constructor
  · rintro ⟨_, v, _, rfl, rfl, hv⟩
    exact ⟨v, rfl, hv⟩
  · rintro ⟨v, rfl, hv⟩
    exact ⟨_, v, (), rfl, rfl, hv⟩

theorem seq_ret (L : Language β) (f : β → γ) : (L.seq fun x => ret (f x)) = L.image f := by
  funext w y
  rw [eq_iff_iff]
  constructor
  · rintro ⟨u, _, x, rfl, hu, rfl, rfl⟩
    exact ⟨x, by simpa using hu, rfl⟩
  · rintro ⟨x, hw, rfl⟩
    exact ⟨w, [], x, by simp, hw, rfl, rfl⟩

theorem star_ofTree (form : γ → Prop) (write : γ → List Terminal) :
    star (ofTree form write) = ofTree (∀ x ∈ ·, form x) (·.flatMap write) := by
  funext w xs
  induction xs generalizing w with
  | nil => simp [star, ofTree]
  | cons x xs ih =>
    simp only [star, ofTree, List.flatMap_cons, List.mem_cons, forall_eq_or_imp, eq_iff_iff]
    constructor
    · rintro ⟨u, v, rfl, ⟨hx, rfl⟩, hv⟩
      rw [ih] at hv
      exact ⟨⟨hx, hv.1⟩, by rw [hv.2]⟩
    · rintro ⟨⟨hx, hxs⟩, rfl⟩
      refine ⟨write x, xs.flatMap write, rfl, ⟨hx, rfl⟩, ?_⟩
      rw [ih]
      exact ⟨hxs, rfl⟩

/-- There is no word, or a first one and those after it. -/
theorem star_eq_union (L : Language γ) :
    star L = (ret []).union (L.seq fun x => L.star.image (x :: ·)) := by
  funext w xs
  rw [eq_iff_iff]
  cases xs with
  | nil =>
    constructor
    · rintro rfl
      exact .inl ⟨rfl, rfl⟩
    · rintro (⟨rfl, -⟩ | ⟨_, _, _, _, _, _, _, hxs⟩)
      · rfl
      · exact absurd hxs (by simp)
  | cons x xs =>
    constructor
    · rintro ⟨u, v, rfl, hu, hv⟩
      exact .inr ⟨u, v, x, rfl, hu, xs, hv, rfl⟩
    · rintro (⟨-, hxs⟩ | ⟨u, v, _, rfl, hu, _, hv, hxs⟩)
      · exact absurd hxs (by simp)
      · obtain ⟨rfl, rfl⟩ := List.cons.inj hxs
        exact ⟨u, v, rfl, hu, hv⟩

theorem star_nonempty_eq (L : Language γ) :
    L.star.nonempty = L.seq fun x => L.star.image (x :: ·) := by
  funext w xs
  rw [eq_iff_iff]
  constructor
  · rintro ⟨hw, hne⟩
    obtain ⟨x, xs, rfl⟩ := List.exists_cons_of_ne_nil hne
    obtain ⟨u, v, rfl, hu, hv⟩ := hw
    exact ⟨u, v, x, rfl, hu, xs, hv, rfl⟩
  · rintro ⟨u, v, x, rfl, hu, xs, hv, rfl⟩
    exact ⟨⟨u, v, rfl, hu, hv⟩, by simp⟩

theorem closedBy_nil {close : TokenKind} {L : Language γ} {w : List Terminal} :
    closedBy close L w [] ↔ w = [.bare close] := by
  simp [closedBy, star]

theorem closedBy_cons {close : TokenKind} {L : Language γ} {w : List Terminal} {x : γ}
    {xs : List γ} :
    closedBy close L w (x :: xs) ↔ ∃ u v, w = u ++ v ∧ L u x ∧ closedBy close L v xs := by
  constructor
  · rintro ⟨w, rfl, u, v, rfl, hu, hv⟩
    exact ⟨u, v ++ [.bare close], List.append_assoc .., hu, v, rfl, hv⟩
  · rintro ⟨u, v, rfl, hu, v, rfl, hv⟩
    exact ⟨u ++ v, (List.append_assoc ..).symm, u, v, rfl, hu, hv⟩

/-- The punctuator comes at once, or after a first word and more of them. -/
theorem closedBy_eq_union (close : TokenKind) (L : Language γ) :
    closedBy close L = ((symbol (.bare close)).seq fun _ => ret []).union
      (L.seq fun x => (closedBy close L).image (x :: ·)) := by
  funext w xs
  rw [eq_iff_iff]
  cases xs with
  | nil =>
    rw [closedBy_nil, union, seq_symbol_iff]
    constructor
    · rintro rfl
      exact .inl ⟨[], rfl, rfl, rfl⟩
    · rintro (⟨_, rfl, rfl, -⟩ | ⟨_, _, _, _, _, _, _, hxs⟩)
      · rfl
      · exact absurd hxs (by simp)
  | cons x xs =>
    rw [closedBy_cons, union, seq_symbol_iff]
    constructor
    · rintro ⟨u, v, rfl, hu, hv⟩
      exact .inr ⟨u, v, x, rfl, hu, xs, hv, rfl⟩
    · rintro (⟨_, -, -, hxs⟩ | ⟨u, v, _, rfl, hu, _, hv, hxs⟩)
      · exact absurd hxs (by simp)
      · obtain ⟨rfl, rfl⟩ := List.cons.inj hxs
        exact ⟨u, v, rfl, hu, hv⟩

theorem closedBy_ofTree (close : TokenKind) (form : γ → Prop) (write : γ → List Terminal) :
    closedBy close (ofTree form write) =
      ofTree (∀ x ∈ ·, form x) (·.flatMap write ++ [.bare close]) := by
  funext w xs
  simp only [closedBy, star_ofTree, ofTree, eq_iff_iff]
  constructor
  · rintro ⟨v, rfl, hxs, rfl⟩
    exact ⟨hxs, rfl⟩
  · rintro ⟨hxs, rfl⟩
    exact ⟨_, rfl, hxs, rfl⟩

theorem enclosed_ofTree (opening close : TokenKind) (form : γ → Prop)
    (write : γ → List Terminal) :
    enclosed opening close (ofTree form write) =
      ofTree (∀ x ∈ ·, form x) (.bare opening :: ·.flatMap write ++ [.bare close]) := by
  funext w xs
  simp only [enclosed, closedBy_ofTree, ofTree, eq_iff_iff, List.cons_append]
  constructor
  · rintro ⟨v, rfl, hxs, rfl⟩
    exact ⟨hxs, rfl⟩
  · rintro ⟨hxs, rfl⟩
    exact ⟨_, rfl, hxs, rfl⟩

/-- Some word is beyond objection, so reading can be brought to an end. -/
class Inhabited (L : Language γ) : Prop where
  exists_plain : ∃ w x, L w x ∧ Terminal.AllPlain w

instance (x : γ) : (ret x).Inhabited where
  exists_plain := ⟨[], x, ⟨rfl, rfl⟩, by simp⟩

instance (L : Language β) (M : β → Language γ) [L.Inhabited] [∀ x, (M x).Inhabited] :
    (L.seq M).Inhabited where
  exists_plain := by
    obtain ⟨u, x, hu, hplain⟩ := Inhabited.exists_plain (L := L)
    obtain ⟨v, y, hv, hplain'⟩ := Inhabited.exists_plain (L := M x)
    exact ⟨u ++ v, y, ⟨u, v, x, rfl, hu, hv⟩, by simp [hplain, hplain']⟩

instance (x : Lexeme) : (symbol x).Inhabited where
  exists_plain := ⟨[.plain x], (), rfl, by simp⟩

instance (L : Language γ) : (star L).Inhabited where
  exists_plain := ⟨[], [], rfl, by simp⟩

instance (L : Language β) [L.Inhabited] (f : β → γ) : (L.image f).Inhabited where
  exists_plain := by
    obtain ⟨w, x, hw, hplain⟩ := Inhabited.exists_plain (L := L)
    exact ⟨w, f x, ⟨x, hw, rfl⟩, hplain⟩

instance (L M : Language γ) [L.Inhabited] : (union L M).Inhabited where
  exists_plain := by
    obtain ⟨w, x, hw, hplain⟩ := Inhabited.exists_plain (L := L)
    exact ⟨w, x, .inl hw, hplain⟩

instance (close : TokenKind) (L : Language γ) : (closedBy close L).Inhabited where
  exists_plain := ⟨[.bare close], [], closedBy_nil.2 rfl, by simp⟩

instance (opening close : TokenKind) (L : Language γ) : (enclosed opening close L).Inhabited where
  exists_plain := ⟨[.bare opening, .bare close], [], ⟨_, rfl, closedBy_nil.2 rfl⟩, by simp⟩

instance (opening close : TokenKind) (L : Language γ) [L.Inhabited] :
    (enclosed opening close L).nonempty.Inhabited where
  exists_plain := by
    obtain ⟨w, x, hw, hplain⟩ := Inhabited.exists_plain (L := L)
    refine ⟨.bare opening :: (w ++ [.bare close]), [x], ⟨⟨_, rfl, ?_⟩, by simp⟩, by simp [hplain]⟩
    exact closedBy_cons.2 ⟨w, _, rfl, hw, closedBy_nil.2 rfl⟩

instance (L : Language γ) [L.Inhabited] : L.star.nonempty.Inhabited where
  exists_plain := by
    obtain ⟨w, x, hw, hplain⟩ := Inhabited.exists_plain (L := L)
    exact ⟨w ++ [], [x], ⟨⟨w, [], rfl, hw, rfl⟩, by simp⟩, by simp [hplain]⟩

instance (L : Language γ) : (parenthesized L).Inhabited where
  exists_plain := ⟨[], [], .inl ⟨rfl, rfl⟩, by simp⟩

theorem Inhabited.of_ofTree {form : γ → Prop} {write : γ → List Terminal} {x : γ}
    (hx : form x) (hplain : Terminal.AllPlain (write x)) : (ofTree form write).Inhabited where
  exists_plain := ⟨write x, x, ⟨hx, rfl⟩, hplain⟩

/-- No word is empty, and each begins with a lexeme of a certain kind. -/
def Starts (L : Language γ) (first : Lexeme → Prop) : Prop :=
  ∀ w x, L w x → ∃ t v, w = t :: v ∧ first t.lexeme

theorem Starts.mono {L : Language γ} {first first' : Lexeme → Prop}
    (h : L.Starts first) (hle : ∀ x, first x → first' x) : L.Starts first' := by
  intro w x hw
  obtain ⟨t, v, rfl, ht⟩ := h w x hw
  exact ⟨t, v, rfl, hle _ ht⟩

theorem Starts.seq {L : Language β} {M : β → Language γ} {first : Lexeme → Prop}
    (h : L.Starts first) : (L.seq M).Starts first := by
  rintro w y ⟨u, v, x, rfl, hu, -⟩
  obtain ⟨t, u, rfl, ht⟩ := h u x hu
  exact ⟨t, u ++ v, rfl, ht⟩

theorem Starts.symbol (x : Lexeme) : (symbol x).Starts (· = x) := by
  rintro w y rfl
  exact ⟨_, [], rfl, rfl⟩

theorem Starts.image {L : Language β} {first : Lexeme → Prop} (h : L.Starts first)
    (f : β → γ) : (L.image f).Starts first := by
  rintro w y ⟨x, hw, -⟩
  exact h w x hw

theorem Starts.closedBy {close : TokenKind} {L : Language γ} {first : Lexeme → Prop}
    (h : L.Starts first) (hclose : first (.bare close)) : (closedBy close L).Starts first := by
  intro w xs hw
  cases xs with
  | nil =>
    obtain rfl := closedBy_nil.1 hw
    exact ⟨_, [], rfl, hclose⟩
  | cons x xs =>
    obtain ⟨u, v, rfl, hu, -⟩ := closedBy_cons.1 hw
    obtain ⟨t, u, rfl, ht⟩ := h u x hu
    exact ⟨t, u ++ v, rfl, ht⟩

theorem Starts.enclosed (opening close : TokenKind) (L : Language γ) :
    (enclosed opening close L).Starts (· = .bare opening) := by
  rintro w xs ⟨v, rfl, -⟩
  exact ⟨_, v, rfl, rfl⟩

theorem Starts.nonempty {L : Language (List γ)} {first : Lexeme → Prop} (h : L.Starts first) :
    (nonempty L).Starts first :=
  fun w xs hw => h w xs hw.1

theorem Starts.length_pos {L : Language γ} {first : Lexeme → Prop} (h : L.Starts first)
    {w : List Terminal} {x : γ} (hw : L w x) : 1 ≤ w.length := by
  obtain ⟨t, v, rfl, -⟩ := h w x hw
  simp

/-- With one of the lexemes in `follows` after it, or nothing, every word begins
with one of the lexemes in `first`, or is nothing altogether. -/
def Leads (L : Language γ) (follows first : Lexeme → Prop) : Prop :=
  ∀ w x r, L w x → BeginsWith follows r → BeginsWith first (spell w ++ r)

theorem Leads.of_anything (L : Language γ) {follows : Lexeme → Prop} :
    L.Leads follows anything :=
  fun _ _ _ _ _ => beginsWith_anything _

theorem Leads.ret (x : γ) {follows first : Lexeme → Prop} (hle : ∀ h, follows h → first h) :
    (ret x).Leads follows first := by
  rintro w y r ⟨rfl, -⟩ hr
  exact hr.mono hle

theorem Leads.of_starts {L : Language γ} {follows first first' : Lexeme → Prop}
    (h : L.Starts first) (hle : ∀ h, first h → first' h) : L.Leads follows first' := by
  intro w x r hw _
  obtain ⟨t, v, rfl, ht⟩ := h w x hw
  simpa using hle _ ht

theorem Leads.seq {L : Language β} {M : β → Language γ} {follows middle first : Lexeme → Prop}
    (hL : L.Leads middle first) (hM : ∀ x, (M x).Leads follows middle) :
    (L.seq M).Leads follows first := by
  rintro w y r ⟨u, v, x, rfl, hu, hv⟩ hr
  rw [spell_append, List.append_assoc]
  exact hL u x _ hu (hM x v y r hv hr)

theorem Leads.star {L : Language γ} {follows first : Lexeme → Prop}
    (h : L.Starts first) (hle : ∀ h, follows h → first h) : (star L).Leads follows first := by
  intro w xs r hw hr
  cases xs with
  | nil =>
    obtain rfl : w = [] := hw
    exact hr.mono hle
  | cons x xs =>
    obtain ⟨u, v, rfl, hu, -⟩ := hw
    obtain ⟨t, u, rfl, ht⟩ := h u x hu
    simpa using ht

theorem Leads.image {L : Language β} {follows first : Lexeme → Prop}
    (h : L.Leads follows first) (f : β → γ) : (L.image f).Leads follows first := by
  rintro w y r ⟨x, hw, -⟩ hr
  exact h w x r hw hr

theorem Leads.union {L M : Language γ} {follows first : Lexeme → Prop}
    (hL : L.Leads follows first) (hM : M.Leads follows first) :
    (union L M).Leads follows first := by
  rintro w x r (hw | hw) hr
  · exact hL w x r hw hr
  · exact hM w x r hw hr

theorem Leads.parenthesized (L : Language γ) {follows first : Lexeme → Prop}
    (hopen : first (.bare .parenOpen)) (hle : ∀ h, follows h → first h) :
    (parenthesized L).Leads follows first := by
  rintro w xs r (⟨rfl, -⟩ | ⟨⟨v, rfl, -⟩, -⟩) hr
  · exact hr.mono hle
  · simpa using hopen

theorem Leads.mono {L : Language γ} {follows first follows' first' : Lexeme → Prop}
    (h : L.Leads follows first) (hf : ∀ h, follows' h → follows h)
    (hle : ∀ h, first h → first' h) : L.Leads follows' first' :=
  fun w x r hw hr => (h w x r hw (hr.mono hf)).mono hle

end Language

end GraphQLSyntax
