import GraphQLSyntax.Proofs.Rewriting.Plain

/-!
# The calls of a rewrite

A rewriter can be made to note down every call of it, and does nothing else in another
way.  The notes are kept when a rewrite halts, so that rewrites can be compared call by
call however they end.  The main result is that the notes of a rewrite with sharing and
those of a plain rewrite are about the same calls.
-/

namespace GraphQLSyntax

variable {σ τ β : Type}

/-! ## Notes -/

/-- The calls made so far, in order: the phase, and the node that was called for. -/
abbrev Notes := List (Phase × Node Tag)

/-- A session in which nothing is noted yet. -/
def Session.unnoted (s : Session σ) : Session (σ × Notes) :=
  ⟨s.nextId, s.memory, []⟩

namespace Rewriting

/-- Takes a step without touching the notes. -/
def besideNotes (x : Rewriting σ β) : Rewriting (σ × Notes) β := fun s =>
  match x ⟨s.nextId, s.memory.1⟩ with
  | .ok y t => .ok y ⟨t.nextId, t.memory, s.memory.2⟩
  | .error halt t => .error halt ⟨t.nextId, t.memory, s.memory.2⟩

/-- Notes down a call. -/
def note (phase : Phase) (n : Node Tag) : Rewriting (σ × Notes) Unit :=
  modify fun s => { s with memory := (s.memory.1, s.memory.2 ++ [(phase, n)]) }

/-- An outcome without the notes. -/
def dropNotes : EStateM.Result Halt (Session (σ × Notes)) β → EStateM.Result Halt (Session σ) β
  | .ok x s => .ok x ⟨s.nextId, s.memory.1⟩
  | .error halt s => .error halt ⟨s.nextId, s.memory.1⟩

end Rewriting

/-- Notes down each call and then does what the rewriter does. -/
def Rewriter.noting (rewriter : Rewriter σ) : Rewriter (σ × Notes) where
  enter n := do
    Rewriting.note .enter n
    Rewriting.besideNotes (rewriter.enter n)
  leave n := do
    Rewriting.note .leave n
    Rewriting.besideNotes (rewriter.leave n)

/-- The same calls were made, for copies, and what is remembered is alike. -/
structure NotedAlike (alike : σ → σ → Prop) (s t : Session (σ × Notes)) : Prop where
  memory : alike s.memory.1 t.memory.1
  notes : List.Forall₂ (fun c d => c.1 = d.1 ∧ c.2.Copies d.2) s.memory.2 t.memory.2

/-- The sessions differ in the notes only. -/
structure SameButNotes (s : Session (σ × Notes)) (t : Session σ) : Prop where
  nextId : s.nextId = t.nextId
  memory : s.memory.1 = t.memory

namespace Rewriting

theorem dropNotes_eq {a : EStateM.Result Halt (Session (σ × Notes)) β}
    {b : EStateM.Result Halt (Session σ) β} (h : OutcomesAlike SameButNotes Eq a b) :
    dropNotes a = b := by
  rcases a with ⟨x, s⟩ | ⟨halt, s⟩ <;> rcases b with ⟨y, t⟩ | ⟨halt', t⟩
  · obtain ⟨rfl, hid, hmemory⟩ := h
    simp [dropNotes, hid, hmemory]
  · exact h.elim
  · exact h.elim
  · obtain ⟨rfl, hid, hmemory⟩ := h
    simp [dropNotes, hid, hmemory]

theorem simulates_note {alike : σ → σ → Prop} (phase : Phase) {n m : Node Tag}
    (hnm : n.Copies m) :
    Simulates (NotedAlike alike) (fun _ _ => True) (note phase n) (note phase m) :=
  fun _ _ hst => ⟨trivial, hst.memory, List.rel_append hst.notes (.cons ⟨rfl, hnm⟩ .nil)⟩

theorem simulates_besideNotes {alike : σ → σ → Prop} {γ : Type} {same : β → γ → Prop}
    {x : Rewriting σ β} {y : Rewriting σ γ}
    (h : Simulates (fun s t => alike s.memory t.memory) same x y) :
    Simulates (NotedAlike alike) same (besideNotes x) (besideNotes y) := by
  intro s t hst
  have hout := h ⟨s.nextId, s.memory.1⟩ ⟨t.nextId, t.memory.1⟩ hst.memory
  unfold besideNotes
  cases hx : x ⟨s.nextId, s.memory.1⟩ <;> cases hy : y ⟨t.nextId, t.memory.1⟩ <;>
    rw [hx, hy] at hout
  · exact ⟨hout.1, hout.2, hst.notes⟩
  · exact hout.elim
  · exact hout.elim
  · exact ⟨hout.1, hout.2, hst.notes⟩

/-- Noting down a call changes nothing but the notes. -/
theorem simulates_noting (phase : Phase) (n : Node Tag) (x : Rewriting σ β) :
    Simulates SameButNotes Eq (do note phase n; besideNotes x) x := by
  rintro ⟨nextId, memory, notes⟩ t ⟨rfl, rfl⟩
  change OutcomesAlike SameButNotes Eq
    (besideNotes x ⟨t.nextId, t.memory, notes ++ [(phase, n)]⟩) (x t)
  unfold besideNotes
  cases hx : x t <;> exact ⟨rfl, rfl, rfl⟩

/-! ## Rewriting in the same way -/

section Same

variable {alike : Session σ → Session τ → Prop}
  {item : Node Tag → Rewriting σ (Option (Node Tag))}
  {item' : Node Tag → Rewriting τ (Option (Node Tag))}

theorem Simulates.kept (h : ∀ n, Simulates alike Eq (item n) (item' n)) (xs : List (Node Tag)) :
    Simulates alike Eq (Rewriting.kept item xs) (Rewriting.kept item' xs) := by
  induction xs with
  | nil => exact .pure rfl
  | cons x xs ih =>
    refine .bind (h x) ?_
    rintro y _ rfl
    refine .bind ih ?_
    rintro ys _ rfl
    exact .pure rfl

theorem Simulates.remaining (h : ∀ n, Simulates alike Eq (item n) (item' n))
    (slots : List (Slot Tag)) :
    Simulates alike Eq (Rewriting.remaining item slots) (Rewriting.remaining item' slots) := by
  induction slots with
  | nil => exact .pure rfl
  | cons slot rest ih =>
    refine .bind (.kept h slot.nodes) ?_
    rintro nodes _ rfl
    split
    · exact .pure rfl
    · refine .bind ih ?_
      rintro others _ rfl
      exact .pure rfl

theorem Simulates.create_same (make : Nat → β × Nat) :
    Simulates SameButNotes Eq (Rewriting.create make : Rewriting (σ × Notes) β)
      (Rewriting.create make) := by
  rintro ⟨nextId, memory, notes⟩ t ⟨rfl, rfl⟩
  exact ⟨rfl, rfl, rfl⟩

end Same

end Rewriting

namespace Rewriter

open Rewriting

variable (rewriter : Rewriter σ)

theorem simulates_rewriteWithin_noting (height : Nat) (n : Node Tag) :
    Rewriting.Simulates SameButNotes Eq (rewriter.noting.rewriteWithin height n)
      (rewriter.rewriteWithin height n) := by
  induction height generalizing n with
  | zero => exact .throw .tooDeep
  | succ height ih =>
    refine .bind (simulates_noting .enter n _) ?_
    rintro (_ | entered) _ rfl
    · exact .pure rfl
    · refine .bind (.slots (fun n => .bind (ih n) ?_) entered.1.slots) ?_
      · rintro answer _ rfl
        exact .pure rfl
      rintro (_ | new) _ rfl
      · exact .pure rfl
      · refine .bind (.create_same _) ?_
        rintro updated _ rfl
        refine .bind (simulates_noting .leave updated.1 _) ?_
        rintro (_ | left) _ rfl
        · exact .pure rfl
        · exact .pure rfl

theorem simulates_plainWithin_noting (height : Nat) (n : Node Tag) :
    Rewriting.Simulates SameButNotes Eq (rewriter.noting.plainWithin height n)
      (rewriter.plainWithin height n) := by
  induction height generalizing n with
  | zero => exact .throw .tooDeep
  | succ height ih =>
    refine .bind (simulates_noting .enter n _) ?_
    rintro (_ | entered) _ rfl
    · exact .pure rfl
    · refine .bind (.remaining ih entered.1.slots) ?_
      rintro (_ | nodes) _ rfl
      · exact .pure rfl
      · refine .bind (.create_same _) ?_
        rintro rebuilt _ rfl
        refine .bind (simulates_noting .leave rebuilt _) ?_
        rintro left _ rfl
        exact .pure rfl

variable {rewriter} {alike : σ → σ → Prop}

theorem IgnoresIdentity.noting (h : rewriter.IgnoresIdentity alike) :
    rewriter.noting.Simulates (NotedAlike alike) Node.Copies rewriter.noting where
  enter n m hnm := .bind (simulates_note .enter hnm) fun _ _ _ =>
    simulates_besideNotes (h.enter n m hnm)
  leave n m hnm := .bind (simulates_note .leave hnm) fun _ _ _ =>
    simulates_besideNotes (h.leave n m hnm)

/-- Rewriting refines the plain way of rewriting: for a rewriter that does not look at
identities, the two end in the same way, with copies if they end with trees at all, and
until then they have called the rewriter for copies in the same phases and order.  Taking
notes of the calls has no part in that. -/
theorem rewrite_refines_plain (h : rewriter.IgnoresIdentity alike) (n : Node Tag) {s : Session σ}
    (hs : alike s.memory s.memory) :
    (∀ height,
      OutcomesAlike (NotedAlike alike) (Option.Rel fun x y => x.1.Copies y)
          (rewriter.noting.rewriteWithin height n s.unnoted)
          (rewriter.noting.plainWithin height n s.unnoted) ∧
        dropNotes (rewriter.noting.rewriteWithin height n s.unnoted) =
          rewriter.rewriteWithin height n s ∧
        dropNotes (rewriter.noting.plainWithin height n s.unnoted) =
          rewriter.plainWithin height n s) ∧
      OutcomesAlike (NotedAlike alike) (Option.Rel Node.Copies)
        (rewriter.noting.rewrite n s.unnoted) (rewriter.noting.plain n s.unnoted) := by
  have hstart : NotedAlike alike s.unnoted s.unnoted := ⟨hs, .nil⟩
  have hsame : SameButNotes s.unnoted s := ⟨rfl, rfl⟩
  have hway : ∀ height, Rewriting.Simulates (NotedAlike alike) (Option.Rel fun x y => x.1.Copies y)
      (rewriter.noting.rewriteWithin height n) (rewriter.noting.plainWithin height n) :=
    fun height => h.noting.plainWithin (fun _ _ _ _ hst => ⟨hst.memory, hst.notes⟩) height
      (Node.Copies.refl n)
  refine ⟨fun height => ⟨hway height _ _ hstart, ?_, ?_⟩, ?_⟩
  · exact dropNotes_eq (rewriter.simulates_rewriteWithin_noting height n _ _ hsame)
  · exact dropNotes_eq (rewriter.simulates_plainWithin_noting height n _ _ hsame)
  · have hall : Rewriting.Simulates (NotedAlike alike) (Option.Rel Node.Copies)
        (rewriter.noting.rewrite n) (rewriter.noting.plain n >>= pure) := by
      refine .bind (hway n.height) fun answer answer' hanswer => .pure ?_
      cases hanswer with
      | none => exact .none
      | some hcopies => exact .some hcopies
    rw [bind_pure] at hall
    exact hall _ _ hstart

/-- Deletes the first number that is left, and puts zeros in place of the others. -/
def droppingFirst : Rewriter Bool where
  enter n := pure (some ⟨n, n.kind_self⟩)
  leave n :=
    if h : n.kind = .intValue then fun s =>
      if s.memory then
        .ok (some ⟨.intValue ⟨"0", s.nextId, n.tag.location⟩, h.symm⟩)
          { s with nextId := s.nextId + 1 }
      else .ok none { s with memory := true }
    else pure (some ⟨n, n.kind_self⟩)

theorem droppingFirst_ignoresIdentity : droppingFirst.IgnoresIdentity Eq where
  enter n m hnm := .pure (.some hnm)
  leave n m hnm := by
    by_cases h : n.kind = .intValue
    · have h' : m.kind = .intValue := hnm.kind_eq ▸ h
      rw [show droppingFirst.leave n = _ from dif_pos h,
        show droppingFirst.leave m = _ from dif_pos h']
      rintro ⟨nextId, _ | _⟩ ⟨nextId', _⟩ rfl
      · exact ⟨.none, rfl⟩
      · refine ⟨.some ?_, rfl⟩
        exact .of_view rfl rfl hnm.location_eq .nil
    · have h' : m.kind ≠ .intValue := hnm.kind_eq ▸ h
      rw [show droppingFirst.leave n = _ from dif_neg h,
        show droppingFirst.leave m = _ from dif_neg h']
      exact .pure (.some hnm)

/-- Of a list of two numbers, a list of one zero is left. -/
theorem rewrite_refines_plain_droppingFirst :
    let twoNumbers : Node Tag :=
      .listValue ⟨[.int ⟨"1", 1, none⟩, .int ⟨"2", 2, none⟩], 0, none⟩
    let start : Session Bool := ⟨3, false⟩
    droppingFirst.IgnoresIdentity Eq ∧
      OutcomesAlike (NotedAlike Eq) (Option.Rel Node.Copies)
        (droppingFirst.noting.rewrite twoNumbers start.unnoted)
        (droppingFirst.noting.plain twoNumbers start.unnoted) ∧
      droppingFirst.rewrite twoNumbers start =
        .ok (some (.listValue ⟨[.int ⟨"0", 3, none⟩], 4, none⟩)) ⟨5, true⟩ := by
  intro twoNumbers start
  refine ⟨droppingFirst_ignoresIdentity, ?_, by decide +kernel⟩
  exact (rewrite_refines_plain droppingFirst_ignoresIdentity twoNumbers (s := start) rfl).2

end Rewriter

end GraphQLSyntax
