import GraphQLSyntax.Rewriting.Rewriter

/-!
# Rewrites that go on alike

Two steps simulate each other if, started in sessions that are alike, they either return
what is the same or halt for the same cause, and leave sessions that are alike.  What
counts as alike and as the same is up to the relations given, so that one set of rules
serves for comparing a rewrite with one that takes notes and for comparing it with one
that works in another way.
-/

namespace GraphQLSyntax.Rewriting

variable {σ τ β γ δ ε : Type}

/-- Outcomes that are alike: both are results or both are halts. -/
def OutcomesAlike (alike : Session σ → Session τ → Prop) (same : β → γ → Prop) :
    EStateM.Result Halt (Session σ) β → EStateM.Result Halt (Session τ) γ → Prop
  | .ok x s, .ok y t => same x y ∧ alike s t
  | .error halt s, .error halt' t => halt = halt' ∧ alike s t
  | _, _ => False

/-- From sessions that are alike, the two steps come to outcomes that are alike. -/
def Simulates (alike : Session σ → Session τ → Prop) (same : β → γ → Prop)
    (x : Rewriting σ β) (y : Rewriting τ γ) : Prop :=
  ∀ s t, alike s t → OutcomesAlike alike same (x s) (y t)

section Rules

variable {alike : Session σ → Session τ → Prop} {same : β → γ → Prop}
  {same' : δ → ε → Prop} {x : Rewriting σ β} {y : Rewriting τ γ}

theorem Simulates.pure {a : β} {b : γ} (h : same a b) :
    Simulates alike same (Pure.pure a) (Pure.pure b) :=
  fun _ _ hst => ⟨h, hst⟩

theorem Simulates.throw (halt : Halt) : Simulates alike same (throw halt) (throw halt) :=
  fun _ _ hst => ⟨rfl, hst⟩

theorem Simulates.bind {f : β → Rewriting σ δ} {g : γ → Rewriting τ ε}
    (h : Simulates alike same x y)
    (hrest : ∀ a b, same a b → Simulates alike same' (f a) (g b)) :
    Simulates alike same' (x >>= f) (y >>= g) := by
  intro s t hst
  have hout := h s t hst
  simp only [Bind.bind, EStateM.bind]
  cases hx : x s with
  | ok a s' =>
    cases hy : y t with
    | ok b t' =>
      rw [hx, hy] at hout
      exact hrest a b hout.1 s' t' hout.2
    | error halt t' => simp [hx, hy, OutcomesAlike] at hout
  | error halt s' =>
    cases hy : y t with
    | ok b t' => simp [hx, hy, OutcomesAlike] at hout
    | error halt' t' =>
      rw [hx, hy] at hout
      exact hout

/-- Taking up new identities is simulated, whatever is made of them. -/
theorem Simulates.create {make : Nat → β × Nat} {make' : Nat → γ × Nat}
    (h : ∀ s t, alike s t → same (make s.nextId).1 (make' t.nextId).1 ∧
      alike { s with nextId := (make s.nextId).2 } { t with nextId := (make' t.nextId).2 }) :
    Simulates alike same (create make) (create make') :=
  h

end Rules

section Same

variable {alike : Session σ → Session τ → Prop}
  {item : Node Tag → Rewriting σ (Option (Node Tag))}
  {item' : Node Tag → Rewriting τ (Option (Node Tag))}

theorem Simulates.list (h : ∀ n, Simulates alike Eq (item n) (item' n)) (xs : List (Node Tag)) :
    Simulates alike Eq (list item xs) (list item' xs) := by
  induction xs with
  | nil => exact .pure rfl
  | cons x xs ih =>
    refine .bind (h x) ?_
    rintro y _ rfl
    refine .bind ih ?_
    rintro ys _ rfl
    split
    · exact .pure rfl
    · exact .pure rfl

theorem Simulates.slots (h : ∀ n, Simulates alike Eq (item n) (item' n))
    (slots : List (Slot Tag)) :
    Simulates alike Eq (Rewriting.slots item slots) (Rewriting.slots item' slots) := by
  induction slots with
  | nil => exact .pure rfl
  | cons slot rest ih =>
    refine .bind (.list h slot.nodes) ?_
    rintro new _ rfl
    split
    · exact .pure rfl
    · refine .bind ih ?_
      rintro others _ rfl
      exact .pure rfl

end Same

end GraphQLSyntax.Rewriting
