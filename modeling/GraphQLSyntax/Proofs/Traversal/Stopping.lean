import Mathlib.Data.List.Infix
import GraphQLSyntax.Proofs.Traversal.Visits

/-!
# Traversals that are stopped

A traversal may be compared with one that makes the same calls but is stopped by a certain
one of them, counted from one.  The latter makes no call that the former does not make, and
up to being stopped it goes on in the same way; so it is the former, cut off behind that
call.  Steps are compared first, of whatever kind of traversal, and then walks.
-/

namespace GraphQLSyntax

/-! ## Steps that are cut off -/

section Steps

variable {ε S T S' T' κ β γ : Type}

/-- The state that a step leaves, whether it has a result or not. -/
def stateAfter : EStateM.Result ε S β → S
  | .ok _ s => s
  | .error _ s => s

/-- The same outcome in another state. -/
def mapState (f : S → T) : EStateM.Result ε S β → EStateM.Result ε T β
  | .ok x s => .ok x (f s)
  | .error e s => .error e (f s)

@[simp] theorem stateAfter_mapState (f : S → T) (a : EStateM.Result ε S β) :
    stateAfter (mapState f a) = f (stateAfter a) := by
  cases a <;> rfl

/-- How a step tells which calls have been made, and how a step that is to be stopped goes on
from the same place. -/
structure Watch (ε S T κ : Type) where
  /-- The calls made so far, in order. -/
  calls : S → List κ
  /-- The same state, for a step that is to be stopped. -/
  counted : S → T
  calls' : T → List κ
  /-- What a step is stopped with. -/
  stopped : ε
  calls'_counted : ∀ s, calls' (counted s) = calls s

variable (watch : Watch ε S T κ) (n : Nat)

/-- The second outcome is the first one if that took less than `n` calls, and otherwise it
is that of being stopped by the call with the number `n`. -/
structure Watch.Cuts (whole : EStateM.Result ε S β) (cut : EStateM.Result ε T β) : Prop where
  of_le : n ≤ (watch.calls (stateAfter whole)).length →
    ∃ t, cut = .error watch.stopped t ∧ watch.calls' t = (watch.calls (stateAfter whole)).take n
  of_lt : (watch.calls (stateAfter whole)).length < n → cut = mapState watch.counted whole

/-- The first step makes calls in addition to those made before, and as long as these are
less than `n`, the second one is the first one cut off. -/
structure Watch.Follows (x : EStateM ε S β) (y : EStateM ε T β) : Prop where
  grows : ∀ s, watch.calls s <+: watch.calls (stateAfter (x s))
  cuts : ∀ s, (watch.calls s).length < n → watch.Cuts n (x s) (y (watch.counted s))

namespace Watch

variable {watch} {n}

/-- A step without calls is not cut off. -/
theorem Follows.silent {x : EStateM ε S β} {y : EStateM ε T β}
    (hcalls : ∀ s, watch.calls (stateAfter (x s)) = watch.calls s)
    (h : ∀ s, y (watch.counted s) = mapState watch.counted (x s)) : watch.Follows n x y where
  grows s := by rw [hcalls]
  cuts s hs :=
    { of_le := fun hle => absurd hle (by rw [hcalls]; omega)
      of_lt := fun _ => h s }

theorem Follows.pure (a : β) : watch.Follows n (pure a) (pure a) :=
  .silent (fun _ => rfl) fun _ => rfl

theorem Follows.throw (e : ε) :
    watch.Follows n (throw e : EStateM ε S β) (throw e : EStateM ε T β) :=
  .silent (fun _ => rfl) fun _ => rfl

/-- A step that is one call is cut off if it is the call to stop at. -/
theorem Follows.call {x : EStateM ε S β} {y : EStateM ε T β} (k : κ)
    (hcalls : ∀ s, watch.calls (stateAfter (x s)) = watch.calls s ++ [k])
    (hlast : ∀ s, (watch.calls s).length + 1 = n →
      ∃ t, y (watch.counted s) = .error watch.stopped t ∧ watch.calls' t = watch.calls s ++ [k])
    (hmore : ∀ s, (watch.calls s).length + 1 ≠ n →
      y (watch.counted s) = mapState watch.counted (x s)) : watch.Follows n x y where
  grows s := ⟨[k], (hcalls s).symm⟩
  cuts s hs := by
    have hlength : (watch.calls (stateAfter (x s))).length = (watch.calls s).length + 1 := by
      rw [hcalls, List.length_append, List.length_singleton]
    constructor
    · intro hle
      rw [List.take_of_length_le (by omega), hcalls]
      exact hlast s (by omega)
    · intro hlt
      exact hmore s (by omega)

/-- What was cut off stays cut off, whatever more calls there would have been. -/
theorem Cuts.of_isPrefix {a : EStateM.Result ε S β} {b : EStateM.Result ε S γ}
    {c : EStateM.Result ε T β} {d : EStateM.Result ε T γ} (h : watch.Cuts n a c)
    (hle : n ≤ (watch.calls (stateAfter a)).length)
    (hpre : watch.calls (stateAfter a) <+: watch.calls (stateAfter b))
    (hd : ∀ t, c = .error watch.stopped t → d = .error watch.stopped t) : watch.Cuts n b d where
  of_le _ := by
    obtain ⟨t, hc, hcalls⟩ := h.of_le hle
    obtain ⟨more, hmore⟩ := hpre
    exact ⟨t, hd t hc, by rw [hcalls, ← hmore, List.take_append_of_le_length hle]⟩
  of_lt hlt := absurd (hle.trans hpre.length_le) (Nat.not_le.2 hlt)

theorem Follows.bind {x : EStateM ε S β} {y : EStateM ε T β} {f : β → EStateM ε S γ}
    {g : β → EStateM ε T γ} (h : watch.Follows n x y) (hrest : ∀ a, watch.Follows n (f a) (g a)) :
    watch.Follows n (x >>= f) (y >>= g) where
  grows s := by
    have hgrows := h.grows s
    simp only [Bind.bind, EStateM.bind]
    cases hx : x s with
    | ok a s' =>
      rw [hx] at hgrows
      exact hgrows.trans ((hrest a).grows s')
    | error e s' =>
      rw [hx] at hgrows
      exact hgrows
  cuts s hs := by
    have hcuts := h.cuts s hs
    simp only [Bind.bind, EStateM.bind]
    cases hx : x s with
    | ok a s' =>
      rw [hx] at hcuts
      by_cases hlt : (watch.calls s').length < n
      · rw [hcuts.of_lt hlt]
        exact (hrest a).cuts s' hlt
      · refine hcuts.of_isPrefix (Nat.not_lt.1 hlt) ((hrest a).grows s') fun t ht => ?_
        rw [ht]
    | error e s' =>
      rw [hx] at hcuts
      by_cases hlt : (watch.calls s').length < n
      · rw [hcuts.of_lt hlt]
        exact ⟨fun hle => absurd hlt (Nat.not_lt.2 hle), fun _ => rfl⟩
      · refine hcuts.of_isPrefix (Nat.not_lt.1 hlt) (List.prefix_refl _) fun t ht => ?_
        rw [ht]

theorem Follows.forM {ι : Type} {f : ι → EStateM ε S Unit} {g : ι → EStateM ε T Unit}
    (h : ∀ i, watch.Follows n (f i) (g i)) (is : List ι) :
    watch.Follows n (is.forM f) (is.forM g) := by
  induction is with
  | nil => exact .pure ()
  | cons i is ih => exact .bind (h i) fun _ => ih

end Watch

/-- What a traversal that is stopped by the call with the number `limit` comes to, compared
with the whole traversal.  If that makes so many calls, then just these are made by the
other, which is stopped and so has the default result.  Otherwise both make the same calls
and come to the same. -/
structure CutAt [Inhabited β] (limit : Nat) (stopped : ε) (calls calls' : List κ) (f : S → T)
    (whole : EStateM.Result ε S β) (cut : EStateM.Result ε T β) : Prop where
  of_le : limit ≤ calls.length →
    calls' = calls.take limit ∧ (∃ t, cut = .error stopped t) ∧ resultOrDefault cut = default
  of_lt : calls.length < limit → calls' = calls ∧ cut = mapState f whole

/-- What is known of steps that take notes is known of them when the notes are dropped. -/
theorem Watch.Cuts.cutAt [Inhabited β] {watch : Watch ε S T κ} {n : Nat}
    {whole : EStateM.Result ε S β} {cut : EStateM.Result ε T β} (h : watch.Cuts n whole cut)
    {drop : S → S'} {drop' : T → T'} {f : S' → T'}
    (hdrop : drop' (watch.counted (stateAfter whole)) = f (drop (stateAfter whole))) :
    CutAt n watch.stopped (watch.calls (stateAfter whole)) (watch.calls' (stateAfter cut)) f
      (mapState drop whole) (mapState drop' cut) where
  of_le hle := by
    obtain ⟨t, rfl, hcalls⟩ := h.of_le hle
    exact ⟨hcalls, ⟨drop' t, rfl⟩, rfl⟩
  of_lt hlt := by
    obtain rfl := h.of_lt hlt
    refine ⟨by rw [stateAfter_mapState, watch.calls'_counted], ?_⟩
    cases whole with
    | ok x s => exact congrArg (EStateM.Result.ok x) hdrop
    | error e s => exact congrArg (EStateM.Result.error e) hdrop

end Steps

/-! ## Walks that are stopped -/

variable {α σ : Type}

/-- Takes a step that is a call, unless it is the call with the given number, counted from
one; at that one the traversal stops. -/
def Visit.unlessLast (limit : Nat) (x : Visit σ Unit) : Visit (σ × Nat) Unit := fun s =>
  if s.2 + 1 = limit then .error .stopped s
  else mapState (fun t => (t, s.2 + 1)) (x s.1)

namespace Walker

/-- Does what the walker does, and stops at the call with the given number, counted from
one. -/
def stoppingAt (limit : Nat) (walker : Walker α σ) : Walker α (σ × Nat) where
  enter n := Visit.unlessLast limit (walker.enter n)
  leave n := Visit.unlessLast limit (walker.leave n)

/-- The walk that takes notes, and the one that counts the calls as well. -/
def watch (α σ : Type) : Watch Stopped (σ × Visits α) ((σ × Nat) × Visits α) (Phase × Node α) where
  calls s := s.2
  counted s := ((s.1, s.2.length), s.2)
  calls' t := t.2
  stopped := .stopped
  calls'_counted _ := rfl

theorem call_stoppingAt (limit : Nat) (walker : Walker α σ) (visit : Phase × Node α) :
    (walker.stoppingAt limit).call visit = Visit.unlessLast limit (walker.call visit) := by
  obtain ⟨_ | _, n⟩ := visit
  · rfl
  · rfl

theorem stateAfter_noting (visit : Phase × Node α) (x : Visit σ Unit) (s : σ × Visits α) :
    (stateAfter (Visit.noting visit x s)).2 = s.2 ++ [visit] := by
  rw [Visit.noting]
  cases x s.1 <;> rfl

/-- One call more, or the call to stop at. -/
theorem follows_noting (limit : Nat) (visit : Phase × Node α) (x : Visit σ Unit) :
    (watch α σ).Follows limit (Visit.noting visit x)
      (Visit.noting visit (Visit.unlessLast limit x)) := by
  refine .call visit (stateAfter_noting visit x) ?_ ?_
  · rintro ⟨s, notes⟩ (hlast : notes.length + 1 = limit)
    refine ⟨((s, notes.length), notes ++ [visit]), ?_, rfl⟩
    simp [Visit.noting, Visit.unlessLast, watch, hlast]
  · rintro ⟨s, notes⟩ (hmore : notes.length + 1 ≠ limit)
    simp only [Visit.noting, Visit.unlessLast, watch]
    cases x s <;> simp [mapState, hmore]

theorem follows_walk (limit : Nat) (walker : Walker α σ) (n : Node α) :
    (watch α σ).Follows limit (walker.noting.walk n) ((walker.stoppingAt limit).noting.walk n) := by
  rw [walk_eq_forM_visits, walk_eq_forM_visits]
  refine .forM (fun visit => ?_) n.visits
  rw [call_noting, call_noting, call_stoppingAt]
  exact follows_noting limit visit (walker.call visit)

/-- What comes of a walk does not depend on notes being taken. -/
theorem walk_noting_eq (walker : Walker α σ) (n : Node α) (s : σ) (notes : Visits α) :
    mapState Prod.fst (walker.noting.walk n (s, notes)) = walker.walk n s := by
  rw [walk_eq_forM_visits, walk_eq_forM_visits]
  generalize n.visits = visits
  induction visits generalizing s notes with
  | nil => rfl
  | cons visit visits ih =>
    rw [List.forM_cons, List.forM_cons, call_noting]
    simp only [bind, EStateM.bind, Visit.noting]
    cases walker.call visit s with
    | ok _ t => exact ih t _
    | error e t => rfl

/-- The calls that a walk makes, in order, however it ends. -/
def calls (walker : Walker α σ) (n : Node α) (s : σ) : Visits α :=
  (stateAfter (walker.noting.walk n (s, []))).2

/-- A walk that is not stopped makes all visits. -/
theorem calls_eq_visits {walker : Walker α σ} {n : Node α} {s s' : σ}
    (h : walker.walk n s = .ok ⟨⟩ s') : walker.calls n s = n.visits := by
  rw [calls, walk_noting h]
  rfl

/-- Whether a walk is stopped or not, it makes visits in their order, beginning with the first
one. -/
theorem calls_isPrefix (walker : Walker α σ) (n : Node α) (s : σ) :
    walker.calls n s <+: n.visits := by
  rw [calls, walk_eq_forM_visits]
  suffices h : ∀ visits notes,
      (stateAfter (forM visits walker.noting.call (s, notes))).2 <+: notes ++ visits from h _ []
  intro visits
  induction visits generalizing s with
  | nil => exact fun notes => ⟨[], rfl⟩
  | cons visit visits ih =>
    intro notes
    rw [List.forM_cons, call_noting, List.append_cons]
    simp only [bind, EStateM.bind, Visit.noting]
    cases walker.call visit s with
    | ok _ t => exact ih t _
    | error e t => exact List.prefix_append _ _

/-- A walk that is stopped by a call is cut off behind it. -/
theorem cutAt_walk {limit : Nat} (hlimit : 0 < limit) (walker : Walker α σ) (n : Node α) (s : σ) :
    CutAt limit .stopped (walker.calls n s) ((walker.stoppingAt limit).calls n (s, 0))
      (·, (walker.calls n s).length) (walker.walk n s)
      ((walker.stoppingAt limit).walk n (s, 0)) := by
  rw [← walker.walk_noting_eq n s [], ← (walker.stoppingAt limit).walk_noting_eq n (s, 0) []]
  exact ((follows_walk limit walker n).cuts (s, []) hlimit).cutAt rfl

end Walker

end GraphQLSyntax
