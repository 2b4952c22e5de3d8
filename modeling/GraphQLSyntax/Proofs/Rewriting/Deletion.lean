import GraphQLSyntax.Proofs.Rewriting.Sharing

/-!
# Rewriters that only delete

A rewriter that keeps or deletes each node leaves a pruned tree: every node that is left
has its old kind, content and location, and in each of its slots what is left of the nodes
that stood there, in their order.  A rewrite halts only as the calls do, so that nothing
but the rewriter itself keeps it from coming to an end.
-/

namespace GraphQLSyntax

variable {σ β γ : Type}

/-! ## Halting -/

namespace Rewriting

/-- If the step halts, it does so for a cause of the given sort. -/
def HaltsOnly (P : Halt → Prop) (x : Rewriting σ β) : Prop :=
  ∀ s halt s', x s = .error halt s' → P halt

namespace HaltsOnly

variable {P : Halt → Prop}

theorem pure (y : β) : HaltsOnly (σ := σ) P (Pure.pure y) :=
  nofun

theorem create (make : Nat → β × Nat) : HaltsOnly (σ := σ) P (Rewriting.create make) :=
  nofun

theorem bind {x : Rewriting σ β} {f : β → Rewriting σ γ} (h : HaltsOnly P x)
    (hrest : ∀ s y s', x s = .ok y s' → HaltsOnly P (f y)) : HaltsOnly P (x >>= f) := by
  intro s halt s' hhalt
  simp only [Bind.bind, EStateM.bind] at hhalt
  cases hx : x s with
  | ok y t =>
    rw [hx] at hhalt
    exact hrest s y t hx t halt s' hhalt
  | error halt' t =>
    rw [hx] at hhalt
    obtain ⟨rfl, -⟩ := EStateM.Result.error.inj hhalt
    exact h s _ t hx

variable {item : Node Tag → Rewriting σ (Option (Node Tag))}

theorem list {xs : List (Node Tag)} (h : ∀ x ∈ xs, HaltsOnly P (item x)) :
    HaltsOnly P (Rewriting.list item xs) := by
  induction xs with
  | nil => exact .pure _
  | cons x xs ih =>
    rw [List.forall_mem_cons] at h
    refine .bind h.1 fun _ y _ _ => .bind (ih h.2) fun _ ys _ _ => ?_
    split
    · exact .pure _
    · exact .pure _

theorem slots {slots : List (Slot Tag)}
    (h : ∀ x ∈ slots.flatMap Slot.nodes, HaltsOnly P (item x)) :
    HaltsOnly P (Rewriting.slots item slots) := by
  induction slots with
  | nil => exact .pure _
  | cons slot rest ih =>
    simp only [List.flatMap_cons, List.mem_append] at h
    refine .bind (.list fun x hx => h x (.inl hx)) fun _ new _ _ => ?_
    split
    · exact .pure _
    · exact .bind (ih fun x hx => h x (.inr hx)) fun _ others _ _ => .pure _

end HaltsOnly

end Rewriting

namespace Rewriter

variable {rewriter : Rewriter σ}

open Rewriting

/-- As long as no call makes a tree higher, a rewrite halts only as its calls do. -/
theorem haltsOnly_rewriteWithin {P : Halt → Prop}
    (henter : ∀ n, HaltsOnly P (rewriter.enter n)) (hleave : ∀ n, HaltsOnly P (rewriter.leave n))
    (hlow : ∀ n s m s', rewriter.enter n s = .ok (some m) s' → m.val.height ≤ n.height)
    {height : Nat} {n : Node Tag} (hheight : n.height ≤ height) :
    HaltsOnly P (rewriter.rewriteWithin height n) := by
  induction height generalizing n with
  | zero =>
    rw [n.height_eq] at hheight
    omega
  | succ height ih =>
    refine .bind (henter n) fun s answer t hanswer => ?_
    cases answer with
    | none => exact .pure _
    | some entered =>
      have hentered := hlow n s entered t hanswer
      have hchildren : ∀ c ∈ entered.1.slots.flatMap Slot.nodes, HaltsOnly P
          (do return (← rewriter.rewriteWithin height c).map Subtype.val : Rewriting σ _) := by
        intro c hc
        have hlt := Node.height_lt_of_mem_children hc
        exact .bind (ih (by omega)) fun _ _ _ _ => .pure _
      refine .bind (.slots hchildren) fun _ new _ _ => ?_
      cases new with
      | none => exact .pure _
      | some new =>
        refine .bind (.create _) fun _ updated _ _ => .bind (hleave _) fun _ left _ _ => ?_
        cases left with
        | none => exact .pure _
        | some left => exact .pure _

end Rewriter

/-! ## Keeping and deleting -/

/-- The outcome of a call that keeps its node, deletes it or stops the rewrite. -/
inductive Node.KeptOrDeleted (n : Node Tag) :
    EStateM.Result Halt (Session σ) (Option n.Substitute) → Prop
  | kept (s : Session σ) : KeptOrDeleted n (.ok (some ⟨n, rfl⟩) s)
  | deleted (s : Session σ) : KeptOrDeleted n (.ok none s)
  | stopped (s : Session σ) : KeptOrDeleted n (.error .stopped s)

/-- Every call keeps its node, deletes it or stops the rewrite, whatever the rewriter
remembers. -/
structure Rewriter.OnlyDeletes (rewriter : Rewriter σ) : Prop where
  enter : ∀ (n : Node Tag) s, n.KeptOrDeleted (rewriter.enter n s)
  leave : ∀ (n : Node Tag) s, n.KeptOrDeleted (rewriter.leave n s)

/-- No call stops the rewrite. -/
structure Rewriter.NeverHalts (rewriter : Rewriter σ) : Prop where
  enter : ∀ n s, ∃ answer s', rewriter.enter n s = .ok answer s'
  leave : ∀ n s, ∃ answer s', rewriter.leave n s = .ok answer s'

/-- The second tree is what is left of the first one when nodes are deleted.  Of the nodes
in a slot, some are kept, in their order, and pruned in turn; one at least, if the slot
needs a node and had one. -/
inductive Node.Prunes : Node Tag → Node Tag → Prop
  | intro {n m : Node Tag} (hkind : m.kind = n.kind) (hcontent : m.content = n.content)
      (hlocation : m.tag.location = n.tag.location) (kept : List (List (Node Tag × Node Tag)))
      (hold : List.Forall₂ (fun pairs slot => (pairs.map Prod.fst).Sublist slot.nodes ∧
        (slot.arity.isNeeded → slot.nodes ≠ [] → pairs ≠ [])) kept n.slots)
      (hnew : kept.map (·.map Prod.snd) = m.slots.map Slot.nodes)
      (hbelow : ∀ pairs ∈ kept, ∀ pair ∈ pairs, Prunes pair.1 pair.2) : Prunes n m

namespace Run

/-- The nodes of a slot that are left, each with what is left of it. -/
def keptPairs (runs : List Run) : List (Node Tag × Node Tag) :=
  runs.filterMap fun run => run.result.map (run.given, ·)

theorem mem_keptPairs {runs : List Run} {pair : Node Tag × Node Tag} :
    pair ∈ keptPairs runs ↔ ∃ run ∈ runs, run.given = pair.1 ∧ run.result = some pair.2 := by
  rw [keptPairs, List.mem_filterMap]
  refine exists_congr fun run => and_congr_right fun _ => ?_
  rw [Option.map_eq_some_iff]
  constructor
  · rintro ⟨m, hm, rfl⟩
    exact ⟨rfl, hm⟩
  · rintro ⟨hgiven, hresult⟩
    exact ⟨pair.2, hresult, Prod.ext hgiven rfl⟩

theorem map_snd_keptPairs (runs : List Run) : (keptPairs runs).map Prod.snd = results runs := by
  rw [keptPairs, List.map_filterMap, results]
  refine congrArg (List.filterMap · runs) (funext fun run => ?_)
  rw [Option.map_map]
  exact Option.map_id'

theorem map_fst_keptPairs (runs : List Run) :
    ((keptPairs runs).map Prod.fst).Sublist (runs.map given) := by
  induction runs with
  | nil => exact .slnil
  | cons run runs ih =>
    rw [List.map_cons]
    cases hresult : run.result with
    | none =>
      rw [keptPairs, List.filterMap_cons_none (by rw [hresult]; rfl)]
      exact ih.cons _
    | some m =>
      rw [keptPairs, List.filterMap_cons_some (by rw [hresult]; rfl), List.map_cons]
      exact ih.cons_cons _

/-- What is left of the slots of a node that has lost no child that it needs. -/
theorem Complete.keptPairs {slots : List (Slot Tag)} {runs : List (List Run)}
    (h : Complete slots runs) :
    List.Forall₂ (fun pairs slot => (pairs.map Prod.fst).Sublist slot.nodes ∧
      (slot.arity.isNeeded → slot.nodes ≠ [] → pairs ≠ [])) (runs.map Run.keptPairs) slots := by
  rw [List.forall₂_map_left_iff]
  refine h.flip.imp ?_
  rintro runs slot ⟨hgiven, hneeded⟩
  refine ⟨hgiven ▸ map_fst_keptPairs runs, fun hneeds hne hnil => hneeded hneeds ?_⟩
  refine replacement_eq_some_nil_iff.2 ⟨?_, by rw [← map_snd_keptPairs, hnil, List.map_nil]⟩
  rintro rfl
  exact hne hgiven.symm

end Run

namespace Rewriter

variable {rewriter : Rewriter σ} {height : Nat} {n m : Node Tag} {s s' : Session σ} {run : Run}

open Rewriting

theorem answer_of_observe {hook : (n : Node Tag) → Rewriting σ (Option n.Substitute)}
    (hhook : n.KeptOrDeleted (hook n s)) {call : Call} (h : observe hook n s = .ok call s')
    (hanswer : call.answer = some m) : m = call.given := by
  obtain ⟨answer, hcall, rfl⟩ := observe_eq_ok.1 h
  rw [hcall] at hhook
  cases hhook with
  | kept => exact (Option.some.inj hanswer).symm
  | deleted => cases hanswer

/-- In the run of a rewriter that only deletes, no call puts in another node. -/
theorem OnlyDeletes.every (hdeletes : rewriter.OnlyDeletes)
    (h : rewriter.runWithin height n s = .ok run s') :
    run.Every fun call => ∀ m, call.answer = some m → m = call.given :=
  every_of_runWithin (fun n s _ _ hcall _ => answer_of_observe (hdeletes.enter n s) hcall)
    (fun n s _ _ hcall _ => answer_of_observe (hdeletes.leave n s) hcall) h

/-- A node that is left after a run of a rewriter that only deletes is the one that was
given, with what has come of its children. -/
theorem OnlyDeletes.rebuiltWith (hdeletes : rewriter.OnlyDeletes)
    (h : rewriter.runWithin height n s = .ok run s') (hresult : run.result = some m) :
    Run.Complete n.slots run.slots ∧ n.RebuiltWith m (run.slots.map Run.results) := by
  have hevery := hdeletes.every h
  obtain ⟨_, -, houtcome⟩ := exists_outcome h
  cases houtcome with
  | dropped _ _ _ hleave =>
    rw [Run.result, hleave] at hresult
    cases hresult
  | @left entered leaving _ _ _ _ hanswer _ hcomplete hleave hrebuilt _ _ =>
    obtain rfl : entered = n :=
      (hevery.enter entered hanswer).trans (given_of_runWithin h)
    rw [Run.result, hleave, Option.bind_some] at hresult
    obtain rfl := hevery.leave hleave m hresult
    exact ⟨hcomplete, hrebuilt⟩

/-- What a run of a rewriter that only deletes results in is a pruned tree. -/
theorem OnlyDeletes.prunes (hdeletes : rewriter.OnlyDeletes)
    (h : rewriter.runWithin height n s = .ok run s') (hresult : run.result = some m) :
    n.Prunes m := by
  induction height generalizing n m s s' run with
  | zero => cases h
  | succ height ih =>
    obtain ⟨_, heq, hchildren⟩ := exists_run_of_child h
    obtain rfl := Nat.succ.inj heq
    obtain ⟨hcomplete, hrebuilt⟩ := hdeletes.rebuiltWith h hresult
    refine .intro hrebuilt.kind hrebuilt.content hrebuilt.location
      (run.slots.map Run.keptPairs) hcomplete.keptPairs ?_ ?_
    · rw [hrebuilt.slots, List.map_map]
      exact List.map_congr_left fun runs _ => Run.map_snd_keptPairs runs
    · intro pairs hpairs pair hpair
      obtain ⟨runs, hruns, rfl⟩ := List.mem_map.1 hpairs
      obtain ⟨child, hchild, hpair₁, hpair₂⟩ := Run.mem_keptPairs.1 hpair
      obtain ⟨_, _, hrun⟩ := hchildren child (List.mem_flatten.2 ⟨runs, hruns, hchild⟩)
      rw [hpair₁] at hrun
      exact ih hrun hpair₂

theorem OnlyDeletes.height_le (hdeletes : rewriter.OnlyDeletes) {m : n.Substitute}
    (h : rewriter.enter n s = .ok (some m) s') : m.val.height ≤ n.height := by
  have hkept := hdeletes.enter n s
  rw [h] at hkept
  cases hkept
  exact Nat.le_refl _

theorem haltsOnly_of_keptOrDeleted {hook : Rewriting σ (Option n.Substitute)}
    (h : ∀ s, n.KeptOrDeleted (hook s)) : HaltsOnly (· = .stopped) hook := by
  intro s halt s' hhalt
  have hstopped := h s
  rw [hhalt] at hstopped
  cases hstopped
  rfl

/-- Nothing but the rewriter itself stops a rewrite that only deletes. -/
theorem OnlyDeletes.haltsOnly (hdeletes : rewriter.OnlyDeletes) (hheight : n.height ≤ height) :
    HaltsOnly (· = .stopped) (rewriter.rewriteWithin height n) :=
  haltsOnly_rewriteWithin (fun n => haltsOnly_of_keptOrDeleted (hdeletes.enter n))
    (fun n => haltsOnly_of_keptOrDeleted (hdeletes.leave n))
    (fun _ _ _ _ => hdeletes.height_le) hheight

/-- A rewriter that only deletes and never stops comes to an end. -/
theorem OnlyDeletes.exists_ok (hdeletes : rewriter.OnlyDeletes) (hgoes : rewriter.NeverHalts)
    (hheight : n.height ≤ height) (s : Session σ) :
    ∃ result s', rewriter.rewriteWithin height n s = .ok result s' := by
  have hnever : ∀ {n : Node Tag} {hook : Rewriting σ (Option n.Substitute)},
      (∀ s, ∃ answer s', hook s = .ok answer s') → HaltsOnly (fun _ => False) hook := by
    intro n hook hok s halt s' hhalt
    obtain ⟨answer, t, hanswer⟩ := hok s
    rw [hanswer] at hhalt
    cases hhalt
  cases hrewrite : rewriter.rewriteWithin height n s with
  | ok result s' => exact ⟨result, s', rfl⟩
  | error halt s' =>
    exact (haltsOnly_rewriteWithin (fun n => hnever (hgoes.enter n))
      (fun n => hnever (hgoes.leave n)) (fun _ _ _ _ => hdeletes.height_le) hheight _ _ _
      hrewrite).elim

end Rewriter

/-! ## Deleting one sort of nodes -/

/-- Deletes the nodes of a sort as soon as they are entered. -/
def Rewriter.deleting (p : Node Tag → Bool) : Rewriter Unit where
  enter n := pure (if p n then none else some ⟨n, n.kind_self⟩)
  leave n := pure (some ⟨n, n.kind_self⟩)

namespace Rewriter

variable (p : Node Tag → Bool)

theorem deleting_onlyDeletes : (deleting p).OnlyDeletes where
  enter n s := by
    show n.KeptOrDeleted (.ok (if p n then none else some ⟨n, n.kind_self⟩) s)
    split
    · exact .deleted s
    · exact .kept s
  leave _ s := .kept s

theorem deleting_neverHalts : (deleting p).NeverHalts where
  enter _ s := ⟨_, s, rfl⟩
  leave _ s := ⟨_, s, rfl⟩

end Rewriter

end GraphQLSyntax
