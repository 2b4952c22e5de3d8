import GraphQLSyntax.Proofs.Rewriting.Occurrence

/-!
# Identities in a run

Rebuilt nodes get the first unused identity.  As long as the calls of a run hand out
identities in order too, the first unused identity never goes down, and it stays above
the identities of all nodes that the run has come by.
-/

namespace GraphQLSyntax

namespace Node

theorem foldl_max_le_iff {xs : List Nat} {start bound : Nat} :
    xs.foldl max start ≤ bound ↔ start ≤ bound ∧ ∀ x ∈ xs, x ≤ bound := by
  induction xs generalizing start with
  | nil => simp
  | cons x xs ih => rw [List.foldl_cons, ih, Nat.max_le, List.forall_mem_cons, and_assoc]

theorem idBound_le_iff {n : Node Tag} {bound : Nat} :
    n.idBound ≤ bound ↔ ∀ m ∈ n.preorder, m.tag.id < bound := by
  rw [idBound, foldl_max_le_iff, List.forall_mem_map]
  exact ⟨fun h => h.2, fun h => ⟨Nat.zero_le bound, h⟩⟩

theorem RebuiltWith.children_eq {n m : Node Tag} {ns : List (List (Node Tag))}
    (h : n.RebuiltWith m ns) : m.children = ns.flatten := by
  rw [children_eq_flatten, h.slots]

end Node

namespace Run

variable {slots : List (Slot Tag)}

/-- The children of a node that is not dropped are those that runs are taken down for. -/
theorem Complete.children_eq {n : Node Tag} {run : Run} (h : Complete n.slots run.slots) :
    n.children = run.children.map given := by
  rw [Node.children_eq_flatten, ← h.given_eq, children, List.map_flatten]

theorem flatten_map_results (run : Run) :
    (run.slots.map results).flatten = run.children.filterMap result := by
  rw [children, List.filterMap_flatten]
  rfl

end Run

/-- Identities stay in order over runs that follow one another, and each of these runs
begins and ends in between. -/
theorem Consecutive.allocates {σ : Type} {trace : Node Tag → Rewriting σ Run}
    (htrace : ∀ x t run t', trace x t = .ok run t' → run.Every Call.Allocates →
      t.nextId ≤ t'.nextId)
    {s s' : Session σ} {runs : List Run} (h : Consecutive trace s runs s')
    (halloc : ∀ run ∈ runs, run.Every Call.Allocates) :
    s.nextId ≤ s'.nextId ∧ ∀ run ∈ runs, ∃ t t', trace run.given t = .ok run t' ∧
      s.nextId ≤ t.nextId ∧ t'.nextId ≤ s'.nextId := by
  induction h with
  | nil s => exact ⟨Nat.le_refl _, fun _ h => by cases h⟩
  | @cons run runs s t s' head _ ih =>
    rw [List.forall_mem_cons] at halloc
    have hhead := htrace _ _ _ _ head halloc.1
    obtain ⟨hle, hruns⟩ := ih halloc.2
    refine ⟨Nat.le_trans hhead hle, ?_⟩
    rw [List.forall_mem_cons]
    refine ⟨⟨s, t, head, Nat.le_refl _, hle⟩, fun r hr => ?_⟩
    obtain ⟨u, u', hr, hu, hu'⟩ := hruns r hr
    exact ⟨u, u', hr, Nat.le_trans hhead hu, hu'⟩

namespace Rewriter

variable {σ : Type} {rewriter : Rewriter σ} {height : Nat} {n : Node Tag} {s s' : Session σ}
  {run : Run}

/-- If the calls of a run hand out identities in order, so does the run. -/
theorem nextId_le_of_runWithin (h : rewriter.runWithin height n s = .ok run s')
    (halloc : run.Every Call.Allocates) : s.nextId ≤ s'.nextId := by
  induction height generalizing n s s' run with
  | zero => cases h
  | succ height ih =>
    obtain ⟨lower, heq, houtcome⟩ := exists_outcome h
    obtain rfl := Nat.succ.inj heq
    have henter := halloc.enter.before_le
    cases houtcome with
    | dropped hbefore hafter hchildren =>
      have hle := (hchildren.allocates (fun _ _ _ _ => ih) fun _ => halloc.child).1
      omega
    | left hbefore hafter _ hchildren _ hleave _ hupdated hstop =>
      have hle := (hchildren.allocates (fun _ _ _ _ => ih) fun _ => halloc.child).1
      have hstart := (halloc.leave hleave).before_le
      omega

/-- Whatever a run results in only has identities that are used up when it ends. -/
theorem idBound_le_of_runWithin (h : rewriter.runWithin height n s = .ok run s')
    (halloc : run.Every Call.Allocates) {m : Node Tag} (hresult : run.result = some m) :
    m.idBound ≤ s'.nextId := by
  obtain ⟨leaving, hleave, hanswer⟩ := Option.bind_eq_some_iff.1 hresult
  obtain ⟨lower, -, houtcome⟩ := exists_outcome h
  cases houtcome with
  | dropped _ _ _ hnone =>
    rw [hnone] at hleave
    cases hleave
  | left _ _ _ _ _ hsome _ _ hstop =>
    obtain rfl := Option.some.inj (hsome.symm.trans hleave)
    exact hstop ▸ (halloc.leave hleave).idBound_le m hanswer

end Rewriter

end GraphQLSyntax
