import GraphQLSyntax.Proofs.Rewriting.Run

/-!
# What a step does with the children

The children of a node are rewritten one after the other, each in the session in which
the one before has ended.  Either a slot that needs a child has lost its last one, or
the node is updated: it stays itself if every child came back as it was, and is rebuilt
with what came of the children otherwise.
-/

namespace GraphQLSyntax

variable {σ : Type} {trace : Node Tag → Rewriting σ Run} {s s' t : Session σ}

/-! ## Runs one after the other -/

/-- Each run begins in the session in which the one before has ended. -/
inductive Consecutive (trace : Node Tag → Rewriting σ Run) :
    Session σ → List Run → Session σ → Prop
  | nil (s : Session σ) : Consecutive trace s [] s
  | cons {run : Run} {runs : List Run} {s t s' : Session σ}
      (head : trace run.given s = .ok run t) (tail : Consecutive trace t runs s') :
      Consecutive trace s (run :: runs) s'

namespace Consecutive

theorem append {runs others : List Run} (h : Consecutive trace s runs t)
    (hothers : Consecutive trace t others s') : Consecutive trace s (runs ++ others) s' := by
  induction h with
  | nil => exact hothers
  | cons head _ ih => exact .cons head (ih hothers)

theorem exists_of_mem {runs : List Run} (h : Consecutive trace s runs s') {run : Run}
    (hmem : run ∈ runs) : ∃ t t', trace run.given t = .ok run t' := by
  induction h with
  | nil => cases hmem
  | cons head _ ih =>
    cases hmem with
    | head => exact ⟨_, _, head⟩
    | tail _ hmem => exact ih hmem

end Consecutive

namespace Run

/-- The runs for the slots of a node, none of which has lost a child that it needs. -/
abbrev Complete (slots : List (Slot Tag)) (runs : List (List Run)) : Prop :=
  List.Forall₂ (fun slot runs => runs.map given = slot.nodes ∧
    (slot.arity.isNeeded → replacement runs ≠ some [])) slots runs

end Run

namespace Rewriting

variable (hgiven : ∀ x s run s', trace x s = .ok run s' → run.given = x)
include hgiven

theorem consecutive_of_mapM {xs : List (Node Tag)} {runs : List Run}
    (h : xs.mapM trace s = .ok runs s') : Consecutive trace s runs s' := by
  induction xs generalizing s runs with
  | nil =>
    obtain ⟨rfl, rfl⟩ := pure_eq_ok.1 h
    exact .nil s
  | cons x xs ih =>
    simp only [List.mapM_cons, bind_eq_ok, pure_eq_ok] at h
    obtain ⟨run, t, hrun, runs, t', hruns, rfl, rfl⟩ := h
    exact .cons (by rwa [hgiven _ _ _ _ hrun]) (ih hruns)

theorem consecutive_of_runSlots {slots : List (Slot Tag)} {runs : List (List Run)}
    {complete : Bool} (h : runSlots trace slots s = .ok (runs, complete) s') :
    Consecutive trace s runs.flatten s' := by
  induction slots generalizing s runs with
  | nil =>
    obtain ⟨heq, rfl⟩ := pure_eq_ok.1 h
    cases heq
    exact .nil s
  | cons slot rest ih =>
    obtain ⟨first, t, hfirst, h⟩ := bind_eq_ok.1 h
    have hconsecutive := consecutive_of_mapM hgiven hfirst
    split at h
    · obtain ⟨heq, rfl⟩ := pure_eq_ok.1 h
      cases heq
      simpa using hconsecutive
    · obtain ⟨⟨others, complete⟩, t', hothers, h⟩ := bind_eq_ok.1 h
      obtain ⟨heq, rfl⟩ := pure_eq_ok.1 h
      cases heq
      exact hconsecutive.append (ih hothers)

theorem complete_of_runSlots {slots : List (Slot Tag)} {runs : List (List Run)}
    (h : runSlots trace slots s = .ok (runs, true) s') :
    Run.Complete slots runs := by
  induction slots generalizing s runs with
  | nil =>
    obtain ⟨heq, rfl⟩ := pure_eq_ok.1 h
    cases heq
    exact .nil
  | cons slot rest ih =>
    obtain ⟨first, t, hfirst, h⟩ := bind_eq_ok.1 h
    split at h
    case isTrue =>
      obtain ⟨heq, -⟩ := pure_eq_ok.1 h
      cases heq
    case isFalse hkept =>
      obtain ⟨⟨others, complete⟩, t', hothers, h⟩ := bind_eq_ok.1 h
      obtain ⟨heq, rfl⟩ := pure_eq_ok.1 h
      cases heq
      refine .cons ⟨given_of_mapM hgiven hfirst, fun hneeded hlost => hkept ?_⟩ (ih hothers)
      simp [hneeded, hlost]

/-- A slot that needs a child has lost the last one, and it had one. -/
theorem exists_emptied_of_runSlots {slots : List (Slot Tag)} {runs : List (List Run)}
    (h : runSlots trace slots s = .ok (runs, false) s') :
    ∃ slot ∈ slots, ∃ lost ∈ runs, slot.arity.isNeeded ∧ lost.map Run.given = slot.nodes ∧
      Run.replacement lost = some [] := by
  induction slots generalizing s runs with
  | nil =>
    obtain ⟨heq, -⟩ := pure_eq_ok.1 h
    cases heq
  | cons slot rest ih =>
    obtain ⟨first, t, hfirst, h⟩ := bind_eq_ok.1 h
    split at h
    case isTrue hlost =>
      obtain ⟨heq, -⟩ := pure_eq_ok.1 h
      cases heq
      obtain ⟨hneeded, hnone⟩ := Bool.and_eq_true_iff.1 hlost
      exact ⟨slot, List.mem_cons_self, first, List.mem_singleton_self _, hneeded,
        given_of_mapM hgiven hfirst, by simpa using hnone⟩
    case isFalse =>
      obtain ⟨⟨others, complete⟩, t', hothers, h⟩ := bind_eq_ok.1 h
      obtain ⟨heq, rfl⟩ := pure_eq_ok.1 h
      cases heq
      obtain ⟨emptied, hmem, lost, hlost, hemptied⟩ := ih hothers
      exact ⟨emptied, List.mem_cons_of_mem _ hmem, lost, List.mem_cons_of_mem _ hlost, hemptied⟩

end Rewriting

/-! ## The updated node -/

namespace Run

theorem results_eq_map_given_iff {runs : List Run} :
    results runs = runs.map given ↔ ∀ run ∈ runs, run.result = some run.given := by
  refine ⟨fun h => ?_, results_eq_map_given⟩
  induction runs with
  | nil => simp
  | cons run runs ih =>
    have hle : (results runs).length ≤ runs.length := List.length_filterMap_le ..
    cases hresult : run.result with
    | none =>
      rw [results, List.filterMap_cons_none hresult] at h
      have hlen := congrArg List.length h
      rw [List.length_map, List.length_cons] at hlen
      exact absurd hlen (by unfold results at hle; omega)
    | some m =>
      rw [results, List.filterMap_cons_some hresult, List.map_cons, List.cons.injEq] at h
      intro r hr
      cases hr with
      | head => rw [hresult, h.1]
      | tail _ hr => exact ih h.2 r hr

/-- A slot is emptied if it held nodes and none of them is left. -/
theorem replacement_eq_some_nil_iff {runs : List Run} :
    replacement runs = some [] ↔ runs ≠ [] ∧ results runs = [] := by
  unfold replacement
  split
  case isTrue hkept =>
    rw [results_eq_map_given hkept, List.map_eq_nil_iff]
    simp
  case isFalse hchanged =>
    have hne : runs ≠ [] := by
      rintro rfl
      exact hchanged (List.forall_mem_nil _)
    simp [hne]

theorem mem_results {runs : List Run} {m : Node Tag} :
    m ∈ results runs ↔ ∃ run ∈ runs, run.result = some m :=
  List.mem_filterMap

namespace Complete

variable {slots : List (Slot Tag)} {runs : List (List Run)}

theorem given_eq (h : Complete slots runs) :
    runs.map (·.map given) = slots.map Slot.nodes := by
  induction h with
  | nil => rfl
  | cons hslot _ ih => rw [List.map_cons, List.map_cons, ih, hslot.1]

theorem replaced_eq (h : Complete slots runs) :
    (slots.mapIdx fun i slot => ((runs.map replacement)[i]?.join).getD slot.nodes) =
      runs.map results := by
  induction h with
  | nil => rfl
  | cons hslot _ ih =>
    simp only [List.map_cons, List.mapIdx_cons, List.getElem?_cons_zero,
      List.getElem?_cons_succ, ih, Option.join_some, ← hslot.1, getD_replacement]

theorem admits (h : Complete slots runs)
    (hkind : ∀ run ∈ runs.flatten, ∀ m, run.result = some m → m.kind = run.given.kind) :
    List.Forall₂ Slot.Admits slots (runs.map results) := by
  induction h with
  | nil => exact .nil
  | @cons slot first _ _ hslot _ ih =>
    simp only [List.flatten_cons, List.mem_append] at hkind
    refine .cons ?_ (ih fun run hrun => hkind run (.inr hrun))
    constructor
    case exists_kind =>
      intro m hm
      obtain ⟨run, hrun, hresult⟩ := mem_results.1 hm
      exact ⟨run.given, hslot.1 ▸ List.mem_map_of_mem hrun,
        hkind run (.inl hrun) m hresult⟩
    case length_le =>
      rw [← hslot.1, List.length_map]
      exact List.length_filterMap_le ..
    case ne_nil =>
      intro hneeded hne hnil
      refine hslot.2 hneeded (replacement_eq_some_nil_iff.2 ⟨?_, hnil⟩)
      rintro rfl
      exact hne hslot.1.symm

/-- The children are those of the slots exactly if every one of them is kept. -/
theorem results_eq_iff (h : Complete slots runs) :
    runs.map results = slots.map Slot.nodes ↔
      ∀ run ∈ runs.flatten, run.result = some run.given := by
  rw [← h.given_eq, List.map_inj_left]
  simp only [results_eq_map_given_iff, List.mem_flatten]
  exact ⟨fun h run ⟨rs, hrs, hrun⟩ => h rs hrs run hrun,
    fun h rs hrs run hrun => h run ⟨rs, hrs, hrun⟩⟩

end Complete

/-- Updating a node with what has come of its children leaves it alone if they were all
kept, and otherwise makes a new node of them. -/
theorem update_complete {n : Node Tag} {runs : List (List Run)} (h : Complete n.slots runs)
    (hkind : ∀ run ∈ runs.flatten, ∀ m, run.result = some m → m.kind = run.given.kind)
    (nextId : Nat) :
    ∃ m bound, n.update (runs.map replacement) nextId = (m, bound) ∧
      n.RebuiltWith m (runs.map results) ∧
      (m = n ∧ bound = nextId ∧ (∀ run ∈ runs.flatten, run.result = some run.given) ∨
        m ≠ n ∧ bound = nextId + 1 ∧ m.tag.id = nextId ∧
          ¬ ∀ run ∈ runs.flatten, run.result = some run.given) := by
  have hreplaced : n.replacedSlots (runs.map replacement) = runs.map results := h.replaced_eq
  by_cases hkept : ∀ run ∈ runs.flatten, run.result = some run.given
  · have heq := h.results_eq_iff.2 hkept
    refine ⟨n, nextId, Node.update_of_eq (hreplaced.trans heq) nextId, ?_,
      .inl ⟨rfl, rfl, hkept⟩⟩
    rw [heq]
    exact .refl n
  · have hne : n.replacedSlots (runs.map replacement) ≠ n.slots.map Slot.nodes := by
      rwa [hreplaced, Ne, h.results_eq_iff]
    obtain ⟨m, hm, hid, hrebuilt⟩ :=
      Node.exists_update_of_ne hne (hreplaced ▸ h.admits hkind) nextId
    rw [hreplaced] at hrebuilt
    refine ⟨m, nextId + 1, hm, hrebuilt, .inr ⟨?_, rfl, hid, hkept⟩⟩
    rintro rfl
    exact hkept (h.results_eq_iff.1 hrebuilt.slots.symm)

end Run

/-! ## What comes of a step -/

namespace Rewriter

variable {rewriter : Rewriter σ} {height : Nat} {n : Node Tag} {run : Run}

open Rewriting

/-- A step either drops the node, on entering it or for want of a child, or leaves it
after updating it. -/
inductive Outcome (rewriter : Rewriter σ) (height : Nat) (s : Session σ) (run : Run)
    (s' : Session σ) : Prop
  | dropped {t : Session σ} (hbefore : run.enter.before = s.nextId)
      (hafter : run.enter.after = t.nextId)
      (hchildren : Consecutive (rewriter.runWithin height) t run.children s')
      (hleave : run.leave = none)
      (hlost : run.enter.answer = none ∨
        ∃ lost ∈ run.slots, Run.replacement lost = some []) :
      Outcome rewriter height s run s'
  | left {entered : Node Tag} {leaving : Call} {t t' : Session σ}
      (hbefore : run.enter.before = s.nextId) (hafter : run.enter.after = t.nextId)
      (hanswer : run.enter.answer = some entered)
      (hchildren : Consecutive (rewriter.runWithin height) t run.children t')
      (hcomplete : Run.Complete entered.slots run.slots)
      (hleave : run.leave = some leaving)
      (hrebuilt : entered.RebuiltWith leaving.given (run.slots.map Run.results))
      (hupdated : leaving.given = entered ∧ leaving.before = t'.nextId ∧
          (∀ child ∈ run.children, child.result = some child.given) ∨
        leaving.given ≠ entered ∧ leaving.before = t'.nextId + 1 ∧
          leaving.given.tag.id = t'.nextId ∧
          ¬ ∀ child ∈ run.children, child.result = some child.given)
      (hstop : leaving.after = s'.nextId) :
      Outcome rewriter height s run s'

theorem exists_outcome (h : rewriter.runWithin height n s = .ok run s') :
    ∃ lower, height = lower + 1 ∧ rewriter.Outcome lower s run s' := by
  obtain ⟨lower, rfl, hstep⟩ := step_of_runWithin h
  refine ⟨lower, rfl, ?_⟩
  have hgiven : ∀ x t child t', rewriter.runWithin lower x t = .ok child t' →
      child.given = x := fun _ _ _ _ => given_of_runWithin
  cases hstep with
  | deleted hentering hanswer =>
    obtain ⟨_, -, rfl⟩ := observe_eq_ok.1 hentering
    exact .dropped rfl rfl (.nil s') rfl (.inl hanswer)
  | emptied hentering _ hslots =>
    obtain ⟨_, -, rfl⟩ := observe_eq_ok.1 hentering
    obtain ⟨_, -, lost, hlost, -, -, hnone⟩ := exists_emptied_of_runSlots hgiven hslots
    exact .dropped rfl rfl (consecutive_of_runSlots hgiven hslots) rfl
      (.inr ⟨lost, hlost, hnone⟩)
  | left hentering hanswer hslots hleaving =>
    obtain ⟨_, -, rfl⟩ := observe_eq_ok.1 hentering
    have hchildren := consecutive_of_runSlots hgiven hslots
    have hcomplete := complete_of_runSlots hgiven hslots
    obtain ⟨m, bound, hupdate, hrebuilt, hupdated⟩ := Run.update_complete hcomplete
      (fun child hchild m hm => by
        obtain ⟨_, _, hrun⟩ := hchildren.exists_of_mem hchild
        exact kind_of_runWithin hrun hm) _
    rw [hupdate] at hleaving
    obtain ⟨_, -, rfl⟩ := observe_eq_ok.1 hleaving
    exact .left rfl rfl hanswer hchildren hcomplete rfl hrebuilt hupdated rfl

end Rewriter

end GraphQLSyntax
