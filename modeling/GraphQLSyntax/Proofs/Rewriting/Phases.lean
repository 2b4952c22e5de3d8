import GraphQLSyntax.Proofs.Rewriting.Remains

/-!
# Deleting in one phase or the other

A rewriter that deletes the nodes of a sort may do so when it enters them or when it leaves
them.  On leaving, their children have been rewritten before, so that a node that is about to
be deleted may have been rebuilt, or may have gone for want of a child and is not left at
all.  As long as deletions below a node do not change whether it is of the sort, the two
rewriters leave the same of every tree.
-/

namespace GraphQLSyntax

/-! ## Rewriters that delete the nodes of a sort -/

/-- Deletions below a node do not change whether it satisfies the predicate. -/
def Node.StableUnderDeletion (p : Node Tag → Bool) : Prop :=
  ∀ n m : Node Tag, n.Prunes m → ¬ n.Copies m → p m = p n

/-- The name of a field stays when nodes below the field are deleted. -/
theorem Node.Prunes.label_of_field {n m : Node Tag} (h : n.Prunes m) (hkind : n.kind = .field) :
    m.label = n.label := by
  have hslots := h.forall₂_slots
  have hkind' := h.kind_eq.trans hkind
  cases n <;> cases hkind
  cases m <;> cases hkind'
  rename_i x y
  obtain ⟨hname, -⟩ := List.forall₂_cons.1 (List.forall₂_cons.1 hslots).2
  obtain ⟨c, hc, hprunes⟩ := hname.exists_eq_singleton rfl rfl
  obtain rfl : .name y.name = c := (List.cons.inj hc).1
  exact Content.text.inj hprunes.content_eq

/-- The field has the given name. -/
def Node.isFieldCalled (name : String) (n : Node Tag) : Bool :=
  n.kind == .field && n.label == name

namespace Node

theorem isFieldCalled_stable (name : String) : StableUnderDeletion (isFieldCalled name) := by
  intro n m hprunes _
  rw [isFieldCalled, isFieldCalled, hprunes.kind_eq]
  by_cases hkind : n.kind = .field
  · rw [hprunes.label_of_field hkind]
  · rw [beq_eq_false_iff_ne.2 hkind, Bool.false_and, Bool.false_and]

theorem StableUnderDeletion.or {p q : Node Tag → Bool} (hp : StableUnderDeletion p)
    (hq : StableUnderDeletion q) : StableUnderDeletion fun k => p k || q k := by
  intro n m hprunes hcopies
  simp only [hp n m hprunes hcopies, hq n m hprunes hcopies]

end Node

/-- Every call keeps its node or deletes it, only nodes of the sort are deleted, and in one
of the phases all of them are. -/
structure Rewriter.Deletes (rewriter : Rewriter Unit) (p : Node Tag → Bool) : Prop where
  enter : ∀ n s, p n = true ∧ rewriter.enter n s = .ok none s ∨
    rewriter.enter n s = .ok (some ⟨n, rfl⟩) s
  leave : ∀ n s, p n = true ∧ rewriter.leave n s = .ok none s ∨
    rewriter.leave n s = .ok (some ⟨n, rfl⟩) s
  deletes : (∀ n s, p n = true → rewriter.enter n s = .ok none s) ∨
    ∀ n s, p n = true → rewriter.leave n s = .ok none s

/-- Deletes the nodes of a sort when they are left. -/
def Rewriter.deletingOnLeave (p : Node Tag → Bool) : Rewriter Unit where
  enter n := pure (some ⟨n, n.kind_self⟩)
  leave n := pure (if p n then none else some ⟨n, n.kind_self⟩)

namespace Rewriter

variable (p : Node Tag → Bool)

theorem answer_of_sort (n : Node Tag) (s : Session Unit) :
    (p n = true ∧ (pure (if p n then none else some ⟨n, n.kind_self⟩) :
      Rewriting Unit (Option n.Substitute)) s = .ok none s) ∨
    (pure (if p n then none else some ⟨n, n.kind_self⟩) :
      Rewriting Unit (Option n.Substitute)) s = .ok (some ⟨n, rfl⟩) s := by
  cases h : p n with
  | true => exact .inl ⟨rfl, rfl⟩
  | false => exact .inr rfl

theorem deleted_of_sort {n : Node Tag} (h : p n = true) (s : Session Unit) :
    (pure (if p n then none else some ⟨n, n.kind_self⟩) :
      Rewriting Unit (Option n.Substitute)) s = .ok none s := by
  rw [if_pos h]
  rfl

theorem deleting_deletes : (deleting p).Deletes p where
  enter := answer_of_sort p
  leave _ _ := .inr rfl
  deletes := .inl fun _ s h => deleted_of_sort p h s

theorem deletingOnLeave_deletes : (deletingOnLeave p).Deletes p where
  enter _ _ := .inr rfl
  leave := answer_of_sort p
  deletes := .inr fun _ s h => deleted_of_sort p h s

end Rewriter

namespace Rewriter.Deletes

variable {rewriter : Rewriter Unit} {p : Node Tag → Bool}

theorem onlyDeletes (h : rewriter.Deletes p) : rewriter.OnlyDeletes where
  enter n s := by
    obtain ⟨-, heq⟩ | heq := h.enter n s
    · exact heq ▸ .deleted s
    · exact heq ▸ .kept s
  leave n s := by
    obtain ⟨-, heq⟩ | heq := h.leave n s
    · exact heq ▸ .deleted s
    · exact heq ▸ .kept s

theorem neverHalts (h : rewriter.Deletes p) : rewriter.NeverHalts where
  enter n s := by
    obtain ⟨-, heq⟩ | heq := h.enter n s
    · exact ⟨_, _, heq⟩
    · exact ⟨_, _, heq⟩
  leave n s := by
    obtain ⟨-, heq⟩ | heq := h.leave n s
    · exact ⟨_, _, heq⟩
    · exact ⟨_, _, heq⟩

end Rewriter.Deletes

/-! ## What a run leaves -/

/-- What holds when a run begins is kept up from run to run, and each run is as it should be. -/
theorem Consecutive.forall_of_step {σ : Type} {trace : Node Tag → Rewriting σ Run}
    {I : Session σ → Prop} {P : Run → Prop}
    (hstep : ∀ run t t', trace run.given t = .ok run t' → I t → I t' ∧ P run)
    {s s' : Session σ} {runs : List Run} (h : Consecutive trace s runs s') (hs : I s) :
    I s' ∧ ∀ run ∈ runs, P run := by
  induction h with
  | nil => exact ⟨hs, List.forall_mem_nil _⟩
  | cons head _ ih =>
    obtain ⟨ht, hrun⟩ := hstep _ _ _ head hs
    obtain ⟨hs', hruns⟩ := ih ht
    exact ⟨hs', List.forall_mem_cons.2 ⟨hrun, hruns⟩⟩

/-- The slots of an updated node hold what the runs for the children have left. -/
theorem Run.Complete.leaves {outcome : Node Tag → Option (Node Tag) → Prop}
    {olds news : List (Slot Tag)} {runs : List (List Run)} (h : Run.Complete olds runs)
    (harity : news.map Slot.arity = olds.map Slot.arity)
    (hnodes : news.map Slot.nodes = runs.map Run.results)
    (hbelow : ∀ run ∈ runs.flatten, outcome run.given run.result) :
    List.Forall₂ (Slot.Leaves outcome) olds news := by
  induction h generalizing news with
  | nil =>
    rw [List.map_eq_nil_iff.1 harity]
    exact .nil
  | @cons old first _ _ hold _ ih =>
    obtain ⟨new, news, rfl, hnew, harities⟩ := List.map_eq_cons_iff.1 harity
    rw [List.map_cons, List.map_cons, List.cons.injEq] at hnodes
    rw [List.flatten_cons, List.forall_mem_append] at hbelow
    refine .cons ?_ (ih harities hnodes.2 hbelow.2)
    obtain ⟨arity, nodes⟩ := old
    obtain ⟨_, newNodes⟩ := new
    obtain rfl : arity = _ := hnew.symm
    obtain rfl : newNodes = results first := hnodes.1
    obtain rfl : nodes = first.map given := hold.1.symm
    have hpairs : (first.map fun run => (run.given, run.result)).filterMap Prod.snd =
        results first := List.filterMap_map ..
    have hslot : Slot.Leaves outcome _ _ :=
      .intro arity (first.map fun run => (run.given, run.result)) (fun hneeded hne hnil => ?_) ?_
    · rw [hpairs, List.map_map] at hslot
      exact hslot
    · refine hold.2 hneeded (replacement_eq_some_nil_iff.2 ⟨?_, hpairs ▸ hnil⟩)
      exact fun h => hne (List.map_eq_nil_iff.2 h)
    · exact List.forall_mem_map.2 hbelow.1

namespace Rewriter.Deletes

variable {rewriter : Rewriter Unit} {p : Node Tag → Bool} {n m : Node Tag}
  {s s' t t' : Session Unit} {call call' : Call}

open Rewriting

/-- A call for a node deletes it if it is of the sort, or keeps it. -/
theorem answer_of_observe_sort {hook : (n : Node Tag) → Rewriting Unit (Option n.Substitute)}
    (hhook : p n = true ∧ hook n s = .ok none s ∨ hook n s = .ok (some ⟨n, rfl⟩) s)
    (h : observe hook n s = .ok call s') :
    s' = s ∧ (p n = true ∧ call.answer = none ∨ call.answer = some n) := by
  obtain ⟨answer, hanswer, rfl⟩ := observe_eq_ok.1 h
  obtain ⟨hp, heq⟩ | heq := hhook
  all_goals
    rw [hanswer] at heq
    cases heq
  · exact ⟨rfl, .inl ⟨hp, rfl⟩⟩
  · exact ⟨rfl, .inr rfl⟩

/-- A node that no call deletes is not of the sort. -/
theorem not_or_not (hdeletes : rewriter.Deletes p)
    (henter : observe rewriter.enter n s = .ok call s') (hcall : call.answer ≠ none)
    (hleave : observe rewriter.leave m t = .ok call' t') (hcall' : call'.answer ≠ none) :
    p n = false ∨ p m = false := by
  obtain ⟨answer, hanswer, rfl⟩ := observe_eq_ok.1 henter
  obtain ⟨answer', hanswer', rfl⟩ := observe_eq_ok.1 hleave
  obtain hdeleted | hdeleted := hdeletes.deletes
  · refine .inl (Bool.eq_false_iff.2 fun hp => hcall ?_)
    rw [hdeleted n s hp] at hanswer
    cases hanswer
    rfl
  · refine .inr (Bool.eq_false_iff.2 fun hp => hcall' ?_)
    rw [hdeleted m t hp] at hanswer'
    cases hanswer'
    rfl

end Rewriter.Deletes

/-- Once it is known what is left of the children of a node, updating it gives what deletion
leaves, unless the node is deleted itself; and that is as much of the sort as the node. -/
theorem Run.Complete.exists_update_leaves {p : Node Tag → Bool}
    (hp : Node.StableUnderDeletion p) {n : Node Tag} {runs : List (List Run)}
    (h : Run.Complete n.slots runs) {bound nextId : Nat} (hbound : bound ≤ nextId)
    (hbelow : ∀ run ∈ runs.flatten, run.given.Leaves p bound run.result) :
    ∃ m next, n.update (runs.map Run.replacement) nextId = (m, next) ∧ bound ≤ next ∧
      (p n = false → n.Leaves p bound (some m)) ∧ p m = p n := by
  have hchild : ∀ run ∈ runs.flatten, run.given ∈ n.children := fun run hrun => by
    rw [Node.children_eq_flatten, ← h.given_eq, ← List.map_flatten]
    exact List.mem_map_of_mem hrun
  obtain ⟨m, next, hupdate, hrebuilt, hupdated⟩ := Run.update_complete h
    (fun run hrun l hl => (hl ▸ hbelow run hrun).prunes.kind_eq) nextId
  have harity : m.slots.map Slot.arity = n.slots.map Slot.arity := by
    rw [Node.map_arity_slots, Node.map_arity_slots, hrebuilt.kind]
  have hslots := h.leaves harity hrebuilt.slots hbelow
  -- children that are all left as copies have nothing of the sort in them
  have huntouched : n.Copies m → ∀ c ∈ n.children, ∀ k ∈ c.preorder, p k = false :=
    fun hcopies => Node.untouched_of_copies hslots hcopies fun _ _ _ hl => hl.untouched_of_copies
  refine ⟨m, next, hupdate, ?_⟩
  obtain ⟨rfl, rfl, -⟩ | ⟨-, rfl, hid, hchanged⟩ := hupdated
  · refine ⟨hbound, fun hself => .untouched fun k hk => ?_, rfl⟩
    obtain rfl | ⟨c, hc, hk⟩ := Node.mem_preorder_iff.1 hk
    · exact hself
    · exact huntouched (.refl m) c hc k hk
  · have htouched : ¬ ∀ c ∈ n.children, ∀ k ∈ c.preorder, p k = false := fun hnone =>
      hchanged fun run hrun => (hbelow run hrun).eq_of_untouched (hnone _ (hchild run hrun))
    have hrebuilt : n.RebuiltWith m (m.slots.map Slot.nodes) := hrebuilt.slots ▸ hrebuilt
    have hprunes : n.Prunes m := Node.prunes_of_slots hrebuilt hslots fun _ _ _ hl => hl.prunes
    refine ⟨by omega, fun hself => .rebuilt hself ?_ (by omega) hrebuilt hslots,
      hp n m hprunes fun hcopies => htouched (huntouched hcopies)⟩
    by_contra hnone
    refine htouched fun c hc k hk => Bool.eq_false_iff.2 fun hpk => hnone ⟨k, ?_, hpk⟩
    exact Node.mem_preorder_of_mem_children hc hk

/-- A node that loses all children of a slot which needs some is lost as well. -/
theorem Rewriting.leaves_none_of_runSlots {p : Node Tag → Bool} {bound : Nat} {n : Node Tag}
    {trace : Node Tag → Rewriting Unit Run} {s s' : Session Unit}
    (hgiven : ∀ x t child t', trace x t = .ok child t' → child.given = x)
    {runs : List (List Run)} (h : Rewriting.runSlots trace n.slots s = .ok (runs, false) s')
    (hchildren : ∀ child ∈ runs.flatten, child.given.Leaves p bound child.result) :
    n.Leaves p bound none := by
  obtain ⟨slot, hslot, lost, hlost, hneeded, hnodes, hnil⟩ :=
    Rewriting.exists_emptied_of_runSlots hgiven h
  obtain ⟨hne, hnone⟩ := Run.replacement_eq_some_nil_iff.1 hnil
  refine .emptied hslot hneeded ?_ fun c hc => ?_
  · rwa [← hnodes, Ne, List.map_eq_nil_iff]
  · rw [← hnodes] at hc
    obtain ⟨child, hchild, rfl⟩ := List.mem_map.1 hc
    have hleaves := hchildren child (List.mem_flatten.2 ⟨lost, hlost, hchild⟩)
    rwa [List.filterMap_eq_nil_iff.1 hnone child hchild] at hleaves

namespace Rewriter.Deletes

variable {rewriter : Rewriter Unit} {p : Node Tag → Bool} {height bound : Nat} {n : Node Tag}
  {s s' : Session Unit} {run : Run}

open Rewriting

/-- A run of a rewriter that deletes the nodes of a sort leaves what deletion leaves. -/
theorem leaves_of_runWithin (hdeletes : rewriter.Deletes p) (hp : Node.StableUnderDeletion p)
    (h : rewriter.runWithin height n s = .ok run s') (hbound : bound ≤ s.nextId) :
    bound ≤ s'.nextId ∧ n.Leaves p bound run.result := by
  induction height generalizing n s s' run with
  | zero => cases h
  | succ height ih =>
    have hgiven : ∀ x t child t', rewriter.runWithin height x t = .ok child t' →
        child.given = x := fun _ _ _ _ => given_of_runWithin
    have hsteps : ∀ {t runs t'}, Consecutive (rewriter.runWithin height) t runs t' →
        bound ≤ t.nextId → bound ≤ t'.nextId ∧
          ∀ child ∈ runs, child.given.Leaves p bound child.result :=
      fun hruns ht => hruns.forall_of_step (fun _ _ _ hrun ht => ih hrun ht) ht
    cases runWithin_succ_eq_ok.1 h with
    | deleted hentering hanswer =>
      obtain ⟨rfl, ⟨hpn, -⟩ | hkept⟩ := answer_of_observe_sort (hdeletes.enter n s) hentering
      · exact ⟨hbound, .deleted hpn⟩
      · cases hanswer.symm.trans hkept
    | emptied hentering hanswer hslots =>
      obtain ⟨rfl, ⟨-, hnone⟩ | hkept⟩ := answer_of_observe_sort (hdeletes.enter n s) hentering
      · cases hanswer.symm.trans hnone
      obtain rfl := Option.some.inj (hanswer.symm.trans hkept)
      obtain ⟨hs', hchildren⟩ := hsteps (consecutive_of_runSlots hgiven hslots) hbound
      exact ⟨hs', leaves_none_of_runSlots hgiven hslots hchildren⟩
    | @left entering leaving entered slots t t' _ hentering hanswer hslots hleaving =>
      obtain ⟨rfl, ⟨-, hnone⟩ | hkept⟩ := answer_of_observe_sort (hdeletes.enter n s) hentering
      · cases hanswer.symm.trans hnone
      obtain rfl := Option.some.inj (hanswer.symm.trans hkept)
      obtain ⟨ht', hchildren⟩ := hsteps (consecutive_of_runSlots hgiven hslots) hbound
      obtain ⟨m, next, hupdate, hnext, hleaves, hsame⟩ :=
        (complete_of_runSlots hgiven hslots).exists_update_leaves hp ht' hchildren
      rw [hupdate] at hleaving
      obtain ⟨rfl, ⟨hpm, hleft⟩ | hleft⟩ := answer_of_observe_sort (hdeletes.leave m _) hleaving
      all_goals
        refine ⟨hnext, ?_⟩
        rw [Run.result, Option.bind_some, hleft]
      · exact .deleted (hsame ▸ hpm)
      · refine hleaves ?_
        obtain hpn | hpm :=
          hdeletes.not_or_not hentering (by simp [hkept]) hleaving (by simp [hleft])
        · exact hpn
        · exact hsame ▸ hpm

/-- A rewriter that deletes the nodes of a sort comes to an end, and leaves what deletion
leaves. -/
theorem exists_rewrite (hdeletes : rewriter.Deletes p) (hp : Node.StableUnderDeletion p)
    (n : Node Tag) (s : Session Unit) :
    ∃ x t, rewriter.rewrite n s = .ok x t ∧
      ∀ bound ≤ s.nextId, bound ≤ t.nextId ∧ n.Leaves p bound x := by
  obtain ⟨result, t, hwithin⟩ :=
    hdeletes.onlyDeletes.exists_ok hdeletes.neverHalts (Nat.le_refl n.height) s
  refine ⟨_, t, bind_eq_ok.2 ⟨result, t, hwithin, rfl⟩, fun bound hbound => ?_⟩
  obtain ⟨run, hrun, hresult⟩ := rewriteWithin_eq_ok.1 hwithin
  rw [← hresult]
  exact hdeletes.leaves_of_runWithin hp hrun hbound

end Rewriter.Deletes

/-! ## The two phases -/

/-- Nodes of a sort may be deleted when they are entered or when they are left, as long as
deletions below a node do not change whether it is of the sort.  The results are both
nothing, or trees that agree in everything but the identities of rebuilt nodes, and that hold
the same nodes of the old tree at the same places. -/
theorem Rewriter.deleting_sameRemains_deletingOnLeave {p : Node Tag → Bool}
    (hp : Node.StableUnderDeletion p) (n : Node Tag) (s s' : Session Unit)
    (hs : n.idBound ≤ s.nextId) (hs' : n.idBound ≤ s'.nextId) :
    ∃ x t y t', (deleting p).rewrite n s = .ok x t ∧
      (deletingOnLeave p).rewrite n s' = .ok y t' ∧ n.SameRemains x y := by
  obtain ⟨x, t, hx, hleaves⟩ := (deleting_deletes p).exists_rewrite hp n s
  obtain ⟨y, t', hy, hleaves'⟩ := (deletingOnLeave_deletes p).exists_rewrite hp n s'
  obtain ⟨-, hleaves⟩ := hleaves n.idBound hs
  obtain ⟨-, hleaves'⟩ := hleaves' n.idBound hs'
  exact ⟨x, t, y, t', hx, hy, hleaves.sameRemains (Nat.le_refl _) hleaves'⟩

/-! ### Fields of a name and inline fragments -/

section Doomed

/-- Inline fragments, and fields that are called `b`. -/
def Node.isDoomed (n : Node Tag) : Bool :=
  n.kind == .inlineFragment || n.isFieldCalled "b"

theorem Node.isDoomed_stable : StableUnderDeletion isDoomed :=
  .or (fun _ _ hprunes _ => by rw [hprunes.kind_eq]) (isFieldCalled_stable "b")

/-- `{ a { b } ... on T { b c } }`, as parsed. -/
def Node.doomedSelections : Node Tag :=
  let field (name : String) (id : Nat) : Selection Tag :=
    .field ⟨none, ⟨name, ⟨id, none⟩⟩, [], [], none, ⟨id + 1, none⟩⟩
  .selectionSet
    ⟨[.field ⟨none, ⟨"a", ⟨0, none⟩⟩, [], [], some ⟨[field "b" 1], ⟨3, none⟩⟩, ⟨4, none⟩⟩,
      .inline ⟨⟨⟨"T", ⟨5, none⟩⟩, ⟨6, none⟩⟩, [],
        ⟨[field "b" 7, field "c" 9], ⟨11, none⟩⟩, ⟨12, none⟩⟩],
    ⟨13, none⟩⟩

/-- `{ a }`, in nodes that were made for it, of which the last one has the given identity. -/
def Node.sparedSelections (id : Nat) : Node Tag :=
  .selectionSet ⟨[.field ⟨none, ⟨"a", ⟨0, none⟩⟩, [], [], none, ⟨14, none⟩⟩], ⟨id, none⟩⟩

/-- On leaving, the selections of the inline fragment have been rebuilt before it is deleted,
which uses up two more identities. -/
theorem Rewriter.deleting_sameRemains_deletingOnLeave_doomed :
    Node.StableUnderDeletion Node.isDoomed ∧ Node.doomedSelections.idBound ≤ 14 ∧
      (deleting Node.isDoomed).rewrite Node.doomedSelections ⟨14, ()⟩ =
        .ok (some (Node.sparedSelections 15)) ⟨16, ()⟩ ∧
      (deletingOnLeave Node.isDoomed).rewrite Node.doomedSelections ⟨14, ()⟩ =
        .ok (some (Node.sparedSelections 17)) ⟨18, ()⟩ ∧
      Node.doomedSelections.SameRemains (some (Node.sparedSelections 15))
        (some (Node.sparedSelections 17)) := by
  have hbound : Node.doomedSelections.idBound ≤ 14 := by decide_cbv
  have henter : (deleting Node.isDoomed).rewrite Node.doomedSelections ⟨14, ()⟩ =
      .ok (some (Node.sparedSelections 15)) ⟨16, ()⟩ := by decide +kernel
  have hleave : (deletingOnLeave Node.isDoomed).rewrite Node.doomedSelections ⟨14, ()⟩ =
      .ok (some (Node.sparedSelections 17)) ⟨18, ()⟩ := by decide +kernel
  obtain ⟨x, t, y, t', hx, hy, hsame⟩ :=
    deleting_sameRemains_deletingOnLeave Node.isDoomed_stable Node.doomedSelections ⟨14, ()⟩
      ⟨14, ()⟩ hbound hbound
  cases henter.symm.trans hx
  cases hleave.symm.trans hy
  exact ⟨Node.isDoomed_stable, hbound, henter, hleave, hsame⟩

end Doomed

end GraphQLSyntax
