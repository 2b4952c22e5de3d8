import GraphQLSyntax.Proofs.Rewriting.Phases

/-!
# Deletions one after the other

Deleting the nodes of one sort and then those of another leaves what deleting the nodes of
either sort leaves, so the order of the two does not matter.  What has become of a node in
the first pass is asked about in the second one: a slot may lose some nodes in one pass and
the others in the next, and has to be emptied in the second one then, and a node has to be
of a sort after the first pass if it was before.
-/

namespace GraphQLSyntax

namespace Node

variable {p q : Node Tag → Bool} {bound : Nat} {n m : Node Tag} {r : Option (Node Tag)}

/-- A node that is left is as much of any lasting sort as the one that it was. -/
theorem Leaves.sort_eq (hq : StableUnderDeletion q) (h : n.Leaves p bound (some m)) :
    q m = q n := by
  by_cases hcopies : n.Copies m
  · obtain rfl := Option.some.inj (h.eq_of_untouched (h.untouched_of_copies hcopies))
    rfl
  · exact hq n m h.prunes hcopies

/-- Nothing of the sort is left. -/
theorem Leaves.untouched_after (hp : StableUnderDeletion p) (h : n.Leaves p bound (some m)) :
    ∀ k ∈ m.preorder, p k = false := by
  induction n using Node.inductionOn generalizing m with
  | step n ih =>
    intro k hk
    obtain rfl | ⟨l, hl, hk⟩ := mem_preorder_iff.1 hk
    · exact (h.sort_eq hp).trans h.self_eq_false
    obtain ⟨new, hnew, hl⟩ := List.mem_flatMap.1 hl
    obtain ⟨old, hold, hslot⟩ := exists_left_of_forall₂ h.slots.2 hnew
    obtain ⟨c, hc, hleaves⟩ := hslot.exists_origin hl
    exact ih c (mem_children_of_mem_slot hold hc) hleaves k hk

/-- Two deletions, one after the other, leave what one deletion leaves. -/
theorem Leaves.fuse (hq : StableUnderDeletion q) (h : n.Leaves p bound (some m))
    (hnext : m.Leaves q bound r) : n.Leaves (fun k => p k || q k) bound r := by
  induction n using Node.inductionOn generalizing m r with
  | step n ih =>
    have hsort := h.sort_eq hq
    have hself := h.self_eq_false
    cases h with
    | untouched hn => exact hnext.congr fun c hc => by rw [hn c hc, Bool.false_or]
    | rebuilt _ htouched hnew hrebuilt hslots =>
      have hthen : ∀ c ∈ n.children, ∀ r, Leaves.Then (Leaves p bound) (Leaves q bound) c r →
          c.Leaves (fun k => p k || q k) bound r := by
        intro c hc r hr
        cases hr with
        | none h => exact h.mono_none fun k hk => by rw [hk, Bool.true_or]
        | some h hnext => exact ih c hc h hnext
      cases r with
      | none =>
        cases hnext with
        | deleted h => exact .deleted (by rw [← hsort, h, Bool.or_true])
        | emptied hslot hneeded hne hbelow =>
          obtain ⟨old, hold, hleaves⟩ := exists_left_of_forall₂ hslots hslot
          obtain ⟨l, hl⟩ := List.exists_mem_of_ne_nil _ hne
          obtain ⟨c, hc, -⟩ := hleaves.exists_origin hl
          refine .emptied hold (hleaves.arity_eq ▸ hneeded) (List.ne_nil_of_mem hc) fun c hc => ?_
          refine hthen c (mem_children_of_mem_slot hold hc) none ?_
          obtain ⟨_ | l, houtcome, hmem⟩ := hleaves.exists_outcome hc
          · exact .none houtcome
          · exact .some houtcome (hbelow l (hmem l rfl))
      | some l =>
        obtain ⟨hrebuilt', hslots'⟩ := hnext.slots
        have hid : bound ≤ l.tag.id := by
          cases hnext with
          | untouched => exact hnew
          | rebuilt _ _ hnew' => exact hnew'
        obtain ⟨k, hk, hpk⟩ := htouched
        refine .rebuilt ?_ ⟨k, hk, by rw [hpk, Bool.true_or]⟩ hid (hrebuilt.trans hrebuilt') ?_
        · rw [hself, ← hsort, hnext.self_eq_false, Bool.or_false]
        refine forall₂_imp_of_mem (forall₂_comp hslots hslots') ?_
        rintro slot hslot last ⟨_, hfirst, hsecond⟩
        exact (hfirst.trans hsecond).imp fun c hc =>
          hthen c (mem_children_of_mem_slot hslot hc)

end Node

/-! ## Passes -/

namespace Rewriter

/-- Two rewrites, the second one of what the first one leaves, if it leaves anything. -/
def inTurn {σ : Type} (first second : Rewriter σ) (n : Node Tag) :
    Rewriting σ (Option (Node Tag)) := do
  match ← first.rewrite n with
  | none => return none
  | some m => second.rewrite m

variable {p q : Node Tag → Bool}

open Rewriting Node

theorem exists_inTurn (hp : StableUnderDeletion p) (hq : StableUnderDeletion q) (n : Node Tag)
    (s : Session Unit) :
    ∃ x t, (deleting p).inTurn (deleting q) n s = .ok x t ∧
      n.Leaves (fun k => p k || q k) 0 x := by
  obtain ⟨x, t, hx, hleaves⟩ := (deleting_deletes p).exists_rewrite hp n s
  obtain ⟨-, hleaves⟩ := hleaves 0 (Nat.zero_le _)
  cases x with
  | none =>
    refine ⟨none, t, bind_eq_ok.2 ⟨none, t, hx, rfl⟩, hleaves.mono_none fun k hk => ?_⟩
    rw [hk, Bool.true_or]
  | some m =>
    obtain ⟨y, t', hy, hnext⟩ := (deleting_deletes q).exists_rewrite hq m t
    obtain ⟨-, hnext⟩ := hnext 0 (Nat.zero_le _)
    exact ⟨y, t', bind_eq_ok.2 ⟨some m, t, hx, hy⟩, hleaves.fuse hq hnext⟩

/-- Deletions fuse and commute.  Deleting the nodes of two sorts one after the other comes to
the same tree, or to none, as deleting the nodes of either sort in one pass, whatever
identities the rebuilt nodes get; so the two passes may change places.  Repeating a pass on a
tree that it has left returns the very same tree. -/
theorem deletions_fuse_and_commute (hp : StableUnderDeletion p) (hq : StableUnderDeletion q)
    (n : Node Tag) (s s' : Session Unit) :
    (∃ x t y t', (deleting p).inTurn (deleting q) n s = .ok x t ∧
      (deleting fun k => p k || q k).rewrite n s' = .ok y t' ∧
      x.map (Node.map Tag.location) = y.map (Node.map Tag.location)) ∧
    (∃ x t y t', (deleting p).inTurn (deleting q) n s = .ok x t ∧
      (deleting q).inTurn (deleting p) n s' = .ok y t' ∧
      x.map (Node.map Tag.location) = y.map (Node.map Tag.location)) ∧
    ∀ m t, (deleting p).rewrite n s = .ok (some m) t →
      ∃ t', (deleting p).rewrite m s' = .ok (some m) t' := by
  obtain ⟨x, t, hx, hleaves⟩ := exists_inTurn hp hq n s
  refine ⟨?_, ?_, ?_⟩
  · obtain ⟨y, t', hy, hleaves'⟩ := (deleting_deletes _).exists_rewrite (hp.or hq) n s'
    obtain ⟨-, hleaves'⟩ := hleaves' 0 (Nat.zero_le _)
    exact ⟨x, t, y, t', hx, hy, hleaves.map_location_eq hleaves'⟩
  · obtain ⟨y, t', hy, hleaves'⟩ := exists_inTurn hq hp n s'
    have hswapped := hleaves'.congr fun k _ => Bool.or_comm (q k) (p k)
    exact ⟨x, t, y, t', hx, hy, hleaves.map_location_eq hswapped⟩
  · intro m t hm
    obtain ⟨x, t, hx, hleaves⟩ := (deleting_deletes p).exists_rewrite hp n s
    obtain ⟨y, t', hy, hnext⟩ := (deleting_deletes p).exists_rewrite hp m s'
    cases hm.symm.trans hx
    obtain ⟨-, hleaves⟩ := hleaves 0 (Nat.zero_le _)
    obtain ⟨-, hnext⟩ := hnext 0 (Nat.zero_le _)
    rw [hnext.eq_of_untouched (hleaves.untouched_after hp)] at hy
    exact ⟨t', hy⟩

end Rewriter

/-! ### A slot that is emptied by two passes -/

section Emptied

/-- `{ c { a b } }`, as parsed. -/
def Node.emptiedSelections : Node Tag :=
  let field (name : String) (id : Nat) : Selection Tag :=
    .field ⟨none, ⟨name, ⟨id, none⟩⟩, [], [], none, ⟨id + 1, none⟩⟩
  .selectionSet ⟨[.field ⟨none, ⟨"c", ⟨0, none⟩⟩, [], [], some ⟨[field "a" 1, field "b" 3],
    ⟨5, none⟩⟩, ⟨6, none⟩⟩], ⟨7, none⟩⟩

/-- `{ c }`, in nodes that were made for it, from the given identity on. -/
def Node.leftSelections (id : Nat) : Node Tag :=
  .selectionSet ⟨[.field ⟨none, ⟨"c", ⟨0, none⟩⟩, [], [], none, ⟨id, none⟩⟩], ⟨id + 1, none⟩⟩

/-- Each of two passes deletes one of the two fields, and the second one the braces. -/
theorem Rewriter.deletions_fuse_and_commute_emptied :
    let isA := Node.isFieldCalled "a"
    let isB := Node.isFieldCalled "b"
    Node.StableUnderDeletion isA ∧ Node.StableUnderDeletion isB ∧
      (deleting isA).inTurn (deleting isB) Node.emptiedSelections ⟨8, ()⟩ =
        .ok (some (Node.leftSelections 11)) ⟨13, ()⟩ ∧
      (deleting fun k => isA k || isB k).rewrite Node.emptiedSelections ⟨8, ()⟩ =
        .ok (some (Node.leftSelections 8)) ⟨10, ()⟩ ∧
      (Node.leftSelections 11).Copies (Node.leftSelections 8) := by
  intro isA isB
  have hA : Node.StableUnderDeletion isA := Node.isFieldCalled_stable "a"
  have hB : Node.StableUnderDeletion isB := Node.isFieldCalled_stable "b"
  have hturn : (deleting isA).inTurn (deleting isB) Node.emptiedSelections ⟨8, ()⟩ =
      .ok (some (Node.leftSelections 11)) ⟨13, ()⟩ := by decide +kernel
  have hone : (deleting fun k => isA k || isB k).rewrite Node.emptiedSelections ⟨8, ()⟩ =
      .ok (some (Node.leftSelections 8)) ⟨10, ()⟩ := by decide +kernel
  obtain ⟨⟨x, t, y, t', hx, hy, hsame⟩, -, -⟩ :=
    deletions_fuse_and_commute hA hB Node.emptiedSelections ⟨8, ()⟩ ⟨8, ()⟩
  cases hturn.symm.trans hx
  cases hone.symm.trans hy
  exact ⟨hA, hB, hturn, hone, Option.some.inj hsame⟩

end Emptied

end GraphQLSyntax
