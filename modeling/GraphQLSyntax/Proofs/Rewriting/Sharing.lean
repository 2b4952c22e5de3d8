import GraphQLSyntax.Proofs.Rewriting.Ancestors

/-!
# Structural sharing

A rewrite that is not halted shares with the old tree all that its calls leave alone.
An occurrence for which every call keeps what it is given comes back as the very same
node; a node whose children have come back different is rebuilt in its old place with
the children that came back; and a single replacement makes new nodes on the way down
to it only.
-/

namespace GraphQLSyntax

/-! ## Keeping everything -/

/-- Every call keeps the node that it is given, whatever the rewriter remembers. -/
def Rewriter.KeepsEverything {σ : Type} (rewriter : Rewriter σ) : Prop :=
  ∀ n s, (∃ m s', rewriter.enter n s = .ok (some m) s' ∧ m.val = n) ∧
    ∃ m s', rewriter.leave n s = .ok (some m) s' ∧ m.val = n

namespace Node

theorem height_lt_of_mem_children {α : Type} {n c : Node α} (h : c ∈ n.children) :
    c.height < n.height := by
  have hle := (foldl_max_le_iff.1 (Nat.le_refl ((n.children.map height).foldl max 0))).2
    c.height (List.mem_map_of_mem h)
  rw [n.height_eq]
  omega

theorem update_nothing (n : Node Tag) (nextId : Nat) :
    n.update (n.slots.map fun _ => none) nextId = (n, nextId) := by
  refine update_of_eq (List.ext_getElem? fun i => ?_) nextId
  rw [replacedSlots, List.getElem?_mapIdx, List.getElem?_map, List.getElem?_map]
  cases n.slots[i]? <;> rfl

end Node

namespace Rewriting

variable {σ : Type} {item : Node Tag → Rewriting σ (Option (Node Tag))}

theorem list_eq_none {xs : List (Node Tag)}
    (h : ∀ x ∈ xs, ∀ s, ∃ s', item x s = .ok (some x) s') (s : Session σ) :
    ∃ s', list item xs s = .ok none s' := by
  induction xs generalizing s with
  | nil => exact ⟨s, rfl⟩
  | cons x xs ih =>
    rw [List.forall_mem_cons] at h
    obtain ⟨t, hx⟩ := h.1 s
    obtain ⟨s', hxs⟩ := ih h.2 t
    refine ⟨s', bind_eq_ok.2 ⟨_, t, hx, bind_eq_ok.2 ⟨_, s', hxs, ?_⟩⟩⟩
    rw [if_pos rfl]
    rfl

theorem slots_eq_nothing {slots : List (Slot Tag)}
    (h : ∀ x ∈ slots.flatMap Slot.nodes, ∀ s, ∃ s', item x s = .ok (some x) s')
    (s : Session σ) :
    ∃ s', Rewriting.slots item slots s = .ok (some (slots.map fun _ => none)) s' := by
  induction slots generalizing s with
  | nil => exact ⟨s, rfl⟩
  | cons slot rest ih =>
    simp only [List.flatMap_cons, List.mem_append] at h
    obtain ⟨t, hslot⟩ := list_eq_none (fun x hx => h x (.inl hx)) s
    obtain ⟨s', hrest⟩ := ih (fun x hx => h x (.inr hx)) t
    refine ⟨s', bind_eq_ok.2 ⟨_, t, hslot, ?_⟩⟩
    rw [if_neg (by simp)]
    exact bind_eq_ok.2 ⟨_, s', hrest, rfl⟩

end Rewriting

namespace Rewriter

variable {σ : Type} {rewriter : Rewriter σ}

open Rewriting

/-- A rewriter that keeps everything returns a tree as soon as it may go down deep
enough. -/
theorem KeepsEverything.rewriteWithin (h : rewriter.KeepsEverything) {height : Nat}
    {n : Node Tag} (hheight : n.height ≤ height) (s : Session σ) :
    ∃ s', rewriter.rewriteWithin height n s = .ok (some ⟨n, rfl⟩) s' := by
  induction height generalizing n s with
  | zero =>
    rw [n.height_eq] at hheight
    omega
  | succ height ih =>
    obtain ⟨m, t, henter, hm⟩ := (h n s).1
    obtain rfl : m = ⟨n, rfl⟩ := Subtype.ext hm
    have hchildren : ∀ c ∈ n.slots.flatMap Slot.nodes, ∀ s, ∃ s',
        (do return (← rewriter.rewriteWithin height c).map Subtype.val : Rewriting σ _) s =
          .ok (some c) s' := by
      intro c hc s
      have hlt := Node.height_lt_of_mem_children hc
      obtain ⟨s', hs'⟩ := ih (n := c) (by omega) s
      exact ⟨s', bind_eq_ok.2 ⟨_, s', hs', rfl⟩⟩
    obtain ⟨t', hslots⟩ := slots_eq_nothing hchildren t
    have hupdate := n.update_nothing t'.nextId
    obtain ⟨m, s', hleave, hm⟩ := (h n t').2
    obtain rfl : m = ⟨n, rfl⟩ := Subtype.ext hm
    refine ⟨s', bind_eq_ok.2 ⟨_, t, henter, bind_eq_ok.2 ⟨_, t', hslots,
      bind_eq_ok.2 ⟨⟨n, rfl⟩, t', update_eq_ok.2 ⟨Subtype.ext ?_, ?_⟩,
        bind_eq_ok.2 ⟨_, s', hleave, rfl⟩⟩⟩⟩⟩
    · exact congrArg Prod.fst hupdate
    · exact congrArg (fun updated => ({ t' with nextId := updated.2 } : Session σ)) hupdate

end Rewriter

/-! ## Sharing in a run -/

/-- What is shared at an occurrence of a node in a run.  The fields after the first one
are about a node that is updated: `entered` is what came of entering the occurrence, and
`leaving` is the call on leaving it, which is given the updated node. -/
structure Run.Shares (occurrence : Run) : Prop where
  result_of_keeps : occurrence.Every Call.Keeps →
    occurrence.result = some occurrence.given
  given_eq : ∀ entered leaving, occurrence.enter.answer = some entered →
    occurrence.leave = some leaving →
    occurrence.slots.map (·.map Run.given) = entered.slots.map Slot.nodes
  rebuilt_iff : ∀ entered leaving, occurrence.enter.answer = some entered →
    occurrence.leave = some leaving →
    (leaving.given ≠ entered ↔
      ∃ child ∈ occurrence.children, child.result ≠ some child.given)
  rebuilt : ∀ entered leaving, occurrence.enter.answer = some entered →
    occurrence.leave = some leaving →
    entered.RebuiltWith leaving.given (occurrence.slots.map Run.results)

theorem Rewriter.shares_of_runWithin {σ : Type} {rewriter : Rewriter σ} {height : Nat}
    {n : Node Tag} {s s' : Session σ} {run : Run}
    (h : rewriter.runWithin height n s = .ok run s') : run.Shares := by
  obtain ⟨lower, -, houtcome⟩ := exists_outcome h
  cases houtcome with
  | dropped _ _ _ hnone =>
    have hleave : ∀ leaving, run.leave ≠ some leaving := fun leaving hsome => by
      rw [hnone] at hsome
      cases hsome
    exact
      { result_of_keeps := result_of_keeps h
        given_eq := fun _ leaving _ hsome => absurd hsome (hleave leaving)
        rebuilt_iff := fun _ leaving _ hsome => absurd hsome (hleave leaving)
        rebuilt := fun _ leaving _ hsome => absurd hsome (hleave leaving) }
  | @left entered leaving _ _ _ _ hanswer _ hcomplete hleave hrebuilt hupdated _ =>
    refine ⟨result_of_keeps h, ?_, ?_, ?_⟩
    all_goals
      intro entered' leaving' hanswer' hleave'
      obtain rfl := Option.some.inj (hanswer.symm.trans hanswer')
      obtain rfl := Option.some.inj (hleave.symm.trans hleave')
    · exact hcomplete.given_eq
    · obtain ⟨heq, -, hkept⟩ | ⟨hne, -, -, hchanged⟩ := hupdated
      · exact ⟨fun hne => absurd heq hne,
          fun ⟨child, hchild, hresult⟩ => absurd (hkept child hchild) hresult⟩
      · exact ⟨fun _ => by simpa using hchanged, fun _ => hne⟩
    · exact hrebuilt

/-- Structural sharing.  A rewrite that is not halted follows a run, each occurrence in
which is itself a rewrite and shares what it can.  If a single call of the run puts `y`
in the place of the node that it is given, and all identities are handed out in order,
the nodes of the result that belong neither to the tree nor to `y` are the rebuilt
ancestors of that node.  A rewriter that keeps everything returns the tree itself. -/
theorem Rewriter.rewriteWithin_shares {σ : Type} (rewriter : Rewriter σ) :
    (∀ height n s result s', rewriter.rewriteWithin height n s = .ok result s' →
      ∃ run, rewriter.runWithin height n s = .ok run s' ∧ run.given = n ∧
        run.result = result.map Subtype.val ∧
        (∀ path occurrence, run.at? path = some occurrence → occurrence.Shares ∧
          ∃ lower t replaced t',
            rewriter.rewriteWithin lower occurrence.given t = .ok replaced t' ∧
              occurrence.result = replaced.map Subtype.val) ∧
        (n.idBound ≤ s.nextId → run.Every Call.Allocates →
          ∀ path phase call y, run.call? path phase = some call → call.answer = some y →
            y ≠ call.given → run.KeepsBut path phase →
            ∃ r, run.result = some r ∧ n.at? path = some call.given ∧ r.at? path = some y ∧
              ∀ m, m ∈ r.preorder ∧ m ∉ n.preorder ∧ m ∉ y.preorder ↔
                ∃ above ancestor occurrence, IsAbove above path ∧ r.at? above = some m ∧
                  n.at? above = some ancestor ∧ run.at? above = some occurrence ∧
                  occurrence.Rebuilds ancestor m)) ∧
    (rewriter.KeepsEverything → ∀ n s, ∃ s', rewriter.rewrite n s = .ok (some n) s') := by
  refine ⟨fun height n s result s' h => ?_, fun h n s => ?_⟩
  · obtain ⟨run, hrun, hresult⟩ := rewriteWithin_eq_ok.1 h
    refine ⟨run, hrun, given_of_runWithin hrun, hresult, fun path occurrence hat => ?_, ?_⟩
    · obtain ⟨lower, t, t', hoccurrence⟩ := exists_run_of_at? hrun hat
      obtain ⟨replaced, hreplaced⟩ := exists_substitute hoccurrence
      exact ⟨shares_of_runWithin hoccurrence, lower, t, replaced, t',
        rewriteWithin_eq_ok.2 ⟨occurrence, hoccurrence, hreplaced⟩, hreplaced⟩
    intro hbound halloc path phase call y hcall hanswer hne hkeeps
    obtain ⟨r, hr, -, hreplaces, -, hids⟩ :=
      exists_replacesAt hrun halloc hcall hanswer hne hkeeps
    refine ⟨r, hr, hreplaces.old, hreplaces.new, fun m => ⟨?_, ?_⟩⟩
    · rintro ⟨hm, hold, hnew⟩
      obtain hm | hm | ⟨above, habove, hat⟩ := hreplaces.mem_or m hm
      · exact absurd hm hold
      · exact absurd hm hnew
      · obtain ⟨a, b, occurrence, ha, hb, hoccurrence, hrebuilds⟩ :=
          hreplaces.rebuilt above habove
        obtain rfl := Option.some.inj (hat.symm.trans hb)
        exact ⟨above, a, occurrence, habove, hat, ha, hoccurrence, hrebuilds⟩
    · rintro ⟨above, _, _, habove, hat, -⟩
      obtain ⟨hstart, hreplacement⟩ := hids above m habove hat
      -- the rebuilt nodes have identities that were unused before
      refine ⟨Node.mem_preorder_of_at? hat, fun hm => ?_, fun hm => ?_⟩
      · have := Node.idBound_le_iff.1 hbound m hm
        omega
      · have := Node.idBound_le_iff.1 hreplacement m hm
        omega
  · obtain ⟨s', hs'⟩ := h.rewriteWithin (Nat.le_refl n.height) s
    exact ⟨s', Rewriting.bind_eq_ok.2 ⟨_, s', hs', rfl⟩⟩

/-! ## A single number replaced -/

section Doubling

open Node Run Rewriter

/-- Puts another number in the place of every one that is left. -/
def Rewriter.doubling : Rewriter Unit where
  enter n := pure (some ⟨n, n.kind_self⟩)
  leave
    | .intValue x => Rewriting.create fun nextId =>
      (some ⟨.intValue ⟨"2", { x.tag with id := nextId }⟩, rfl⟩, nextId + 1)
    | n => pure (some ⟨n, n.kind_self⟩)

def Node.oneArgument : Node Tag :=
  .argument ⟨⟨"a", ⟨1, none⟩⟩, .int ⟨"1", ⟨2, none⟩⟩, ⟨0, none⟩⟩

def Node.twoArgument : Node Tag :=
  .argument ⟨⟨"a", ⟨1, none⟩⟩, .int ⟨"2", ⟨3, none⟩⟩, ⟨4, none⟩⟩

/-- The run for the name of the argument. -/
def Run.ofName : Run :=
  let name : Node Tag := .name ⟨"a", ⟨1, none⟩⟩
  ⟨⟨name, some name, 3, 3⟩, [], some ⟨name, some name, 3, 3⟩⟩

/-- The call in which the number is replaced. -/
def Call.ofNumber : Call :=
  ⟨.intValue ⟨"1", ⟨2, none⟩⟩, some (.intValue ⟨"2", ⟨3, none⟩⟩), 3, 4⟩

def Run.ofNumber : Run :=
  ⟨⟨Call.ofNumber.given, some Call.ofNumber.given, 3, 3⟩, [], some Call.ofNumber⟩

def Run.ofArgument : Run :=
  ⟨⟨Node.oneArgument, some Node.oneArgument, 3, 3⟩, [[ofName], [ofNumber]],
    some ⟨Node.twoArgument, some Node.twoArgument, 5, 5⟩⟩

theorem ofArgument_allocates : ofArgument.Every Call.Allocates := by
  have hcall : ∀ {n m : Node Tag} {before after : Nat}, before ≤ after →
      m.idBound ≤ after → Call.Allocates ⟨n, some m, before, after⟩ :=
    fun hle hbound => ⟨hle, fun _ h => Option.some.inj h ▸ hbound⟩
  refine every_iff.2 ⟨hcall (by decide) (by decide_cbv), ?_, ?_⟩
  · intro call hleave
    obtain rfl := Option.some.inj hleave
    exact hcall (by decide) (by decide_cbv)
  intro child hchild
  simp [ofArgument, Run.children] at hchild
  obtain rfl | rfl := hchild
  all_goals
    refine every_iff.2 ⟨hcall (by decide) (by decide_cbv), fun call hleave => ?_,
      by simp [ofName, ofNumber, Run.children]⟩
    obtain rfl := Option.some.inj hleave
    exact hcall (by decide) (by decide_cbv)

theorem ofArgument_keepsBut : ofArgument.KeepsBut [1] .leave := by
  rintro (_ | ⟨i, _ | ⟨j, path⟩⟩) phase call hcall hne
  · cases phase <;> cases hcall <;> rfl
  · match i, phase with
    | 0, .enter | 0, .leave | 1, .enter => cases hcall; rfl
    | 1, .leave => exact absurd rfl hne
    | i + 2, _ => cases hcall
  · match i with
    | 0 | 1 | i + 2 => cases hcall

theorem runWithin_oneArgument :
    doubling.runWithin 2 oneArgument ⟨3, ()⟩ = .ok ofArgument ⟨5, ()⟩ := by
  have hupdate : oneArgument.update ([[ofName], [ofNumber]].map replacement) 4 =
      (twoArgument, 5) := by
    decide +kernel
  have hslots : Rewriting.runSlots (doubling.runWithin 1) oneArgument.slots ⟨3, ()⟩ =
      .ok ([[ofName], [ofNumber]], true) ⟨4, ()⟩ :=
    Rewriting.runSlots_cons rfl (by decide +kernel)
      (Rewriting.runSlots_cons rfl (by decide +kernel) rfl)
  refine runWithin_succ_eq_ok.2 (.left rfl rfl hslots ?_)
  rw [hupdate]
  rfl

theorem rewriteWithin_shares_number :
    (doubling.runWithin 2 oneArgument ⟨3, ()⟩ = .ok ofArgument ⟨5, ()⟩ ∧
      ofArgument.result = some twoArgument ∧
      ∀ m, m ∈ twoArgument.preorder ∧ m ∉ oneArgument.preorder ∧
          m ∉ (Node.intValue ⟨"2", ⟨3, none⟩⟩).preorder ↔
        ∃ above ancestor occurrence, IsAbove above [1] ∧ twoArgument.at? above = some m ∧
          oneArgument.at? above = some ancestor ∧ ofArgument.at? above = some occurrence ∧
          occurrence.Rebuilds ancestor m) ∧
    ∃ s', ({} : Rewriter Unit).rewrite oneArgument ⟨3, ()⟩ = .ok (some oneArgument) s' := by
  have hrun := runWithin_oneArgument
  have hrewrite : doubling.rewriteWithin 2 oneArgument ⟨3, ()⟩ =
      .ok (some ⟨twoArgument, rfl⟩) ⟨5, ()⟩ := by decide +kernel
  refine ⟨⟨hrun, rfl, ?_⟩,
    (rewriteWithin_shares {}).2 (fun n s => ⟨⟨⟨n, rfl⟩, s, rfl, rfl⟩, ⟨⟨n, rfl⟩, s, rfl, rfl⟩⟩)
      oneArgument ⟨3, ()⟩⟩
  obtain ⟨run, hsame, -, -, -, hreplaced⟩ := (rewriteWithin_shares doubling).1 _ _ _ _ _ hrewrite
  rw [hrun] at hsame
  cases hsame
  obtain ⟨r, hr, -, -, hnew⟩ := hreplaced (by decide_cbv) ofArgument_allocates [1] .leave
    Call.ofNumber _ rfl rfl (by simp [Call.ofNumber]) ofArgument_keepsBut
  cases hr
  exact hnew

end Doubling

end GraphQLSyntax
