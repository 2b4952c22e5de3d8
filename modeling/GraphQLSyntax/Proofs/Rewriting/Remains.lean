import Mathlib.Logic.Relation
import GraphQLSyntax.Proofs.Rewriting.Pruning
import GraphQLSyntax.Proofs.Tree.Tags

/-!
# What deletion leaves of a tree

Deleting the nodes of a sort also deletes what cannot do without them: a node of which a
slot that needs a child has lost all that it had.  A tree without nodes of the sort is left
alone, and any other tree that is left is rebuilt from what is left of its children.  This
says what is left up to the identities of the rebuilt nodes, and it says nothing about the
order in which nodes are deleted.
-/

namespace GraphQLSyntax

theorem forall₂_imp_of_mem {α β : Type} {R S : α → β → Prop} {xs : List α} {ys : List β}
    (h : List.Forall₂ R xs ys) (himp : ∀ x ∈ xs, ∀ y, R x y → S x y) : List.Forall₂ S xs ys :=
  ((List.forall₂_and_left xs ys).2 ⟨fun _ hx => hx, h⟩).imp fun x y hxy => himp x hxy.1 y hxy.2

theorem exists_right_of_forall₂ {α β : Type} {R : α → β → Prop} {xs : List α} {ys : List β}
    (h : List.Forall₂ R xs ys) {x : α} (hx : x ∈ xs) : ∃ y ∈ ys, R x y := by
  induction h with
  | nil => cases hx
  | cons hxy _ ih =>
    rw [List.exists_mem_cons_iff]
    cases hx with
    | head => exact .inl hxy
    | tail _ hx => exact .inr (ih hx)

theorem exists_left_of_forall₂ {α β : Type} {R : α → β → Prop} {xs : List α} {ys : List β}
    (h : List.Forall₂ R xs ys) {y : β} (hy : y ∈ ys) : ∃ x ∈ xs, R x y :=
  exists_right_of_forall₂ (List.Forall₂.flip h) hy

theorem forall₂_comp {α β γ : Type} {R : α → β → Prop} {S : β → γ → Prop} {xs : List α}
    {ys : List β} {zs : List γ} (h : List.Forall₂ R xs ys) (h' : List.Forall₂ S ys zs) :
    List.Forall₂ (Relation.Comp R S) xs zs := by
  induction h generalizing zs with
  | nil =>
    obtain rfl := List.forall₂_nil_left_iff.1 h'
    exact .nil
  | cons hxy _ ih =>
    obtain ⟨z, zs, hyz, hrest, rfl⟩ := List.forall₂_cons_left_iff.1 h'
    exact .cons ⟨_, hxy, hyz⟩ (ih hrest)

/-! ## Slots -/

/-- Each child in a slot has an outcome, and the second slot holds what is left of them, in
their order.  If the slot needs a child and had one, it still has one. -/
inductive Slot.Leaves (outcome : Node Tag → Option (Node Tag) → Prop) : Slot Tag → Slot Tag → Prop
  | intro (arity : Arity) (pairs : List (Node Tag × Option (Node Tag)))
      (hneeded : arity.isNeeded → pairs ≠ [] → pairs.filterMap Prod.snd ≠ [])
      (hbelow : ∀ pair ∈ pairs, outcome pair.1 pair.2) :
      Slot.Leaves outcome ⟨arity, pairs.map Prod.fst⟩ ⟨arity, pairs.filterMap Prod.snd⟩

/-- The outcomes of two deletions, one after the other. -/
inductive Node.Leaves.Then (first second : Node Tag → Option (Node Tag) → Prop) :
    Node Tag → Option (Node Tag) → Prop
  | none {n : Node Tag} (h : first n none) : Then first second n none
  | some {n m : Node Tag} {r : Option (Node Tag)} (h : first n (some m)) (hnext : second m r) :
      Then first second n r

namespace Slot.Leaves

variable {outcome second : Node Tag → Option (Node Tag) → Prop} {old new last : Slot Tag}

theorem arity_eq (h : old.Leaves outcome new) : new.arity = old.arity := by
  cases h
  rfl

theorem imp {other : Node Tag → Option (Node Tag) → Prop} (h : old.Leaves outcome new)
    (himp : ∀ c ∈ old.nodes, ∀ r, outcome c r → other c r) : old.Leaves other new := by
  obtain ⟨arity, pairs, hneeded, hbelow⟩ := h
  exact .intro arity pairs hneeded fun pair hpair =>
    himp pair.1 (List.mem_map_of_mem hpair) pair.2 (hbelow pair hpair)

/-- A slot of which every child is left is left itself. -/
theorem refl {slot : Slot Tag} (h : ∀ c ∈ slot.nodes, outcome c (some c)) :
    slot.Leaves outcome slot := by
  obtain ⟨arity, nodes⟩ := slot
  have hkept : Slot.Leaves outcome _ _ :=
    .intro arity (nodes.map fun c => (c, some c)) (by simp) (by simpa using h)
  simpa [Function.comp_def] using hkept

theorem exists_outcome (h : old.Leaves outcome new) {c : Node Tag} (hc : c ∈ old.nodes) :
    ∃ r, outcome c r ∧ ∀ m, r = some m → m ∈ new.nodes := by
  obtain ⟨arity, pairs, -, hbelow⟩ := h
  obtain ⟨pair, hpair, rfl⟩ := List.mem_map.1 hc
  exact ⟨pair.2, hbelow pair hpair, fun m hm => List.mem_filterMap.2 ⟨pair, hpair, hm⟩⟩

theorem exists_origin (h : old.Leaves outcome new) {m : Node Tag} (hm : m ∈ new.nodes) :
    ∃ c ∈ old.nodes, outcome c (some m) := by
  obtain ⟨arity, pairs, -, hbelow⟩ := h
  obtain ⟨pair, hpair, hsnd⟩ := List.mem_filterMap.1 hm
  exact ⟨pair.1, List.mem_map_of_mem hpair, hsnd ▸ hbelow pair hpair⟩

theorem nodes_ne_nil (h : old.Leaves outcome new) (hneeded : old.arity.isNeeded)
    (hne : old.nodes ≠ []) : new.nodes ≠ [] := by
  obtain ⟨arity, pairs, hkept, -⟩ := h
  exact hkept hneeded fun hnil => hne (List.map_eq_nil_iff.2 hnil)

/-- If a slot is left as a copy, so is every child. -/
theorem exists_copy (h : old.Leaves outcome new) (hcopies : old.Copies new) {c : Node Tag}
    (hc : c ∈ old.nodes) : ∃ m, outcome c (some m) ∧ c.Copies m := by
  obtain ⟨arity, pairs, -, hbelow⟩ := h
  obtain ⟨pair, hpair, rfl⟩ := List.mem_map.1 hc
  have hnodes : List.Forall₂ Node.Copies (pairs.map Prod.fst) (pairs.filterMap Prod.snd) :=
    hcopies.nodes
  clear hc hcopies
  induction pairs with
  | nil => cases hpair
  | cons first pairs ih =>
    rw [List.forall_mem_cons] at hbelow
    obtain ⟨a, _ | m⟩ := first
    · have hlen : (pairs.map Prod.fst).length + 1 = (pairs.filterMap Prod.snd).length :=
        hnodes.length_eq
      have hle : (pairs.filterMap Prod.snd).length ≤ pairs.length := List.length_filterMap_le ..
      rw [List.length_map] at hlen
      omega
    · obtain ⟨hcopy, hrest⟩ := List.forall₂_cons.1 hnodes
      cases hpair with
      | head => exact ⟨m, hbelow.1, hcopy⟩
      | tail _ hpair => exact ih hbelow.2 hpair hrest

/-- If outcomes of a child are the same up to some change, so are the slots. -/
theorem map_eq {β : Type} {f : Node Tag → β} {new' : Slot Tag} (h : old.Leaves outcome new)
    (h' : old.Leaves outcome new')
    (hsame : ∀ c ∈ old.nodes, ∀ r r', outcome c r → outcome c r' → r.map f = r'.map f) :
    new.nodes.map f = new'.nodes.map f := by
  obtain ⟨arity, pairs, -, hpairs⟩ := h
  generalize hnodes : pairs.map Prod.fst = nodes at h' hsame
  obtain ⟨_, pairs', -, hpairs'⟩ := h'
  rw [List.map_filterMap, List.map_filterMap]
  induction pairs generalizing pairs' with
  | nil =>
    obtain rfl := List.map_eq_nil_iff.1 hnodes.symm
    rfl
  | cons pair pairs ih =>
    obtain ⟨pair', rest, rfl, heq, hrest⟩ := List.map_eq_cons_iff.1 hnodes.symm
    rw [List.map_cons, List.forall_mem_cons] at hsame
    rw [List.forall_mem_cons] at hpairs hpairs'
    have hfirst := hsame.1 _ _ (heq ▸ hpairs.1) hpairs'.1
    have hothers := ih hpairs.2 rest hpairs'.2 hrest.symm hsame.2
    rw [List.filterMap_cons, List.filterMap_cons, hfirst, hothers]

/-- What two deletions leave of a list, given the outcome of each of them for each item. -/
theorem exists_pairs_then {pairs next : List (Node Tag × Option (Node Tag))}
    (hpairs : ∀ pair ∈ pairs, outcome pair.1 pair.2)
    (hnext : ∀ pair ∈ next, second pair.1 pair.2)
    (heq : next.map Prod.fst = pairs.filterMap Prod.snd) :
    ∃ whole : List (Node Tag × Option (Node Tag)), whole.map Prod.fst = pairs.map Prod.fst ∧
      whole.filterMap Prod.snd = next.filterMap Prod.snd ∧
      ∀ pair ∈ whole, Node.Leaves.Then outcome second pair.1 pair.2 := by
  induction pairs generalizing next with
  | nil =>
    obtain rfl := List.map_eq_nil_iff.1 heq
    exact ⟨[], rfl, rfl, List.forall_mem_nil _⟩
  | cons pair pairs ih =>
    obtain ⟨c, _ | m⟩ := pair
    all_goals rw [List.forall_mem_cons] at hpairs
    · obtain ⟨whole, hfst, hsnd, hwhole⟩ := ih hpairs.2 hnext heq
      exact ⟨(c, none) :: whole, by simp [hfst], by simpa using hsnd,
        List.forall_mem_cons.2 ⟨.none hpairs.1, hwhole⟩⟩
    · have heq : next.map Prod.fst = m :: pairs.filterMap Prod.snd := heq
      obtain ⟨⟨_, r⟩, rest, rfl, rfl, hrest⟩ := List.map_eq_cons_iff.1 heq
      rw [List.forall_mem_cons] at hnext
      obtain ⟨whole, hfst, hsnd, hwhole⟩ := ih hpairs.2 hnext.2 hrest
      exact ⟨(c, r) :: whole, by simp [hfst], by simp [List.filterMap_cons, hsnd],
        List.forall_mem_cons.2 ⟨.some hpairs.1 hnext.1, hwhole⟩⟩

theorem trans (h : old.Leaves outcome new) (hnext : new.Leaves second last) :
    old.Leaves (Node.Leaves.Then outcome second) last := by
  have hlast : old.arity.isNeeded → old.nodes ≠ [] → last.nodes ≠ [] := fun hneeded hne =>
    hnext.nodes_ne_nil (h.arity_eq ▸ hneeded) (h.nodes_ne_nil hneeded hne)
  obtain ⟨arity, pairs, -, hpairs⟩ := h
  generalize hnodes : pairs.filterMap Prod.snd = nodes at hnext
  obtain ⟨_, next, -, hbelow⟩ := hnext
  obtain ⟨whole, hfst, hsnd, hwhole⟩ := exists_pairs_then hpairs hbelow hnodes.symm
  rw [← hfst, ← hsnd] at hlast ⊢
  refine .intro arity whole (fun hneeded hne => hlast hneeded ?_) hwhole
  exact fun hnil => hne (List.map_eq_nil_iff.1 hnil)

/-- What is left of a slot is a pruned slot if what is left of its children is pruned. -/
theorem prunes (h : old.Leaves outcome new)
    (hbelow : ∀ c ∈ old.nodes, ∀ m, outcome c (some m) → c.Prunes m) : old.Prunes new := by
  obtain ⟨arity, pairs, hneeded, houtcome⟩ := h
  have hsnd : (pairs.filterMap fun pair => pair.2.map (pair.1, ·)).map Prod.snd =
      pairs.filterMap Prod.snd := by
    rw [List.map_filterMap]
    refine congrArg (List.filterMap · pairs) (funext fun pair => ?_)
    rw [Option.map_map]
    exact Option.map_id'
  refine ⟨rfl, pairs.filterMap fun pair => pair.2.map (pair.1, ·), ?_, hsnd, ?_, ?_⟩
  · clear hsnd hneeded hbelow houtcome
    induction pairs with
    | nil => exact .slnil
    | cons pair pairs ih =>
      obtain ⟨c, _ | m⟩ := pair
      · exact ih.cons c
      · exact ih.cons_cons c
  · intro hneeds hne hnil
    refine hneeded hneeds (fun h => hne (List.map_eq_nil_iff.2 h)) ?_
    rw [← hsnd, hnil, List.map_nil]
  · intro pair hpair
    obtain ⟨⟨c, r⟩, hmem, hr⟩ := List.mem_filterMap.1 hpair
    obtain ⟨m, rfl, rfl⟩ := Option.map_eq_some_iff.1 hr
    exact hbelow c (List.mem_map_of_mem hmem) m (houtcome _ hmem)

end Slot.Leaves

theorem Slot.Prunes.exists_kept_of_forall₂ {olds news : List (Slot Tag)}
    (h : List.Forall₂ Slot.Prunes olds news) :
    ∃ kept : List (List (Node Tag × Node Tag)),
      List.Forall₂ (fun pairs slot => (pairs.map Prod.fst).Sublist slot.nodes ∧
        (slot.arity.isNeeded → slot.nodes ≠ [] → pairs ≠ [])) kept olds ∧
      kept.map (·.map Prod.snd) = news.map Slot.nodes ∧
      ∀ pairs ∈ kept, ∀ pair ∈ pairs, pair.1.Prunes pair.2 := by
  induction h with
  | nil => exact ⟨[], .nil, rfl, List.forall_mem_nil _⟩
  | cons hslot _ ih =>
    obtain ⟨pairs, hold, hnew, hne, hbelow⟩ := hslot.exists_kept
    obtain ⟨kept, holds, hnews, hrest⟩ := ih
    refine ⟨pairs :: kept, .cons ⟨hold, hne⟩ holds, ?_, List.forall_mem_cons.2 ⟨hbelow, hrest⟩⟩
    rw [List.map_cons, List.map_cons, hnew, hnews]

/-! ## Nodes -/

/-- What the deletion of the nodes of a sort leaves of a tree, and nothing if it is deleted
itself.  Rebuilt nodes have identities from the bound on. -/
inductive Node.Leaves (p : Node Tag → Bool) (bound : Nat) : Node Tag → Option (Node Tag) → Prop
  | deleted {n : Node Tag} (h : p n) : Leaves p bound n none
  /-- A slot has lost all that it had and cannot do without. -/
  | emptied {n : Node Tag} {slot : Slot Tag} (hslot : slot ∈ n.slots)
      (hneeded : slot.arity.isNeeded) (hne : slot.nodes ≠ [])
      (hbelow : ∀ c ∈ slot.nodes, Leaves p bound c none) : Leaves p bound n none
  | untouched {n : Node Tag} (h : ∀ c ∈ n.preorder, p c = false) : Leaves p bound n (some n)
  | rebuilt {n m : Node Tag} (hself : p n = false) (htouched : ∃ c ∈ n.preorder, p c)
      (hnew : bound ≤ m.tag.id) (hrebuilt : n.RebuiltWith m (m.slots.map Slot.nodes))
      (hslots : List.Forall₂ (Slot.Leaves (Leaves p bound)) n.slots m.slots) :
      Leaves p bound n (some m)

/-- The tag without what tells rebuilt nodes apart. -/
def Tag.seal (bound : Nat) (tag : Tag) : Tag :=
  { tag with id := min tag.id bound }

theorem Tag.eq_of_seal_eq {bound : Nat} {t t' : Tag} (hid : t.id < bound)
    (h : t.seal bound = t'.seal bound) : t = t' := by
  obtain ⟨id, location⟩ := t
  obtain ⟨id', location'⟩ := t'
  rw [Tag.seal, Tag.seal, Tag.mk.injEq] at h
  obtain ⟨hmin, rfl⟩ := h
  have hsame : id = id' := by
    simp only at hid hmin
    omega
  rw [hsame]

namespace Node

variable {p q : Node Tag → Bool} {bound : Nat} {n m : Node Tag} {r : Option (Node Tag)}

theorem mem_children_of_mem_slot {slot : Slot Tag} (hslot : slot ∈ n.slots) {c : Node Tag}
    (hc : c ∈ slot.nodes) : c ∈ n.children :=
  List.mem_flatMap.2 ⟨slot, hslot, hc⟩

/-! ### Pruned trees -/

theorem Prunes.of_slots (hrebuilt : n.RebuiltWith m (m.slots.map Slot.nodes))
    (hslots : List.Forall₂ Slot.Prunes n.slots m.slots) : n.Prunes m := by
  obtain ⟨kept, hold, hnew, hbelow⟩ := Slot.Prunes.exists_kept_of_forall₂ hslots
  exact .intro hrebuilt.kind hrebuilt.content hrebuilt.location kept hold hnew hbelow

/-- What is left of a node is a pruned tree if what is left of its children is. -/
theorem prunes_of_slots {outcome : Node Tag → Option (Node Tag) → Prop}
    (hrebuilt : n.RebuiltWith m (m.slots.map Slot.nodes))
    (hslots : List.Forall₂ (Slot.Leaves outcome) n.slots m.slots)
    (hbelow : ∀ c ∈ n.children, ∀ l, outcome c (some l) → c.Prunes l) : n.Prunes m := by
  refine .of_slots hrebuilt (forall₂_imp_of_mem hslots fun slot hslot new hnew => ?_)
  exact hnew.prunes fun c hc => hbelow c (mem_children_of_mem_slot hslot hc)

theorem Prunes.refl (n : Node Tag) : n.Prunes n := by
  induction n using Node.inductionOn with
  | step n ih =>
    have hslots : List.Forall₂ (Slot.Leaves fun c r => r = some c) n.slots n.slots :=
      List.forall₂_same.2 fun slot _ => .refl fun _ _ => rfl
    refine prunes_of_slots (.refl n) hslots fun c hc l hl => ?_
    obtain rfl := Option.some.inj hl
    exact ih l hc

theorem Leaves.prunes (h : n.Leaves p bound (some m)) : n.Prunes m := by
  induction n using Node.inductionOn generalizing m with
  | step n ih =>
    cases h with
    | untouched => exact .refl n
    | rebuilt _ _ _ hrebuilt hslots =>
      exact prunes_of_slots hrebuilt hslots fun c hc l hl => ih c hc hl

/-! ### Trees that are left alone -/

theorem untouched_child (h : ∀ c ∈ n.preorder, p c = false) {c : Node Tag}
    (hc : c ∈ n.children) : ∀ l ∈ c.preorder, p l = false :=
  fun l hl => h l (mem_preorder_of_mem_children hc hl)

/-- A tree without nodes of the sort is left as it is. -/
theorem Leaves.eq_of_untouched (h : n.Leaves p bound r) (hn : ∀ c ∈ n.preorder, p c = false) :
    r = some n := by
  induction n using Node.inductionOn generalizing r with
  | step n ih =>
    cases h with
    | deleted h => exact absurd h (by simp [hn n n.self_mem_preorder])
    | emptied hslot _ hne hbelow =>
      obtain ⟨c, hc⟩ := List.exists_mem_of_ne_nil _ hne
      have hchild := mem_children_of_mem_slot hslot hc
      exact nomatch ih c hchild (hbelow c hc) (untouched_child hn hchild)
    | untouched => rfl
    | rebuilt _ htouched =>
      obtain ⟨c, hc, hpc⟩ := htouched
      exact absurd hpc (by simp [hn c hc])

/-- Only the children of a node that has none of the sort below it are all left as copies. -/
theorem untouched_of_copies {outcome : Node Tag → Option (Node Tag) → Prop}
    (hslots : List.Forall₂ (Slot.Leaves outcome) n.slots m.slots) (hcopies : n.Copies m)
    (hbelow : ∀ c ∈ n.children, ∀ l, outcome c (some l) → c.Copies l →
      ∀ k ∈ c.preorder, p k = false) :
    ∀ c ∈ n.children, ∀ k ∈ c.preorder, p k = false := by
  have hcopied := List.Forall₂.mp (fun _ _ hslot hcopy c => hslot.exists_copy hcopy (c := c))
    hslots hcopies.slots
  intro c hc
  obtain ⟨slot, hslot, hcslot⟩ := List.mem_flatMap.1 hc
  obtain ⟨_, -, hslot⟩ := exists_right_of_forall₂ hcopied hslot
  obtain ⟨l, hl, hcopy⟩ := hslot c hcslot
  exact hbelow c hc l hl hcopy

theorem Leaves.untouched_of_copies (h : n.Leaves p bound (some m)) (hcopies : n.Copies m) :
    ∀ c ∈ n.preorder, p c = false := by
  induction n using Node.inductionOn generalizing m with
  | step n ih =>
    cases h with
    | untouched h => exact h
    | rebuilt hself _ _ _ hslots =>
      have hbelow := Node.untouched_of_copies hslots hcopies fun c hc l hl => ih c hc hl
      intro k hk
      obtain rfl | ⟨c, hc, hk⟩ := mem_preorder_iff.1 hk
      · exact hself
      · exact hbelow c hc k hk

/-! ### Other sorts of nodes -/

theorem Leaves.congr (h : n.Leaves p bound r) (heq : ∀ c ∈ n.preorder, p c = q c) :
    n.Leaves q bound r := by
  induction n using Node.inductionOn generalizing r with
  | step n ih =>
    have hchild : ∀ c ∈ n.children, ∀ r, c.Leaves p bound r → c.Leaves q bound r :=
      fun c hc r hr => ih c hc hr fun k hk => heq k (mem_preorder_of_mem_children hc hk)
    have hself := heq n n.self_mem_preorder
    cases h with
    | deleted h => exact .deleted (hself ▸ h)
    | emptied hslot hneeded hne hbelow =>
      refine .emptied hslot hneeded hne fun c hc => ?_
      exact hchild c (mem_children_of_mem_slot hslot hc) none (hbelow c hc)
    | untouched h => exact .untouched fun c hc => heq c hc ▸ h c hc
    | rebuilt hp htouched hnew hrebuilt hslots =>
      obtain ⟨k, hk, hpk⟩ := htouched
      refine .rebuilt (hself ▸ hp) ⟨k, hk, heq k hk ▸ hpk⟩ hnew hrebuilt ?_
      refine forall₂_imp_of_mem hslots fun slot hslot new hleaves => ?_
      exact hleaves.imp fun c hc => hchild c (mem_children_of_mem_slot hslot hc)

/-- If more nodes are deleted, what was deleted still is. -/
theorem Leaves.mono_none (h : n.Leaves p bound none) (hpq : ∀ k, p k → q k) :
    n.Leaves q bound none := by
  induction n using Node.inductionOn with
  | step n ih =>
    cases h with
    | deleted h => exact .deleted (hpq n h)
    | emptied hslot hneeded hne hbelow =>
      refine .emptied hslot hneeded hne fun c hc => ?_
      exact ih c (mem_children_of_mem_slot hslot hc) (hbelow c hc)

/-! ### One outcome -/

theorem Leaves.self_eq_false (h : n.Leaves p bound (some m)) : p n = false := by
  cases h with
  | untouched h => exact h n n.self_mem_preorder
  | rebuilt hself => exact hself

/-- What is left of a node, its own identity apart. -/
theorem Leaves.slots (h : n.Leaves p bound (some m)) :
    n.RebuiltWith m (m.slots.map Slot.nodes) ∧
      List.Forall₂ (Slot.Leaves (Leaves p bound)) n.slots m.slots := by
  cases h with
  | untouched h =>
    refine ⟨.refl n, List.forall₂_same.2 fun slot hslot => .refl fun c hc => .untouched ?_⟩
    exact untouched_child h (mem_children_of_mem_slot hslot hc)
  | rebuilt _ _ _ hrebuilt hslots => exact ⟨hrebuilt, hslots⟩

/-- A node is deleted or left, not both. -/
theorem Leaves.none_ne_some (h : n.Leaves p bound none) : ¬ n.Leaves p bound (some m) := by
  intro h'
  induction n using Node.inductionOn generalizing m with
  | step n ih =>
    cases h with
    | deleted h => simp [h'.self_eq_false] at h
    | emptied hslot hneeded hne hbelow =>
      obtain ⟨new, -, hleaves⟩ := exists_right_of_forall₂ h'.slots.2 hslot
      obtain ⟨l, hl⟩ := List.exists_mem_of_ne_nil _ (hleaves.nodes_ne_nil hneeded hne)
      obtain ⟨c, hc, hcl⟩ := hleaves.exists_origin hl
      exact ih c (mem_children_of_mem_slot hslot hc) (hbelow c hc) hcl

/-! ### Identities -/

/-- What is left of a tree is determined up to the identities of rebuilt nodes. -/
theorem Leaves.map_seal_eq {r' : Option (Node Tag)} (h : n.Leaves p bound r)
    (h' : n.Leaves p bound r') :
    r.map (Node.map (Tag.seal bound)) = r'.map (Node.map (Tag.seal bound)) := by
  induction n using Node.inductionOn generalizing r r' with
  | step n ih =>
    match r, r' with
    | none, none => rfl
    | none, some _ => exact absurd h' h.none_ne_some
    | some _, none => exact absurd h h'.none_ne_some
    | some m, some m' =>
      refine congrArg some ?_
      cases h with
      | untouched hn =>
        obtain rfl := Option.some.inj (h'.eq_of_untouched hn)
        rfl
      | rebuilt _ htouched hnew hrebuilt hslots =>
        cases h' with
        | untouched hn =>
          obtain ⟨c, hc, hpc⟩ := htouched
          simp [hn c hc] at hpc
        | rebuilt _ _ hnew' hrebuilt' hslots' =>
          have hmem : List.Forall₂ (fun slot new => slot ∈ n.slots ∧
              slot.Leaves (Leaves p bound) new) n.slots m.slots :=
            forall₂_imp_of_mem hslots fun _ hslot _ hleaves => ⟨hslot, hleaves⟩
          have hnodes := (forall₂_comp hmem.flip hslots').imp fun _ _ ⟨_, ⟨hslot, hm⟩, hm'⟩ =>
            hm.map_eq hm' fun c hc _ _ => ih c (mem_children_of_mem_slot hslot hc)
          refine eq_of_view ?_ ?_ ?_ ?_
          · rw [kind_map, kind_map, hrebuilt.kind, hrebuilt'.kind]
          · rw [content_map, content_map, hrebuilt.content, hrebuilt'.content]
          · rw [tag_map, tag_map]
            simp [Tag.seal, hnew, hnew', hrebuilt.location, hrebuilt'.location]
          · rw [map_nodes_slots_map, map_nodes_slots_map, List.map_map, List.map_map]
            exact map_eq_map_iff_forall₂.2 hnodes

/-- Sealing a tree of which all identities are below the bound loses nothing. -/
theorem eq_of_map_seal_eq (hids : ∀ k ∈ n.preorder, k.tag.id < bound)
    (h : n.map (Tag.seal bound) = m.map (Tag.seal bound)) : n = m := by
  induction n using Node.inductionOn generalizing m with
  | step n ih =>
    have htag := congrArg Node.tag h
    have hslots := congrArg (fun k : Node Tag => k.slots.map Slot.nodes) h
    rw [tag_map, tag_map] at htag
    simp only [map_nodes_slots_map] at hslots
    refine eq_of_view ?_ ?_ (Tag.eq_of_seal_eq (hids n n.self_mem_preorder) htag) ?_
    · simpa using congrArg Node.kind h
    · simpa using congrArg Node.content h
    rw [← List.forall₂_eq_eq_eq]
    refine forall₂_imp_of_mem (map_eq_map_iff_forall₂.1 hslots) fun nodes hnodes nodes' heq => ?_
    rw [← List.forall₂_eq_eq_eq]
    refine forall₂_imp_of_mem (map_eq_map_iff_forall₂.1 heq) fun c hc c' hcc' => ?_
    have hchild : c ∈ n.children := by
      rw [children_eq_flatten]
      exact List.mem_flatten.2 ⟨nodes, hnodes, hc⟩
    exact ih c hchild (fun k hk => hids k (mem_preorder_of_mem_children hchild hk)) hcc'

theorem at?_map {α β : Type} (f : α → β) (n : Node α) (path : List Nat) :
    (n.map f).at? path = (n.at? path).map (Node.map f) := by
  induction path generalizing n with
  | nil => rfl
  | cons i path ih =>
    rw [at?, at?, children_map, List.getElem?_map]
    cases n.children[i]? with
    | none => rfl
    | some c => exact ih c

/-- Trees that are sealed alike agree in everything but identities. -/
theorem map_location_eq_of_seal {x y : Option (Node Tag)}
    (h : x.map (Node.map (Tag.seal bound)) = y.map (Node.map (Tag.seal bound))) :
    x.map (Node.map Tag.location) = y.map (Node.map Tag.location) := by
  have hlocation := congrArg (Option.map (Node.map Tag.location)) h
  simp only [Option.map_map, Function.comp_def, map_map] at hlocation
  exact hlocation

theorem Leaves.map_location_eq {r' : Option (Node Tag)} (h : n.Leaves p bound r)
    (h' : n.Leaves p bound r') : r.map (Node.map Tag.location) = r'.map (Node.map Tag.location) :=
  map_location_eq_of_seal (h.map_seal_eq h')

/-! ### Deletions that leave the same -/

/-- The results of two deletions are both nothing, or trees that agree in all but the
identities of their nodes; and where one of them holds a node of the old tree, so does the
other. -/
structure SameRemains (n : Node Tag) (x y : Option (Node Tag)) : Prop where
  copies : x.map (Node.map Tag.location) = y.map (Node.map Tag.location)
  shared : ∀ path, ∀ c ∈ n.preorder,
    x.bind (·.at? path) = some c ↔ y.bind (·.at? path) = some c

namespace SameRemains

variable {x y : Option (Node Tag)}

theorem at?_of_seal (hbound : n.idBound ≤ bound)
    (h : x.map (Node.map (Tag.seal bound)) = y.map (Node.map (Tag.seal bound)))
    {path : List Nat} {c : Node Tag} (hc : c ∈ n.preorder)
    (hx : x.bind (·.at? path) = some c) : y.bind (·.at? path) = some c := by
  obtain ⟨m, rfl, hm⟩ := Option.bind_eq_some_iff.1 hx
  obtain ⟨l, rfl, hl⟩ := Option.map_eq_some_iff.1 h.symm
  have hsealed := congrArg (Node.at? · path) hl
  simp only [at?_map, hm, Option.map_some, Option.map_eq_some_iff] at hsealed
  obtain ⟨d, hd, heq⟩ := hsealed
  have hids : ∀ k ∈ c.preorder, k.tag.id < bound := fun k hk =>
    Nat.lt_of_lt_of_le (idBound_le_iff.1 (Nat.le_refl _) k (mem_preorder_trans hc hk)) hbound
  rw [eq_of_map_seal_eq hids heq.symm]
  exact hd

theorem of_seal (hbound : n.idBound ≤ bound)
    (h : x.map (Node.map (Tag.seal bound)) = y.map (Node.map (Tag.seal bound))) :
    n.SameRemains x y where
  copies := map_location_eq_of_seal h
  shared _ _ hc := ⟨at?_of_seal hbound h hc, at?_of_seal hbound h.symm hc⟩

end SameRemains

/-- Whatever deletion leaves of a tree, it leaves the same. -/
theorem Leaves.sameRemains {r' : Option (Node Tag)} (hbound : n.idBound ≤ bound)
    (h : n.Leaves p bound r) (h' : n.Leaves p bound r') : n.SameRemains r r' :=
  .of_seal hbound (h.map_seal_eq h')

end Node

end GraphQLSyntax
