import GraphQLSyntax.Proofs.Rewriting.Rebuilding
import GraphQLSyntax.Proofs.Rewriting.Simulation
import GraphQLSyntax.Proofs.Tree.Tags

/-!
# Rewriting without sharing

The plain way to rewrite a tree shares nothing: it makes a new node of whatever has come
of the children, be it what was there before.  A rewriter that does not look at identities
cannot tell the two ways apart: they call it for the same nodes in the same order, and end
in the same way, with trees that are copies of each other.
-/

namespace GraphQLSyntax

variable {σ τ : Type}

/-! ## The plain way -/

/-- A new node of the same kind, content and location with the given children; children
that do not fit leave it as it is. -/
def Node.rebuilt (n : Node Tag) (slots : List (List (Node Tag))) (id : Nat) : Node Tag :=
  (n.withSlots? slots id).getD n

namespace Rewriting

/-- Rewrites the items of a list, in order, to those that are not deleted. -/
def kept (item : Node Tag → Rewriting σ (Option (Node Tag))) :
    List (Node Tag) → Rewriting σ (List (Node Tag))
  | [] => pure []
  | x :: xs => do
    let y ← item x
    return y.toList ++ (← kept item xs)

/-- Rewrites the children in the slots of a node to those that remain: none as soon as all
children are deleted in a slot that needs one. -/
def remaining (item : Node Tag → Rewriting σ (Option (Node Tag))) :
    List (Slot Tag) → Rewriting σ (Option (List (List (Node Tag))))
  | [] => pure (some [])
  | slot :: rest => do
    let nodes ← kept item slot.nodes
    if slot.arity.isNeeded ∧ slot.nodes ≠ [] ∧ nodes = [] then return none
    else return (← remaining item rest).map (nodes :: ·)

end Rewriting

namespace Rewriter

/-- Rewrites a tree of at most the given height in the plain way. -/
def plainWithin (rewriter : Rewriter σ) : Nat → Node Tag → Rewriting σ (Option (Node Tag))
  | 0, _ => throw .tooDeep
  | height + 1, n => do
    match ← rewriter.enter n with
    | none => return none
    | some entered =>
      match ← Rewriting.remaining (rewriter.plainWithin height) entered.1.slots with
      | none => return none
      | some slots =>
        let rebuilt ← Rewriting.create fun nextId =>
          (entered.1.rebuilt slots nextId, nextId + 1)
        return (← rewriter.leave rebuilt).map Subtype.val

/-- Rewrites a tree in the plain way. -/
def plain (rewriter : Rewriter σ) (n : Node Tag) : Rewriting σ (Option (Node Tag)) :=
  rewriter.plainWithin n.height n

end Rewriter

/-! ## Rewriters that answer alike -/

namespace Rewriter

/-- Asked for nodes that are the same in some respect, the rewriters answer alike. -/
structure Simulates (alike : Session σ → Session τ → Prop) (same : Node Tag → Node Tag → Prop)
    (rewriter : Rewriter σ) (rewriter' : Rewriter τ) : Prop where
  enter : ∀ n m, same n m →
    Rewriting.Simulates alike (Option.Rel fun x y => same x.1 y.1) (rewriter.enter n)
      (rewriter'.enter m)
  leave : ∀ n m, same n m →
    Rewriting.Simulates alike (Option.Rel fun x y => same x.1 y.1) (rewriter.leave n)
      (rewriter'.leave m)

/-- Asked for copies while it remembers things that are alike, the rewriter answers with
copies, and remembers things that are alike afterwards. -/
def IgnoresIdentity (rewriter : Rewriter σ) (alike : σ → σ → Prop) : Prop :=
  rewriter.Simulates (fun s t => alike s.memory t.memory) Node.Copies rewriter

end Rewriter

/-! ## Nodes with copied children -/

namespace Node

variable {n m n' m' : Node Tag} {ns ms : List (List (Node Tag))}

theorem rebuiltWith_update {new : Replacement}
    (hadmits : List.Forall₂ Slot.Admits n.slots (n.replacedSlots new)) (nextId : Nat) :
    n.RebuiltWith (n.update new nextId).1 (n.replacedSlots new) :=
  rebuiltWith_update_of_build? (n.exists_build? hadmits) nextId

theorem rebuiltWith_rebuilt (hadmits : List.Forall₂ Slot.Admits n.slots ns) (id : Nat) :
    n.RebuiltWith (n.rebuilt ns id) ns := by
  obtain ⟨m, hm⟩ := n.exists_build? hadmits { n.tag with id }
  obtain ⟨hcontent, htag, hslots⟩ := view_of_build? hm
  have heq : n.rebuilt ns id = m := by rw [rebuilt, withSlots?, hm, Option.getD_some]
  rw [heq]
  exact ⟨kind_of_build? hm, hcontent, by rw [htag], hslots⟩

/-- Copies with copies for children are copies. -/
theorem Copies.rebuiltWith (h : n.Copies m) (hn : n.RebuiltWith n' ns) (hm : m.RebuiltWith m' ms)
    (hslots : List.Forall₂ (List.Forall₂ Copies) ns ms) : n'.Copies m' := by
  refine .of_view ?_ ?_ ?_ ?_
  · rw [hn.kind, hm.kind, h.kind_eq]
  · rw [hn.content, hm.content, h.content_eq]
  · rw [hn.location, hm.location, h.location_eq]
  · rwa [hn.slots, hm.slots]

end Node

namespace Rewriting

open Node (Copies)

theorem map_kind_of_copies {ns ms : List (Node Tag)} (h : List.Forall₂ Copies ns ms) :
    ns.map Node.kind = ms.map Node.kind :=
  map_eq_map_iff_forall₂.2 (h.imp fun _ _ hcopies => hcopies.kind_eq)

/-- What a slot admits, a copy of the slot admits in copy. -/
theorem admits_of_copies {a b : Slot Tag} {ns ms : List (Node Tag)} (h : a.Admits ns)
    (hab : a.Copies b) (hnodes : List.Forall₂ Copies ns ms) : b.Admits ms := by
  have hkinds : ∀ k ∈ ns.map Node.kind, k ∈ a.nodes.map Node.kind := by
    intro k hk
    obtain ⟨n, hn, rfl⟩ := List.mem_map.1 hk
    obtain ⟨m, hm, hkind⟩ := h.exists_kind n hn
    exact hkind ▸ List.mem_map_of_mem hm
  rw [map_kind_of_copies hnodes, map_kind_of_copies hab.nodes] at hkinds
  constructor
  case exists_kind =>
    intro m hm
    obtain ⟨k, hk, hkind⟩ := List.mem_map.1 (hkinds m.kind (List.mem_map_of_mem hm))
    exact ⟨k, hk, hkind.symm⟩
  case length_le =>
    rw [← hnodes.length_eq, ← hab.nodes.length_eq]
    exact h.length_le
  case ne_nil =>
    intro hneeded hne hnil
    have hne' : a.nodes ≠ [] := fun hempty =>
      hne (List.forall₂_nil_left_iff.1 (hempty ▸ hab.nodes))
    exact h.ne_nil (hab.arity_eq ▸ hneeded) hne' (List.forall₂_nil_right_iff.1 (hnil ▸ hnodes))

/-! ## Lists and slots, rewritten in the two ways -/

/-- What comes of a node in the two ways. -/
structure ItemAlike (n : Node Tag) (answer answer' : Option (Node Tag)) : Prop where
  copies : Option.Rel Copies answer answer'
  kind_eq : ∀ m ∈ answer, m.kind = n.kind

/-- What comes of a list in the two ways: an entry of a replacement, and the nodes that
are kept. -/
structure ListAlike (xs : List (Node Tag)) (new : Option (List (Node Tag)))
    (nodes : List (Node Tag)) : Prop where
  copies : List.Forall₂ Copies (new.getD xs) nodes
  emptied : new = some [] ↔ xs ≠ [] ∧ nodes = []
  exists_kind : ∀ n ∈ new.getD xs, ∃ m ∈ xs, n.kind = m.kind
  length_le : (new.getD xs).length ≤ xs.length

theorem ItemAlike.copies_toList {n : Node Tag} {answer answer' : Option (Node Tag)}
    (h : ItemAlike n answer answer') :
    List.Forall₂ Copies answer.toList answer'.toList := by
  cases h.copies with
  | none => exact .nil
  | some hcopies => exact .cons hcopies .nil

/-- The first node of a list is rewritten before the others. -/
theorem ListAlike.cons {x : Node Tag} {xs nodes : List (Node Tag)}
    {answer answer' : Option (Node Tag)} {new : Option (List (Node Tag))}
    (hx : ItemAlike x answer answer') (hxs : ListAlike xs new nodes) :
    ListAlike (x :: xs)
      (if answer = some x then new.map (x :: ·) else some (answer.toList ++ new.getD xs))
      (answer'.toList ++ nodes) := by
  have hcopies : List.Forall₂ Copies (answer.toList ++ new.getD xs) (answer'.toList ++ nodes) :=
    List.rel_append hx.copies_toList hxs.copies
  have heq : (if answer = some x then new.map (x :: ·)
      else some (answer.toList ++ new.getD xs)).getD (x :: xs) =
        answer.toList ++ new.getD xs := by
    split
    · rename_i hkept
      cases new <;> simp [hkept]
    · rfl
  constructor
  case copies => rwa [heq]
  case emptied =>
    have hnil : answer.toList ++ new.getD xs = [] ↔ answer'.toList ++ nodes = [] := by
      rw [← List.length_eq_zero_iff, ← List.length_eq_zero_iff, hcopies.length_eq]
    by_cases hkept : answer = some x
    · -- a node that is kept remains, so nothing is emptied
      rw [if_pos hkept]
      rw [hkept] at hnil
      cases new <;> simpa using hnil
    · rw [if_neg hkept]
      simpa using hnil
  case exists_kind =>
    rw [heq]
    intro n hn
    obtain hn | hn := List.mem_append.1 hn
    · exact ⟨x, List.mem_cons_self, hx.kind_eq n (by simpa using hn)⟩
    · obtain ⟨m, hm, hkind⟩ := hxs.exists_kind n hn
      exact ⟨m, List.mem_cons_of_mem x hm, hkind⟩
  case length_le =>
    have hle : answer.toList.length ≤ 1 := by cases answer <;> simp
    have := hxs.length_le
    rw [heq, List.length_append, List.length_cons]
    omega

/-- What a slot is to hold: the new nodes, or those that are there. -/
def replacedIn (slots : List (Slot Tag)) (new : Node.Replacement) : List (List (Node Tag)) :=
  slots.mapIdx fun i slot => (new[i]?.join).getD slot.nodes

/-- What comes of the slots of a node in the two ways. -/
structure SlotsAlike (slots : List (Slot Tag)) (new : Node.Replacement)
    (nodes : List (List (Node Tag))) : Prop where
  copies : List.Forall₂ (List.Forall₂ Copies) (replacedIn slots new) nodes
  admits : List.Forall₂ Slot.Admits slots (replacedIn slots new)

/-- A slot that has not lost its last child admits what has come of it. -/
theorem ListAlike.admits {slot : Slot Tag} {new : Option (List (Node Tag))}
    {nodes : List (Node Tag)} (h : ListAlike slot.nodes new nodes)
    (hkept : ¬ (slot.arity.isNeeded ∧ slot.nodes ≠ [] ∧ nodes = [])) :
    slot.Admits (new.getD slot.nodes) :=
  ⟨h.exists_kind, h.length_le, fun hneeded hne hnil =>
    hkept ⟨hneeded, hne, List.forall₂_nil_left_iff.1 (hnil ▸ h.copies)⟩⟩

theorem SlotsAlike.cons {slot : Slot Tag} {slots : List (Slot Tag)}
    {entry : Option (List (Node Tag))} {new : Node.Replacement} {first : List (Node Tag)}
    {nodes : List (List (Node Tag))} (hslot : ListAlike slot.nodes entry first)
    (hkept : ¬ (slot.arity.isNeeded ∧ slot.nodes ≠ [] ∧ first = []))
    (h : SlotsAlike slots new nodes) :
    SlotsAlike (slot :: slots) (entry :: new) (first :: nodes) := by
  have heq : replacedIn (slot :: slots) (entry :: new) =
      entry.getD slot.nodes :: replacedIn slots new := by
    simp [replacedIn, List.mapIdx_cons]
  constructor
  case copies =>
    rw [heq]
    exact .cons hslot.copies h.copies
  case admits =>
    rw [heq]
    exact .cons (hslot.admits hkept) h.admits

/-- Where the one way puts what the slots admit, so does the other. -/
theorem SlotsAlike.admits_copies {slots slots' : List (Slot Tag)} {new : Node.Replacement}
    {nodes : List (List (Node Tag))} (h : SlotsAlike slots new nodes)
    (hslots : List.Forall₂ Slot.Copies slots slots') : List.Forall₂ Slot.Admits slots' nodes := by
  obtain ⟨hcopies, hadmits⟩ := h
  generalize replacedIn slots new = replaced at hcopies hadmits
  induction hslots generalizing replaced nodes with
  | nil =>
    cases hadmits
    cases hcopies
    exact .nil
  | cons hslot _ ih =>
    cases hadmits with
    | cons hfirst hadmits =>
      cases hcopies with
      | cons hnodes hcopies =>
        exact .cons (admits_of_copies hfirst hslot hnodes) (ih _ hcopies hadmits)

section Ways

variable {alike : Session σ → Session τ → Prop}
  {item : Node Tag → Rewriting σ (Option (Node Tag))}
  {item' : Node Tag → Rewriting τ (Option (Node Tag))}
  (hitem : ∀ n m, n.Copies m → Simulates alike (ItemAlike n) (item n) (item' m))

include hitem

theorem simulates_kept {xs ys : List (Node Tag)} (hxs : List.Forall₂ Copies xs ys) :
    Simulates alike (ListAlike xs) (list item xs) (kept item' ys) := by
  induction hxs with
  | nil => exact .pure ⟨.nil, by simp, by simp, by simp⟩
  | @cons x y xs ys hxy _ ih =>
    refine .bind (hitem x y hxy) fun answer answer' hanswer => .bind ih fun new nodes hnew => ?_
    have hall := ListAlike.cons hanswer hnew
    split at hall
    · rename_i hkept
      rw [if_pos hkept]
      exact .pure hall
    · rename_i hkept
      rw [if_neg hkept]
      exact .pure hall

theorem simulates_remaining {slots slots' : List (Slot Tag)}
    (hslots : List.Forall₂ Slot.Copies slots slots') :
    Simulates alike (Option.Rel (SlotsAlike slots)) (Rewriting.slots item slots)
      (remaining item' slots') := by
  induction hslots with
  | nil => exact .pure (.some ⟨.nil, .nil⟩)
  | @cons slot slot' slots slots' hslot _ ih =>
    refine .bind (simulates_kept hitem hslot.nodes) fun entry first hentry => ?_
    have hne : slot'.nodes ≠ [] ↔ slot.nodes ≠ [] := by
      rw [← List.length_pos_iff, ← List.length_pos_iff, hslot.nodes.length_eq]
    have hlost : (slot.arity.isNeeded && decide (entry = some [])) = true ↔
        slot.arity.isNeeded ∧ slot.nodes ≠ [] ∧ first = [] := by
      rw [Bool.and_eq_true, decide_eq_true_iff, hentry.emptied]
    by_cases hkept : slot.arity.isNeeded ∧ slot.nodes ≠ [] ∧ first = []
    · rw [if_pos (hlost.2 hkept), if_pos (by rw [← hslot.arity_eq, hne]; exact hkept)]
      exact .pure .none
    · rw [if_neg (mt hlost.1 hkept), if_neg (by rw [← hslot.arity_eq, hne]; exact hkept)]
      refine .bind ih fun new nodes hnew => .pure ?_
      cases hnew with
      | none => exact .none
      | some hnew => exact .some (.cons hentry hkept hnew)

end Ways

end Rewriting

namespace Rewriter

open Node (Copies)

variable {alike : Session σ → Session τ → Prop} {rewriter : Rewriter σ} {rewriter' : Rewriter τ}

/-- Rewriters that answer alike about copies come to copies, the one with sharing and the
other one in the plain way. -/
theorem Simulates.plainWithin (h : rewriter.Simulates alike Copies rewriter')
    (halike : ∀ s t i j, alike s t → alike { s with nextId := i } { t with nextId := j })
    (height : Nat) {n m : Node Tag} (hnm : n.Copies m) :
    Rewriting.Simulates alike (Option.Rel fun x y => x.1.Copies y)
      (rewriter.rewriteWithin height n) (rewriter'.plainWithin height m) := by
  induction height generalizing n m with
  | zero => exact .throw .tooDeep
  | succ height ih =>
    refine .bind (h.enter n m hnm) ?_
    rintro _ _ (⟨hentered⟩ | ⟨⟩)
    case none => exact .pure .none
    rename_i entered entered'
    have hitem : ∀ n m : Node Tag, n.Copies m →
        Rewriting.Simulates alike (Rewriting.ItemAlike n)
          (do return (← rewriter.rewriteWithin height n).map Subtype.val)
          (rewriter'.plainWithin height m) := by
      intro n m hnm
      rw [← bind_pure (rewriter'.plainWithin height m)]
      refine .bind (ih hnm) fun answer answer' hanswer => .pure ⟨?_, ?_⟩
      · cases hanswer with
        | none => exact .none
        | some hcopies => exact .some hcopies
      · rintro _ hmem
        obtain ⟨y, -, rfl⟩ := Option.map_eq_some_iff.1 hmem
        exact y.2
    refine .bind (Rewriting.simulates_remaining hitem hentered.slots) ?_
    rintro _ _ (⟨hslots⟩ | ⟨⟩)
    case none => exact .pure .none
    rename_i new nodes
    have hadmits' : List.Forall₂ Slot.Admits entered'.1.slots nodes :=
      hslots.admits_copies hentered.slots
    have hupdate : Rewriting.Simulates alike (fun u k => u.1.Copies k)
        (Rewriting.update entered.1 new)
        (Rewriting.create fun nextId => (entered'.1.rebuilt nodes nextId, nextId + 1)) :=
      .create fun s t hst =>
        ⟨hentered.rebuiltWith (Node.rebuiltWith_update hslots.admits _)
          (Node.rebuiltWith_rebuilt hadmits' _) hslots.copies, halike _ _ _ _ hst⟩
    refine .bind hupdate fun updated rebuilt hrebuilt => .bind (h.leave _ _ hrebuilt) ?_
    rintro _ _ (⟨hleft⟩ | ⟨⟩)
    · exact .pure (.some hleft)
    · exact .pure .none

end Rewriter

end GraphQLSyntax
