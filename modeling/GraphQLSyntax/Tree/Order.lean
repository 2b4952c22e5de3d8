import GraphQLSyntax.Tree.View

/-!
# Whole trees

The nodes of a tree in order, its height, and the equality of trees, each by
recursion into children.
-/

namespace GraphQLSyntax.Node

variable {α : Type}

/-- The nodes of a tree, each before its children and these in order. -/
def preorder (n : Node α) : List (Node α) :=
  n :: n.children.attach.flatMap fun c => c.1.preorder
termination_by sizeOf n
decreasing_by exact sizeOf_lt_of_mem_children c.2

theorem preorder_eq (n : Node α) :
    n.preorder = n :: n.children.flatMap preorder := by
  rw [preorder, List.flatMap_subtype (g := preorder) (fun _ _ => rfl),
    List.unattach_attach]

/-- The number of nodes on the longest way down from a node. -/
def height (n : Node α) : Nat :=
  1 + (n.children.attach.map fun c => c.1.height).foldl max 0
termination_by sizeOf n
decreasing_by exact sizeOf_lt_of_mem_children c.2

theorem height_eq (n : Node α) :
    n.height = 1 + (n.children.map height).foldl max 0 := by
  rw [height, List.map_subtype (g := height) (fun _ _ => rfl), List.unattach_attach]

/-- Induction over a tree, from the children of a node to the node. -/
theorem inductionOn {P : Node α → Prop} (n : Node α)
    (step : ∀ n : Node α, (∀ c ∈ n.children, P c) → P n) : P n :=
  step n fun c _ => inductionOn c step
termination_by sizeOf n
decreasing_by exact sizeOf_lt_of_mem_children ‹_›

/-! ## Nodes of a tree -/

theorem mem_preorder_iff {n m : Node α} :
    m ∈ n.preorder ↔ m = n ∨ ∃ c ∈ n.children, m ∈ c.preorder := by
  rw [preorder_eq, List.mem_cons, List.mem_flatMap]

theorem self_mem_preorder (n : Node α) : n ∈ n.preorder :=
  mem_preorder_iff.2 (.inl rfl)

theorem mem_preorder_of_mem_children {n c m : Node α} (hc : c ∈ n.children)
    (hm : m ∈ c.preorder) : m ∈ n.preorder :=
  mem_preorder_iff.2 (.inr ⟨c, hc, hm⟩)

theorem mem_preorder_trans {n m k : Node α} (hm : m ∈ n.preorder) (hk : k ∈ m.preorder) :
    k ∈ n.preorder := by
  induction n using inductionOn with
  | step n ih =>
    obtain rfl | ⟨c, hc, hm⟩ := mem_preorder_iff.1 hm
    · exact hk
    · exact mem_preorder_of_mem_children hc (ih c hc hm)

/-! ## What a node shows -/

theorem children_eq_flatten (n : Node α) :
    n.children = (n.slots.map Slot.nodes).flatten := by
  rw [children, List.flatMap_def]

/-- A node is determined by what its view shows. -/
theorem eq_of_view {n m : Node α} (hkind : n.kind = m.kind)
    (hcontent : n.content = m.content) (htag : n.tag = m.tag)
    (hslots : n.slots.map Slot.nodes = m.slots.map Slot.nodes) : n = m := by
  have hn := build?_slots n
  rw [hkind, hcontent, htag, hslots, build?_slots] at hn
  exact (Option.some.inj hn).symm

/-! ## Equality of trees -/

/-- The nodes have equal tags, kinds and contents, and slots that are filled
equally. -/
def beq [DecidableEq α] (n m : Node α) : Bool :=
  decide (n.tag = m.tag) && n.kind == m.kind && n.content == m.content &&
    n.slots.map (·.nodes.length) == m.slots.map (·.nodes.length) &&
    (n.children.attach.zip m.children).all fun c => c.1.1.beq c.2
termination_by sizeOf n
decreasing_by exact sizeOf_lt_of_mem_children c.1.2

theorem all_attach_zip (p : Node α → Node α → Bool) (xs ys : List (Node α)) :
    ((xs.attach.zip ys).all fun c => p c.1.1 c.2) =
      (xs.zip ys).all fun c => p c.1 c.2 := by
  conv => rhs; rw [← List.attach_map_subtype_val xs]
  rw [List.zip_map_left, List.all_map]
  rfl

theorem beq_eq [DecidableEq α] (n m : Node α) :
    n.beq m =
      (decide (n.tag = m.tag) && n.kind == m.kind && n.content == m.content &&
        n.slots.map (·.nodes.length) == m.slots.map (·.nodes.length) &&
        (n.children.zip m.children).all fun c => c.1.beq c.2) := by
  rw [beq, all_attach_zip beq]

/-- Lists of equal lengths that are equal when strung together are equal. -/
theorem eq_of_flatten_eq {xss yss : List (List α)}
    (hlen : xss.map List.length = yss.map List.length)
    (h : xss.flatten = yss.flatten) : xss = yss := by
  induction xss generalizing yss with
  | nil => simpa using hlen
  | cons xs xss ih =>
    cases yss with
    | nil => simp at hlen
    | cons ys yss =>
      simp only [List.map_cons, List.cons.injEq] at hlen
      simp only [List.flatten_cons] at h
      obtain ⟨h₁, h₂⟩ := List.append_inj h hlen.1
      rw [h₁, ih hlen.2 h₂]

theorem eq_of_all_zip {xs ys : List α} {p : α → α → Bool}
    (hlen : xs.length = ys.length)
    (hp : ∀ x ∈ xs, ∀ y, p x y = true → x = y)
    (h : ((xs.zip ys).all fun c => p c.1 c.2) = true) : xs = ys := by
  induction xs generalizing ys with
  | nil => exact (List.length_eq_zero_iff.1 hlen.symm).symm
  | cons x xs ih =>
    cases ys with
    | nil => simp at hlen
    | cons y ys =>
      simp only [List.zip_cons_cons, List.all_cons, Bool.and_eq_true] at h
      rw [hp x List.mem_cons_self y h.1,
        ih (Nat.succ.inj hlen) (fun x hx => hp x (List.mem_cons_of_mem _ hx)) h.2]

theorem all_zip_self {xs : List α} {p : α → α → Bool} (hp : ∀ x ∈ xs, p x x = true) :
    ((xs.zip xs).all fun c => p c.1 c.2) = true := by
  induction xs with
  | nil => rfl
  | cons x xs ih => simp_all

/-- The comparison decides equality. -/
theorem beq_eq_true_iff [DecidableEq α] {n m : Node α} : n.beq m = true ↔ n = m := by
  constructor
  · intro h
    induction n using inductionOn generalizing m with
    | step n ih =>
      rw [beq_eq] at h
      simp only [Bool.and_eq_true, beq_iff_eq, decide_eq_true_eq] at h
      obtain ⟨⟨⟨⟨htag, hkind⟩, hcontent⟩, hlen⟩, hall⟩ := h
      have hlen : (n.slots.map Slot.nodes).map List.length =
          (m.slots.map Slot.nodes).map List.length := by
        simpa [List.map_map, Function.comp_def] using hlen
      refine eq_of_view hkind hcontent htag (eq_of_flatten_eq hlen ?_)
      rw [← children_eq_flatten, ← children_eq_flatten]
      refine eq_of_all_zip ?_ (fun c hc _ => ih c hc) hall
      rw [children_eq_flatten, children_eq_flatten, List.length_flatten,
        List.length_flatten, hlen]
  · rintro rfl
    induction n using inductionOn with
    | step n ih =>
      rw [beq_eq, all_zip_self ih]
      simp

instance [DecidableEq α] : DecidableEq (Node α) :=
  fun _ _ => decidable_of_iff _ beq_eq_true_iff

instance [DecidableEq α] : DecidableEq (Document α) :=
  fun x y => decidable_of_iff (Node.document x = .document y) (Node.document.injEq x y ▸ Iff.rfl)

end GraphQLSyntax.Node
