import Mathlib.Data.List.Count
import Mathlib.Data.Prod.Basic
import GraphQLSyntax.Proofs.Rewriting.Ancestors
import GraphQLSyntax.Proofs.Traversal.Visits

/-!
# The places that are visited

A node may occur in a tree more than once, so that visits are told apart by the place at
which they are made: the way down to it from child to child.  Every place of a tree is
entered once and left once, the visits are nested, and those below a place are the visits
to the tree that is found there.
-/

namespace GraphQLSyntax

variable {α β γ : Type}

/-! ## Nesting -/

/-- Each entry is followed by the exit that belongs to it, and between the two stands what
is nested in turn. -/
inductive Nested : List (Phase × β) → Prop
  | nil : Nested []
  | call (x : β) {inner rest : List (Phase × β)} (hinner : Nested inner) (hrest : Nested rest) :
      Nested ((.enter, x) :: inner ++ (.leave, x) :: rest)

namespace Nested

theorem around {inner : List (Phase × β)} (h : Nested inner) (x : β) :
    Nested ((.enter, x) :: inner ++ [(.leave, x)]) :=
  .call x h .nil

theorem append {xs ys : List (Phase × β)} (hxs : Nested xs) (hys : Nested ys) :
    Nested (xs ++ ys) := by
  induction hxs with
  | nil => exact hys
  | call x hinner _ _ ih =>
    rw [List.append_assoc]
    exact .call x hinner ih

theorem map {xs : List (Phase × β)} (h : Nested xs) (f : β → γ) :
    Nested (xs.map (Prod.map id f)) := by
  induction h with
  | nil => exact .nil
  | call x _ _ hinner hrest =>
    rw [List.map_append, List.map_cons, List.map_cons]
    exact .call (f x) hinner hrest

theorem flatMap {xs : List γ} {f : γ → List (Phase × β)} (h : ∀ x ∈ xs, Nested (f x)) :
    Nested (xs.flatMap f) := by
  induction xs with
  | nil => exact .nil
  | cons x xs ih =>
    rw [List.forall_mem_cons] at h
    exact h.1.append (ih h.2)

end Nested

namespace Node

/-! ## Places in order -/

/-- The visits to a tree, in order, each with the place at which it is made. -/
def places (n : Node α) : List (Phase × List Nat) :=
  (.enter, []) :: n.children.attach.zipIdx.flatMap (fun c =>
    c.1.1.places.map (Prod.map id (c.2 :: ·))) ++ [(.leave, [])]
termination_by sizeOf n
decreasing_by exact sizeOf_lt_of_mem_children c.1.2

/-- The places below a node, by the children in which they are. -/
def placesBelow (children : List (Node α × Nat)) : List (Phase × List Nat) :=
  children.flatMap fun c => c.1.places.map (Prod.map id (c.2 :: ·))

theorem places_eq (n : Node α) :
    n.places = (.enter, []) :: placesBelow n.children.zipIdx ++ [(.leave, [])] := by
  have hattach : (n.children.attach.zipIdx.map (Prod.map Subtype.val id)) = n.children.zipIdx := by
    rw [← List.zipIdx_map, List.attach_map_subtype_val]
  rw [places, placesBelow, ← hattach, List.flatMap_map]
  rfl

theorem at?_append {n m : Node α} {path : List Nat} (h : n.at? path = some m)
    (rest : List Nat) : n.at? (path ++ rest) = m.at? rest := by
  induction path generalizing n with
  | nil =>
    obtain rfl := Option.some.inj h
    rfl
  | cons i path ih =>
    obtain ⟨child, hchild, h⟩ := Option.bind_eq_some_iff.1 h
    rw [List.cons_append, at?_cons hchild, ih h]

/-- The node visited is the one that is found at the place. -/
theorem map_places (n : Node α) :
    n.places.map (Prod.map id n.at?) = n.visits.map (Prod.map id some) := by
  induction n using Node.inductionOn with
  | step n ih =>
    have hchild : ∀ c ∈ n.children.zipIdx,
        (c.1.places.map (Prod.map id (c.2 :: ·))).map (Prod.map id n.at?) =
          c.1.visits.map (Prod.map id some) := by
      rintro ⟨c, i⟩ hc
      have hat : n.children[i]? = some c := List.mk_mem_zipIdx_iff_getElem?.1 hc
      rw [← ih c (List.mem_of_getElem? hat), List.map_map]
      refine List.map_congr_left fun p _ => ?_
      exact Prod.ext rfl (at?_cons hat p.2)
    have hbelow : (placesBelow n.children.zipIdx).map (Prod.map id n.at?) =
        (n.children.flatMap visits).map (Prod.map id some) := by
      rw [placesBelow, List.map_flatMap, List.map_flatMap]
      conv => rhs; rw [← List.zipIdx_map_fst 0 n.children, List.flatMap_map]
      exact List.flatMap_congr hchild
    rw [places_eq, visits_eq, Visits.around, List.map_append, List.map_cons, hbelow,
      List.map_append, List.map_cons]
    rfl

theorem nested_places (n : Node α) : Nested n.places := by
  induction n using Node.inductionOn with
  | step n ih =>
    rw [places_eq]
    refine Nested.around (Nested.flatMap ?_) []
    rintro ⟨c, i⟩ hc
    exact (ih c (List.fst_mem_of_mem_zipIdx hc)).map (i :: ·)

/-! ## Once each -/

theorem count_nil_placesBelow (children : List (Node α × Nat)) (phase : Phase) :
    (placesBelow children).count (phase, []) = 0 := by
  rw [List.count_eq_zero, placesBelow]
  simp

/-- Going down one step further changes no count. -/
theorem count_map_cons (places : List (Phase × List Nat)) (phase : Phase) (i : Nat)
    (path : List Nat) :
    (places.map (Prod.map id (i :: ·))).count (phase, i :: path) = places.count (phase, path) :=
  List.count_map_of_injective _ _
    (Function.injective_id.prodMap List.cons_injective) (phase, path)

/-- A place is counted in the child that the way down to it goes through. -/
theorem count_cons_placesBelow (children : List (Node α)) (first : Nat) (phase : Phase)
    (i : Nat) (path : List Nat) :
    (placesBelow (children.zipIdx first)).count (phase, (first + i) :: path) =
      (children[i]?.map fun c => c.places.count (phase, path)).getD 0 := by
  induction children generalizing first i with
  | nil => rfl
  | cons c children ih =>
    have hsplit : placesBelow ((c :: children).zipIdx first) =
        c.places.map (Prod.map id (first :: ·)) ++ placesBelow (children.zipIdx (first + 1)) := by
      rw [placesBelow, List.zipIdx_cons, List.flatMap_cons, placesBelow]
    rw [hsplit, List.count_append]
    cases i with
    | zero =>
      have hrest : (placesBelow (children.zipIdx (first + 1))).count
          (phase, first :: path) = 0 := by
        rw [List.count_eq_zero]
        intro hmem
        obtain ⟨⟨d, j⟩, hd, hmem⟩ := List.mem_flatMap.1 hmem
        obtain ⟨_, -, heq⟩ := List.mem_map.1 hmem
        have hj : first + 1 ≤ j := List.le_snd_of_mem_zipIdx hd
        have : j = first := (List.cons.inj (Prod.mk.inj heq).2).1
        omega
      rw [Nat.add_zero, count_map_cons, hrest]
      rfl
    | succ i =>
      have hfirst : (c.places.map (Prod.map id (first :: ·))).count
          (phase, (first + (i + 1)) :: path) = 0 := by
        rw [List.count_eq_zero]
        intro hmem
        obtain ⟨_, -, heq⟩ := List.mem_map.1 hmem
        have : first = first + (i + 1) := (List.cons.inj (Prod.mk.inj heq).2).1
        omega
      rw [hfirst, Nat.zero_add, ← Nat.add_assoc, Nat.add_right_comm, ih]
      rfl

/-- Each place of a tree is entered once and left once, and nothing else is. -/
theorem count_places (n : Node α) (phase : Phase) (path : List Nat) :
    n.places.count (phase, path) = if (n.at? path).isSome then 1 else 0 := by
  induction path generalizing n with
  | nil =>
    rw [places_eq, List.count_append, List.count_cons, count_nil_placesBelow]
    cases phase with
    | enter => rfl
    | leave => rfl
  | cons i path ih =>
    have hbelow := count_cons_placesBelow n.children 0 phase i path
    rw [Nat.zero_add] at hbelow
    rw [places_eq, List.count_append, List.count_cons, hbelow, at?]
    cases n.children[i]? with
    | none => simp
    | some c => simp [ih c]

/-! ## Subtrees -/

/-- The places of a subtree stand together, each with the way down to the subtree before
it. -/
theorem exists_places_eq {n m : Node α} {path : List Nat} (h : n.at? path = some m) :
    ∃ before after,
      n.places = before ++ m.places.map (Prod.map id (path ++ ·)) ++ after := by
  induction path generalizing n with
  | nil =>
    obtain rfl := Option.some.inj h
    refine ⟨[], [], ?_⟩
    rw [List.nil_append, List.append_nil]
    exact (List.map_id _).symm
  | cons i path ih =>
    obtain ⟨c, hc, h⟩ := Option.bind_eq_some_iff.1 h
    obtain ⟨before, after, hplaces⟩ := ih h
    obtain ⟨earlier, later, hsplit⟩ :=
      List.append_of_mem (List.mk_mem_zipIdx_iff_getElem?.2 hc)
    refine ⟨(.enter, []) :: placesBelow earlier ++ before.map (Prod.map id (i :: ·)),
      after.map (Prod.map id (i :: ·)) ++ placesBelow later ++ [(.leave, [])], ?_⟩
    rw [places_eq, hsplit, placesBelow, List.flatMap_append, List.flatMap_cons, hplaces]
    simp [placesBelow, List.map_append, Function.comp_def]

/-- The visits to a subtree stand together, where its places do. -/
theorem exists_visits_eq {n m : Node α} {path : List Nat} (h : n.at? path = some m) :
    ∃ before after, n.places = before ++ m.places.map (Prod.map id (path ++ ·)) ++ after ∧
      ∃ earlier later, n.visits = earlier ++ m.visits ++ later ∧
        earlier.length = before.length ∧ later.length = after.length := by
  obtain ⟨before, after, hplaces⟩ := exists_places_eq h
  refine ⟨before, after, hplaces, ?_⟩
  have hsegment : (m.places.map (Prod.map id (path ++ ·))).map (Prod.map id n.at?) =
      m.visits.map (Prod.map id some) := by
    rw [← map_places, List.map_map]
    refine List.map_congr_left fun p _ => ?_
    exact Prod.ext rfl (at?_append h p.2)
  have hvisits := n.map_places
  rw [hplaces, List.map_append, List.map_append, hsegment] at hvisits
  obtain ⟨front, later, hfront, hmap, hlater⟩ := List.map_eq_append_iff.1 hvisits.symm
  obtain ⟨earlier, middle, rfl, hearlier, hmiddle⟩ := List.map_eq_append_iff.1 hmap
  obtain rfl : middle = m.visits :=
    (Function.injective_id.prodMap fun _ _ => Option.some.inj).list_map hmiddle
  refine ⟨earlier, later, hfront, ?_, ?_⟩
  · simpa using congrArg List.length hearlier
  · simpa using congrArg List.length hlater

end Node

end GraphQLSyntax
