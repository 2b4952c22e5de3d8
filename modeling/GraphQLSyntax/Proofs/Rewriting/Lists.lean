import Mathlib.Data.List.ReduceOption
import GraphQLSyntax.Rewriting.Rewriter

/-!
# Lists that are copied late

The items of a list are rewritten one by one, and the list is copied only if it has to be.
There is no copy as long as every item comes back as it was.  The first item that does not
begins one, with the items before it, and from there on the copy takes what comes of the
items, if anything does.

`Rewriting.list` puts the copy together from the last item to the first one.  A loop that
carries the copy along from the first item to the last comes to the same, since either of
them comes to the entry for what came of the items, asked about in order.
-/

namespace GraphQLSyntax.Rewriting

variable {σ : Type}

/-! ## Entries -/

/-- The entry of a replacement for a list, given what came of its items: it says nothing if
each came back as it was, and otherwise names those that were not deleted. -/
def entryFor (xs : List (Node Tag)) (answers : List (Option (Node Tag))) :
    Option (List (Node Tag)) :=
  if answers = xs.map some then none else some answers.reduceOption

variable {xs ys : List (Node Tag)} {answers : List (Option (Node Tag))} {x : Node Tag}
  {answer : Option (Node Tag)}

theorem reduceOption_map_some (xs : List (Node Tag)) : (xs.map some).reduceOption = xs := by
  simp [List.reduceOption, List.filterMap_map]

theorem entryFor_eq_none_iff : entryFor xs answers = none ↔ answers = xs.map some := by
  simp [entryFor]

theorem entryFor_eq_some_iff :
    entryFor xs answers = some ys ↔ answers ≠ xs.map some ∧ answers.reduceOption = ys := by
  simp [entryFor]

/-- An entry that says nothing stands for the list as it is. -/
theorem getD_entryFor : (entryFor xs answers).getD xs = answers.reduceOption := by
  unfold entryFor
  split
  case isTrue h => rw [h, reduceOption_map_some, Option.getD_none]
  case isFalse => rfl

/-- The entry for a list, from its first item and the entry for the others. -/
theorem entryFor_cons :
    entryFor (x :: xs) (answer :: answers) =
      if answer = some x then (entryFor xs answers).map (x :: ·)
      else some (answer.toList ++ (entryFor xs answers).getD xs) := by
  rw [getD_entryFor, ← List.reduceOption_singleton, ← List.reduceOption_append,
    List.singleton_append]
  by_cases hx : answer = some x
  · by_cases hxs : answers = xs.map some
    · simp [entryFor, hx, hxs]
    · simp [entryFor, hx, hxs, List.reduceOption_cons_of_some]
  · simp [entryFor, hx]

/-! ## The loop -/

/-- What is copied of a list after the item with the number `idx`, given what is copied before
it.  Nothing is copied as long as the items come back as they were; then the items before are,
and what comes of those that follow. -/
def copyStep (items : List (Node Tag)) (x : Node Tag) (idx : Nat) (answer : Option (Node Tag)) :
    Option (List (Node Tag)) → Option (List (Node Tag))
  | some copy => some (copy ++ answer.toList)
  | none => if answer = some x then none else some (items.take idx ++ answer.toList)

/-- Rewrites the items of a list in a loop that copies the list once an item differs. -/
def copyingLoop (item : Node Tag → Rewriting σ (Option (Node Tag))) (items : List (Node Tag)) :
    Rewriting σ (Option (List (Node Tag))) :=
  items.zipIdx.foldlM (fun copy (x, idx) => return copyStep items x idx (← item x) copy) none

/-- What is copied in the loop is always the entry for the items that are done. -/
theorem copyStep_entryFor (before after : List (Node Tag)) (x : Node Tag)
    (answers : List (Option (Node Tag))) (answer : Option (Node Tag)) :
    copyStep (before ++ x :: after) x before.length answer (entryFor before answers) =
      entryFor (before ++ [x]) (answers ++ [answer]) := by
  by_cases hbefore : answers = before.map some
  · rw [entryFor_eq_none_iff.2 hbefore, copyStep, List.take_left]
    by_cases hx : answer = some x
    · rw [if_pos hx, eq_comm, entryFor_eq_none_iff, hbefore, hx, List.map_append]
      rfl
    · rw [if_neg hx, eq_comm, entryFor_eq_some_iff, List.reduceOption_append,
        List.reduceOption_singleton, hbefore, reduceOption_map_some]
      exact ⟨by simpa using hx, rfl⟩
  · have hcopy : entryFor before answers = some answers.reduceOption :=
      entryFor_eq_some_iff.2 ⟨hbefore, rfl⟩
    rw [hcopy, copyStep, eq_comm, entryFor_eq_some_iff, List.reduceOption_append,
      List.reduceOption_singleton, List.map_append]
    exact ⟨fun h => hbefore (List.append_inj_left' h rfl), rfl⟩

variable (item : Node Tag → Rewriting σ (Option (Node Tag)))

/-- The rest of the loop, after the items before it. -/
theorem foldlM_copyStep (before after : List (Node Tag)) (answers : List (Option (Node Tag))) :
    (after.zipIdx before.length).foldlM
        (fun copy (x, idx) => return copyStep (before ++ after) x idx (← item x) copy)
        (entryFor before answers) =
      (fun later => entryFor (before ++ after) (answers ++ later)) <$> after.mapM item := by
  induction after generalizing before answers with
  | nil => simp
  | cons x after ih =>
    rw [List.zipIdx_cons, List.foldlM_cons, List.mapM_cons, map_bind, bind_assoc]
    refine bind_congr fun answer => ?_
    have hrest := ih (before ++ [x]) (answers ++ [answer])
    rw [List.length_append, List.length_singleton, List.append_assoc, List.singleton_append]
      at hrest
    rw [pure_bind, copyStep_entryFor, hrest, map_bind]
    simp only [map_pure, List.append_assoc, List.singleton_append, bind_pure_comp]

theorem copyingLoop_eq_mapM (xs : List (Node Tag)) :
    copyingLoop item xs = entryFor xs <$> xs.mapM item :=
  foldlM_copyStep item [] xs []

/-! ## The list from its end -/

theorem list_eq_mapM (xs : List (Node Tag)) : list item xs = entryFor xs <$> xs.mapM item := by
  induction xs with
  | nil => simp [list, entryFor]
  | cons x xs ih =>
    simp only [list, ih, List.mapM_cons, map_bind, map_pure, bind_map_left, entryFor_cons,
      ← apply_ite pure]

/-- The two ways of putting the copy together are one. -/
theorem list_eq_copyingLoop (xs : List (Node Tag)) : list item xs = copyingLoop item xs := by
  rw [list_eq_mapM, copyingLoop_eq_mapM]

/-- Where an entry that says nothing stands for the list as it is, rewriting a list is to go
over it once and keep what is not deleted. -/
theorem getD_list_eq_filterMapM (xs : List (Node Tag)) :
    (do return (← list item xs).getD xs) = xs.filterMapM item := by
  have hfilter : xs.filterMapM item = List.reduceOption <$> xs.mapM item := by
    induction xs with
    | nil => simp
    | cons x xs ih =>
      rw [List.filterMapM_cons, List.mapM_cons, map_bind]
      refine bind_congr fun answer => ?_
      cases answer with
      | none => simp [ih, List.reduceOption_cons_of_none]
      | some y => simp [ih, List.reduceOption_cons_of_some]
  simp only [hfilter, list_eq_mapM, bind_pure_comp, Functor.map_map, getD_entryFor]

end GraphQLSyntax.Rewriting
