import GraphQLSyntax.Proofs.Rewriting.Lens
import GraphQLSyntax.Proofs.Rewriting.Lists
import GraphQLSyntax.Proofs.Rewriting.Notes
import GraphQLSyntax.Proofs.Rewriting.Stopping

/-!
# The items of a list

Whatever is done about the items of a list, and whatever is remembered meanwhile, each item is
asked about once, in order, in the session that the item before it has left.  Either all of
them come to something and the list comes to what is left of them, or one of them halts, and
then the list halts with it and no later item is asked about.
-/

namespace GraphQLSyntax.Rewriting

variable {σ β γ : Type} {item : Node Tag → Rewriting σ (Option (Node Tag))}
  {xs done : List (Node Tag)} {answers : List (Option (Node Tag))} {x : Node Tag}
  {s s' t : Session σ} {halt : Halt}

/-! ## One item after the other -/

theorem map_eq_ok {y : Rewriting σ β} {b : β} (h : y s = .ok b s') (f : β → γ) :
    (f <$> y) s = .ok (f b) s' := by
  simp only [Functor.map, EStateM.map, h]

theorem map_eq_error {y : Rewriting σ β} (h : y s = .error halt s') (f : β → γ) :
    (f <$> y) s = .error halt s' := by
  simp only [Functor.map, EStateM.map, h]

theorem bind_eq_error {y : Rewriting σ β} (h : y s = .error halt s') (f : β → Rewriting σ γ) :
    (y >>= f) s = .error halt s' := by
  simp only [bind, EStateM.bind, h]

/-- Either every item comes to something, or there is a first one that halts. -/
theorem mapM_ok_or_halts (item : Node Tag → Rewriting σ (Option (Node Tag)))
    (xs : List (Node Tag)) (s : Session σ) :
    (∃ answers s', xs.mapM item s = .ok answers s') ∨
      ∃ done x rest answers halt t s', xs = done ++ x :: rest ∧
        done.mapM item s = .ok answers t ∧ item x t = .error halt s' := by
  induction xs generalizing s with
  | nil => exact .inl ⟨[], s, rfl⟩
  | cons x xs ih =>
    cases hx : item x s with
    | error halt s' => exact .inr ⟨[], x, xs, [], halt, s, s', rfl, rfl, hx⟩
    | ok answer t =>
      simp only [List.mapM_cons, bind_eq_ok, pure_eq_ok]
      obtain ⟨answers, s', hxs⟩ | ⟨done, y, rest, answers, halt, u, s', rfl, hdone, hy⟩ := ih t
      · exact .inl ⟨_, _, answer, t, hx, answers, s', hxs, rfl, rfl⟩
      · refine .inr ⟨x :: done, y, rest, answer :: answers, halt, u, s', rfl, ?_, hy⟩
        simp only [List.mapM_cons, bind_eq_ok, pure_eq_ok]
        exact ⟨answer, t, hx, answers, u, hdone, rfl, rfl⟩

theorem length_of_mapM (h : xs.mapM item s = .ok answers s') : answers.length = xs.length := by
  induction xs generalizing s answers with
  | nil =>
    obtain ⟨rfl, -⟩ := pure_eq_ok.1 h
    rfl
  | cons x xs ih =>
    simp only [List.mapM_cons, bind_eq_ok, pure_eq_ok] at h
    obtain ⟨answer, t, -, answers, t', hxs, rfl, rfl⟩ := h
    rw [List.length_cons, List.length_cons, ih hxs]

/-- What comes after an item that halts has no part in it. -/
theorem mapM_eq_error (hdone : done.mapM item s = .ok answers t)
    (hx : item x t = .error halt s') (rest : List (Node Tag)) :
    (done ++ x :: rest).mapM item s = .error halt s' := by
  have hrest : (x :: rest).mapM item t = .error halt s' := by
    rw [List.mapM_cons]
    exact bind_eq_error hx _
  rw [List.mapM_append]
  simp only [bind, EStateM.bind, hdone, hrest]

theorem list_eq_ok_of_mapM (h : xs.mapM item s = .ok answers s') :
    list item xs s = .ok (entryFor xs answers) s' := by
  rw [list_eq_mapM]
  exact map_eq_ok h _

theorem list_eq_error (hdone : done.mapM item s = .ok answers t)
    (hx : item x t = .error halt s') (rest : List (Node Tag)) :
    list item (done ++ x :: rest) s = .error halt s' := by
  rw [list_eq_mapM]
  exact map_eq_error (mapM_eq_error hdone hx rest) _

/-! ## The items that are asked about -/

/-- Notes down an item that is asked about, and then rewrites it as before. -/
def notingItems (item : Node Tag → Rewriting σ (Option (Node Tag))) (x : Node Tag) :
    Rewriting (σ × Notes) (Option (Node Tag)) := do
  note .enter x
  besideNotes (item x)

/-- The items that are asked about while a list is rewritten, in order, however that ends. -/
def asked (item : Node Tag → Rewriting σ (Option (Node Tag))) (xs : List (Node Tag))
    (s : Session σ) : List (Node Tag) :=
  ((list (notingItems item) xs).calls s).map Prod.snd

theorem notingItems_eq (item : Node Tag → Rewriting σ (Option (Node Tag))) (x : Node Tag)
    (s : Session σ) (notes : Notes) :
    notingItems item x (s.noted notes) =
      mapState (·.noted (notes ++ [(.enter, x)])) (item x s) := by
  show besideNotes (item x) (s.noted (notes ++ [(.enter, x)])) = _
  simp only [besideNotes, Session.noted]
  cases item x s <;> rfl

theorem mapM_notingItems (h : xs.mapM item s = .ok answers s') (notes : Notes) :
    xs.mapM (notingItems item) (s.noted notes) =
      .ok answers (s'.noted (notes ++ xs.map (.enter, ·))) := by
  induction xs generalizing s answers notes with
  | nil =>
    obtain ⟨rfl, rfl⟩ := pure_eq_ok.1 h
    rw [List.map_nil, List.append_nil]
    rfl
  | cons x xs ih =>
    simp only [List.mapM_cons, bind_eq_ok, pure_eq_ok] at h ⊢
    obtain ⟨answer, t, hx, answers, t', hxs, rfl, rfl⟩ := h
    have hnoted : notingItems item x (s.noted notes) =
        .ok answer (t.noted (notes ++ [(.enter, x)])) := by
      rw [notingItems_eq, hx]
      rfl
    refine ⟨answer, _, hnoted, answers, _, ih hxs _, rfl, ?_⟩
    rw [List.append_assoc, List.singleton_append, List.map_cons]

/-- Taking notes has no part in what a list comes to. -/
theorem dropNotes_list (item : Node Tag → Rewriting σ (Option (Node Tag)))
    (xs : List (Node Tag)) (s : Session σ) :
    dropNotes (list (notingItems item) xs s.unnoted) = list item xs s :=
  dropNotes_eq (Simulates.list (fun x => simulates_noting .enter x (item x)) xs _ _ ⟨rfl, rfl⟩)

theorem asked_eq (h : xs.mapM item s = .ok answers s') : asked item xs s = xs := by
  have hlist := list_eq_ok_of_mapM (mapM_notingItems h [])
  rw [asked, calls, show s.unnoted = s.noted [] from rfl, hlist]
  simp [stateAfter, Session.noted]

theorem asked_eq_of_halts (hdone : done.mapM item s = .ok answers t)
    (hx : item x t = .error halt s') (rest : List (Node Tag)) :
    asked item (done ++ x :: rest) s = done ++ [x] := by
  have hnoted := notingItems_eq item x t ([] ++ done.map (.enter, ·))
  rw [hx] at hnoted
  have hlist := list_eq_error (mapM_notingItems hdone []) hnoted rest
  rw [asked, calls, show s.unnoted = s.noted [] from rfl, hlist]
  simp [stateAfter, Session.noted]

/-! ## What is left of the items -/

/-- What a list comes to, given what came of its items one by one.  It comes to nothing new
exactly if every item came back as the same node, which may be told by the identities where no
two different nodes have one in common; and otherwise to a list of those that were not deleted.
The items before the first one that came back as another node, or did not come back, stand in
it as they were.  It is empty if there were items and all of them were deleted. -/
structure ListOutcome (xs : List (Node Tag)) (answers : List (Option (Node Tag)))
    (new : Option (List (Node Tag))) : Prop where
  eq_none_iff : new = none ↔ List.Forall₂ (fun x answer => answer = some x) xs answers
  eq_none_iff_isSameAs : Node.Identified (xs ++ answers.reduceOption) →
    (new = none ↔
      List.Forall₂ (fun x answer => ∃ y, answer = some y ∧ x.IsSameAs y) xs answers)
  eq_reduceOption : ∀ ys, new = some ys → ys = answers.reduceOption
  copied : ∀ ys, new = some ys → ∃ before x after answer later, xs = before ++ x :: after ∧
    answers = before.map some ++ answer :: later ∧ answer ≠ some x ∧
      ys = before ++ (answer :: later).reduceOption
  getD_eq : new.getD xs = answers.reduceOption
  eq_some_nil_iff : new = some [] ↔ xs ≠ [] ∧ ∀ answer ∈ answers, answer = none

theorem eq_map_some_iff : answers = xs.map some ↔
    List.Forall₂ (fun x answer => answer = some x) xs answers := by
  rw [eq_comm, ← List.forall₂_eq_eq_eq, List.forall₂_map_left_iff]
  simp only [eq_comm]

theorem exists_eq_map_some {same : Node Tag → Node Tag → Prop}
    (h : List.Forall₂ (fun x answer => ∃ y, answer = some y ∧ same x y) xs answers) :
    ∃ ys, answers = ys.map some ∧ List.Forall₂ same xs ys := by
  induction h with
  | nil => exact ⟨[], rfl, .nil⟩
  | cons hx _ ih =>
    obtain ⟨y, rfl, hy⟩ := hx
    obtain ⟨ys, rfl, hys⟩ := ih
    exact ⟨y :: ys, rfl, .cons hy hys⟩

/-- Of items that did not all come back, there is a first one that did not. -/
theorem exists_first_changed (hlength : answers.length = xs.length) (h : answers ≠ xs.map some) :
    ∃ before x after answer later, xs = before ++ x :: after ∧
      answers = before.map some ++ answer :: later ∧ answer ≠ some x := by
  induction xs generalizing answers with
  | nil => exact absurd (List.length_eq_zero_iff.1 hlength) h
  | cons x xs ih =>
    obtain _ | ⟨answer, answers⟩ := answers
    · simp at hlength
    by_cases hx : answer = some x
    · obtain ⟨before, y, after, other, later, rfl, rfl, hy⟩ :=
        ih (Nat.succ.inj hlength) fun hxs => h (by rw [hx, hxs, List.map_cons])
      exact ⟨x :: before, y, after, other, later, rfl, by rw [hx]; rfl, hy⟩
    · exact ⟨[], x, xs, answer, answers, rfl, rfl, hx⟩

theorem reduceOption_eq_nil_iff : answers.reduceOption = [] ↔ ∀ answer ∈ answers, answer = none :=
  List.filterMap_eq_nil_iff

theorem listOutcome_entryFor (hlength : answers.length = xs.length) :
    ListOutcome xs answers (entryFor xs answers) where
  eq_none_iff := entryFor_eq_none_iff.trans eq_map_some_iff
  eq_none_iff_isSameAs hids := by
    rw [entryFor_eq_none_iff]
    constructor
    · intro h
      exact (eq_map_some_iff.1 h).imp fun x answer hx => ⟨x, hx, rfl⟩
    · intro h
      obtain ⟨ys, rfl, hys⟩ := exists_eq_map_some h
      rw [reduceOption_map_some] at hids
      rw [Node.eq_of_forall₂_isSameAs (fun x hx y hy => hids x (List.mem_append_left _ hx) y
        (List.mem_append_right _ hy)) hys]
  eq_reduceOption ys h := (entryFor_eq_some_iff.1 h).2.symm
  copied ys h := by
    obtain ⟨hchanged, rfl⟩ := entryFor_eq_some_iff.1 h
    obtain ⟨before, x, after, answer, later, rfl, rfl, hx⟩ :=
      exists_first_changed hlength hchanged
    refine ⟨before, x, after, answer, later, rfl, rfl, hx, ?_⟩
    rw [List.reduceOption_append, reduceOption_map_some]
  getD_eq := getD_entryFor
  eq_some_nil_iff := by
    rw [entryFor_eq_some_iff, reduceOption_eq_nil_iff]
    refine and_congr_left fun hdeleted => not_congr ⟨fun h => ?_, fun h => ?_⟩
    · by_contra hne
      obtain ⟨x, hx⟩ := List.exists_mem_of_ne_nil xs hne
      cases hdeleted (some x) (h ▸ List.mem_map_of_mem hx)
    · rw [h] at hlength ⊢
      exact List.length_eq_zero_iff.1 hlength

/-- Rewriting a list is filter-map, with the copy made late.  Whatever is done about the items
and remembered meanwhile, it is the loop that copies the list once an item differs; and taking
the list as it is where it comes to nothing new, it is filter-map.  Either every item is asked
about once, in order, and the list comes to what is left of them; or one of them halts, and then
the list halts with it, in the same session, and no later item is asked about. -/
theorem list_isLazyFilterMap (item : Node Tag → Rewriting σ (Option (Node Tag)))
    (xs : List (Node Tag)) (s : Session σ) :
    list item xs = copyingLoop item xs ∧
    (do return (← list item xs).getD xs) = xs.filterMapM item ∧
    dropNotes (list (notingItems item) xs s.unnoted) = list item xs s ∧
    ((∃ answers new s', xs.mapM item s = .ok answers s' ∧ list item xs s = .ok new s' ∧
        asked item xs s = xs ∧ ListOutcome xs answers new) ∨
      ∃ done x rest answers halt t s', xs = done ++ x :: rest ∧
        done.mapM item s = .ok answers t ∧ item x t = .error halt s' ∧
        list item xs s = .error halt s' ∧ asked item xs s = done ++ [x]) := by
  refine ⟨list_eq_copyingLoop item xs, getD_list_eq_filterMapM item xs, dropNotes_list item xs s,
    ?_⟩
  obtain ⟨answers, s', h⟩ | ⟨done, x, rest, answers, halt, t, s', rfl, hdone, hx⟩ :=
    mapM_ok_or_halts item xs s
  · exact .inl ⟨answers, _, s', h, list_eq_ok_of_mapM h, asked_eq h,
      listOutcome_entryFor (length_of_mapM h)⟩
  · exact .inr ⟨done, x, rest, answers, halt, t, s', rfl, hdone, hx, list_eq_error hdone hx rest,
      asked_eq_of_halts hdone hx rest⟩

/-! ### The last item deleted, or halted at -/

section CountingOut

/-- Counts the items, deletes the one with the one number and halts at the one with the other,
counted from zero. -/
def countingOut (deleted stopped : Nat) (x : Node Tag) : Rewriting Nat (Option (Node Tag)) := do
  let count ← modifyGet fun s => (s.memory, { s with memory := s.memory + 1 })
  if count = stopped then throw .stopped
  else return if count = deleted then none else some x

/-- Of three names, the first two are copied once the last one is deleted; and if the second one
halts, the third one is not asked about. -/
theorem list_isLazyFilterMap_lastDeleted :
    let a : Node Tag := .name ⟨"a", 0, none⟩
    let b : Node Tag := .name ⟨"b", 1, none⟩
    let c : Node Tag := .name ⟨"c", 2, none⟩
    Node.Identified [a, b, c, a, b] ∧
      list (countingOut 2 3) [a, b, c] ⟨3, 0⟩ = .ok (some [a, b]) ⟨3, 3⟩ ∧
      asked (countingOut 2 3) [a, b, c] ⟨3, 0⟩ = [a, b, c] ∧
      list (countingOut 0 1) [a, b, c] ⟨3, 0⟩ = .error .stopped ⟨3, 2⟩ ∧
      asked (countingOut 0 1) [a, b, c] ⟨3, 0⟩ = [a, b] := by
  intro a b c
  have hids : Node.Identified [a, b, c, a, b] := by
    simp [Node.Identified, Node.IsSameAs, a, b, c, Node.tag]
  have hanswers : [a, b, c].mapM (countingOut 2 3) ⟨3, 0⟩ = .ok [some a, some b, none] ⟨3, 3⟩ :=
    rfl
  have hhalted : list (countingOut 0 1) [a, b, c] ⟨3, 0⟩ = .error .stopped ⟨3, 2⟩ := rfl
  obtain ⟨-, -, -, houtcome⟩ := list_isLazyFilterMap (countingOut 2 3) [a, b, c] ⟨3, 0⟩
  obtain ⟨answers, new, s', hmap, hnew, hasked, houtcome⟩ |
    ⟨_, _, _, _, _, _, _, -, -, -, herror, -⟩ := houtcome
  · cases hanswers.symm.trans hmap
    obtain _ | ys := new
    · have hkept := (houtcome.eq_none_iff_isSameAs hids).1 rfl
      simp at hkept
    · cases houtcome.eq_reduceOption ys rfl
      exact ⟨hids, hnew, hasked, hhalted, rfl⟩
  · cases (list_eq_ok_of_mapM hanswers).symm.trans herror

end CountingOut

end GraphQLSyntax.Rewriting
