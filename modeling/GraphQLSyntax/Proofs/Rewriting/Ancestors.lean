import GraphQLSyntax.Proofs.Rewriting.Allocation

/-!
# The ancestors of a replaced node

When a single call of a run puts another node in the place of the one it is given, the
result is the tree with that node put in at that place.  The nodes on the way down to it
are rebuilt, each of them because one child has come back different, and everything
beside the way is shared.
-/

namespace GraphQLSyntax

/-! ## Places in a tree -/

/-- The first place is on the way down to the second one, and not there yet. -/
def IsAbove (above path : List Nat) : Prop :=
  above <+: path ∧ above ≠ path

theorem not_isAbove_nil (above : List Nat) : ¬ IsAbove above [] :=
  fun h => h.2 (List.prefix_nil.1 h.1)

theorem isAbove_cons_iff {above path : List Nat} {i : Nat} :
    IsAbove above (i :: path) ↔
      above = [] ∨ ∃ rest, above = i :: rest ∧ IsAbove rest path := by
  cases above with
  | nil => simp [IsAbove]
  | cons j above => simp [IsAbove, List.cons_prefix_cons]; grind

namespace Node

variable {α : Type}

/-- The node that is reached by going down from child to child. -/
def at? : Node α → List Nat → Option (Node α)
  | n, [] => some n
  | n, i :: path => n.children[i]?.bind fun child => child.at? path

theorem at?_cons {n child : Node α} {i : Nat} (hchild : n.children[i]? = some child)
    (path : List Nat) : n.at? (i :: path) = child.at? path := by
  simp [at?, hchild]

theorem mem_preorder_of_at? {n m : Node α} {path : List Nat} (h : n.at? path = some m) :
    m ∈ n.preorder := by
  induction path generalizing n with
  | nil =>
    obtain rfl := Option.some.inj h
    exact mem_preorder_iff.2 (.inl rfl)
  | cons i path ih =>
    obtain ⟨child, hchild, h⟩ := Option.bind_eq_some_iff.1 h
    exact mem_preorder_of_mem_children (List.mem_of_getElem? hchild) (ih h)

end Node

theorem getElem?_filterMap {β γ : Type} {f : β → Option γ} {xs : List β}
    (h : ∀ x ∈ xs, ∃ y, f x = some y) (i : Nat) :
    (xs.filterMap f)[i]? = xs[i]?.bind f := by
  induction xs generalizing i with
  | nil => simp
  | cons x xs ih =>
    rw [List.forall_mem_cons] at h
    obtain ⟨⟨y, hy⟩, h⟩ := h
    rw [List.filterMap_cons_some hy]
    cases i with
    | zero => simp [hy]
    | succ i => simpa using ih h i

/-! ## Runs with a single replacement -/

namespace Run

/-- All calls of a run keep what they are given, except perhaps one. -/
def KeepsBut (run : Run) (path : List Nat) (phase : Phase) : Prop :=
  ∀ path' phase' call, run.call? path' phase' = some call →
    (path', phase') ≠ (path, phase) → call.Keeps

namespace KeepsBut

variable {run child : Run} {path : List Nat} {phase : Phase} {i : Nat}

theorem enter (h : run.KeepsBut path phase) (hne : ([], Phase.enter) ≠ (path, phase)) :
    run.enter.Keeps :=
  h [] .enter _ rfl hne

theorem leave (h : run.KeepsBut path phase) (hne : ([], Phase.leave) ≠ (path, phase))
    {call : Call} (hleave : run.leave = some call) : call.Keeps :=
  h [] .leave _ hleave hne

/-- The call that may not keep what it is given is not made for this child. -/
theorem beside (h : run.KeepsBut path phase) (hchild : run.children[i]? = some child)
    (hpath : path.head? ≠ some i) : child.Every Call.Keeps := by
  intro path' phase' call hcall
  refine h (i :: path') phase' call (by rwa [call?_cons hchild]) fun heq => hpath ?_
  rw [← (Prod.mk.inj heq).1, List.head?_cons]

theorem below (h : run.KeepsBut (i :: path) phase) (hchild : run.children[i]? = some child) :
    child.KeepsBut path phase := by
  intro path' phase' call hcall hne
  refine h (i :: path') phase' call (by rwa [call?_cons hchild]) fun heq => hne ?_
  simpa using heq

end KeepsBut

/-- The node that came of entering an occurrence is rebuilt. -/
structure Rebuilds (occurrence : Run) (n m : Node Tag) : Prop where
  entered : occurrence.enter.answer = some n
  left : ∃ leaving, occurrence.leave = some leaving ∧ leaving.given = m
  ne : m ≠ n

/-- The run puts a node in at a place, and rebuilds what is above that place. -/
structure ReplacesAt (run : Run) (path : List Nat) (n x y r : Node Tag) : Prop where
  old : n.at? path = some x
  new : r.at? path = some y
  mem_or : ∀ m ∈ r.preorder, m ∈ n.preorder ∨ m ∈ y.preorder ∨
    ∃ above, IsAbove above path ∧ r.at? above = some m
  rebuilt : ∀ above, IsAbove above path → ∃ a b occurrence, n.at? above = some a ∧
    r.at? above = some b ∧ run.at? above = some occurrence ∧ occurrence.Rebuilds a b

/-- Putting a node in below one child only changes that child and the node itself. -/
theorem ReplacesAt.cons {run child : Run} {n m x y r : Node Tag} {i : Nat} {path : List Nat}
    (hold : ∀ j : Nat, n.children[j]? = run.children[j]?.map given)
    (hnew : ∀ j : Nat, m.children[j]? = run.children[j]?.bind result)
    (hchild : run.children[i]? = some child) (hr : child.result = some r)
    (hbeside : ∀ {j : Nat} {other : Run}, j ≠ i → run.children[j]? = some other →
      other.result = some other.given)
    (hrebuilds : run.Rebuilds n m) (h : child.ReplacesAt path child.given x y r) :
    run.ReplacesAt (i :: path) n x y m := by
  have hn : n.children[i]? = some child.given := by rw [hold, hchild]; rfl
  have hm : m.children[i]? = some r := by rw [hnew, hchild]; exact hr
  constructor
  case old => rw [Node.at?_cons hn, h.old]
  case new => rw [Node.at?_cons hm, h.new]
  case mem_or =>
    intro l hl
    obtain rfl | ⟨c, hc, hl⟩ := Node.mem_preorder_iff.1 hl
    · exact .inr (.inr ⟨[], isAbove_cons_iff.2 (.inl rfl), rfl⟩)
    obtain ⟨j, hj⟩ := List.mem_iff_getElem?.1 hc
    by_cases hji : j = i
    · subst hji
      obtain rfl := Option.some.inj (hm.symm.trans hj)
      obtain hl | hl | ⟨above, habove, hat⟩ := h.mem_or l hl
      · exact .inl (Node.mem_preorder_of_mem_children (List.mem_of_getElem? hn) hl)
      · exact .inr (.inl hl)
      · exact .inr (.inr ⟨j :: above, isAbove_cons_iff.2 (.inr ⟨above, rfl, habove⟩),
          by rw [Node.at?_cons hm, hat]⟩)
    · -- a child beside the way down is the one that was there
      rw [hnew] at hj
      obtain ⟨other, hother, hresult⟩ := Option.bind_eq_some_iff.1 hj
      obtain rfl := Option.some.inj (hresult.symm.trans (hbeside hji hother))
      refine .inl (Node.mem_preorder_of_mem_children (List.mem_of_getElem? (i := j) ?_) hl)
      rw [hold, hother]
      rfl
  case rebuilt =>
    intro above habove
    obtain rfl | ⟨rest, rfl, hrest⟩ := isAbove_cons_iff.1 habove
    · exact ⟨n, m, run, rfl, rfl, rfl, hrebuilds⟩
    · obtain ⟨a, b, occurrence, ha, hb, hat, hoccurrence⟩ := h.rebuilt rest hrest
      exact ⟨a, b, occurrence, by rw [Node.at?_cons hn, ha], by rw [Node.at?_cons hm, hb],
        by rw [at?, hchild]; exact hat, hoccurrence⟩

end Run

namespace Rewriter

variable {σ : Type} {rewriter : Rewriter σ} {height : Nat} {n y : Node Tag}
  {s s' : Session σ} {run : Run} {path : List Nat} {phase : Phase} {call : Call}

theorem children_kept (h : rewriter.runWithin height n s = .ok run s')
    (hkeeps : run.KeepsBut path phase) {i : Nat} {child : Run}
    (hchild : run.children[i]? = some child) (hpath : path.head? ≠ some i) :
    child.result = some child.given := by
  obtain ⟨lower, -, hrun⟩ := exists_run_of_child h
  obtain ⟨t, t', hrun⟩ := hrun child (List.mem_of_getElem? hchild)
  exact result_of_keeps hrun (hkeeps.beside hchild hpath)

/-- If the child on the way down is not deleted, no child is. -/
theorem children_left (h : rewriter.runWithin height n s = .ok run s') {i : Nat} {child : Run}
    (hkeeps : run.KeepsBut (i :: path) phase) (hchild : run.children[i]? = some child)
    (hsome : ∃ m, child.result = some m) :
    ∀ other ∈ run.children, ∃ m, other.result = some m := by
  intro other hother
  obtain ⟨j, hj⟩ := List.mem_iff_getElem?.1 hother
  by_cases hji : j = i
  · subst hji
    obtain rfl := Option.some.inj (hchild.symm.trans hj)
    exact hsome
  · exact ⟨_, children_kept h hkeeps hj (by simpa using Ne.symm hji)⟩

/-- A node replaced by a call made for the root is the result. -/
theorem result_of_replaced (h : rewriter.runWithin height n s = .ok run s')
    (hcall : run.call phase = some call) (hanswer : call.answer = some y)
    (hkeeps : run.KeepsBut [] phase) : call.given = n ∧ run.result = some y := by
  have hchildren : ∀ child ∈ run.children, child.result = some child.given := by
    intro child hmem
    obtain ⟨i, hi⟩ := List.mem_iff_getElem?.1 hmem
    exact children_kept h hkeeps hi nofun
  have hgiven := given_of_runWithin h
  obtain ⟨lower, -, houtcome⟩ := exists_outcome h
  cases phase with
  | enter =>
    obtain rfl := Option.some.inj hcall
    refine ⟨hgiven, ?_⟩
    cases houtcome with
    | dropped _ _ _ _ hlost =>
      exact absurd hlost (Run.not_lost hanswer fun child hchild => ⟨_, hchildren child hchild⟩)
    | left _ _ hentered _ _ hleave _ hupdated =>
      obtain rfl := Option.some.inj (hentered.symm.trans hanswer)
      obtain ⟨heq, -⟩ | ⟨-, -, -, hchanged⟩ := hupdated
      · rw [Run.result, hleave, Option.bind_some, hkeeps.leave (by simp) hleave, heq]
      · exact absurd hchildren hchanged
  | leave =>
    replace hcall : run.leave = some call := hcall
    have henter : run.enter.answer = some n := by
      rw [hkeeps.enter (by simp), ← hgiven]
      rfl
    cases houtcome with
    | dropped _ _ _ hleave =>
      rw [hleave] at hcall
      cases hcall
    | left _ _ hentered _ _ hleave _ hupdated =>
      obtain rfl := Option.some.inj (hentered.symm.trans henter)
      obtain rfl := Option.some.inj (hleave.symm.trans hcall)
      obtain ⟨heq, -⟩ | ⟨-, -, -, hchanged⟩ := hupdated
      · exact ⟨heq, by rw [Run.result, hleave, Option.bind_some, hanswer]⟩
      · exact absurd hchildren hchanged

/-- A single replacement rebuilds what is above it, under identities that neither the
nodes before it nor those put in have. -/
theorem exists_replacesAt (h : rewriter.runWithin height n s = .ok run s')
    (halloc : run.Every Call.Allocates) (hcall : run.call? path phase = some call)
    (hanswer : call.answer = some y) (hne : y ≠ call.given)
    (hkeeps : run.KeepsBut path phase) :
    ∃ r, run.result = some r ∧ r ≠ n ∧ run.ReplacesAt path n call.given y r ∧
      y.idBound ≤ s'.nextId ∧ ∀ above b, IsAbove above path → r.at? above = some b →
        s.nextId ≤ b.tag.id ∧ y.idBound ≤ b.tag.id := by
  induction path generalizing height n s s' run with
  | nil =>
    obtain ⟨hgiven, hresult⟩ := result_of_replaced h hcall hanswer hkeeps
    refine ⟨y, hresult, hgiven ▸ hne, ?_, idBound_le_of_runWithin h halloc hresult,
      fun above _ habove => absurd habove (not_isAbove_nil above)⟩
    exact
      { old := by rw [hgiven]; rfl
        new := rfl
        mem_or := fun _ hm => .inr (.inl hm)
        rebuilt := fun above habove => absurd habove (not_isAbove_nil above) }
  | cons i path ih =>
    obtain ⟨child, hchild, hcall⟩ := Run.exists_child_of_call? hcall
    have hmem := List.mem_of_getElem? hchild
    have hbelow : ∀ {lower u u'}, rewriter.runWithin lower child.given u = .ok child u' → _ :=
      fun hrun => ih hrun (halloc.child hmem) hcall (hkeeps.below hchild)
    have hbeside : ∀ {j : Nat} {other : Run}, j ≠ i → run.children[j]? = some other →
        other.result = some other.given :=
      fun hji hother => children_kept h hkeeps hother (by simpa using Ne.symm hji)
    have hsome : ∀ other ∈ run.children, ∃ m, other.result = some m := by
      obtain ⟨_, -, hrun⟩ := exists_run_of_child h
      obtain ⟨_, _, hrun⟩ := hrun child hmem
      obtain ⟨r, hr, -⟩ := hbelow hrun
      exact children_left h hkeeps hchild ⟨r, hr⟩
    have henter : run.enter.answer = some n := by
      rw [hkeeps.enter (by simp), ← given_of_runWithin h]
      rfl
    obtain ⟨lower, -, houtcome⟩ := exists_outcome h
    cases houtcome with
    | dropped _ _ _ _ hlost => exact absurd hlost (Run.not_lost henter hsome)
    | @left entered leaving t t' hbefore hafter hentered hchildren hcomplete hleave hrebuilt
        hupdated hstop =>
      obtain rfl := Option.some.inj (hentered.symm.trans henter)
      obtain ⟨hle, hbetween⟩ := hchildren.allocates
        (fun _ _ _ _ => nextId_le_of_runWithin) fun _ => halloc.child
      obtain ⟨u, u', hrun, hu, hu'⟩ := hbetween child hmem
      obtain ⟨r, hr, hrne, hreplaces, hbound, hids⟩ := hbelow hrun
      obtain ⟨-, -, hkept⟩ | ⟨hne', hbefore', hid, -⟩ := hupdated
      · exact absurd (Option.some.inj (hr.symm.trans (hkept child hmem))) hrne
      have hold : ∀ j : Nat, entered.children[j]? = run.children[j]?.map Run.given := fun j => by
        rw [hcomplete.children_eq, List.getElem?_map]
      have hnew : ∀ j : Nat, leaving.given.children[j]? = run.children[j]?.bind Run.result :=
        fun j => by
          rw [hrebuilt.children_eq, Run.flatten_map_results, getElem?_filterMap hsome]
      have henterAllocates := halloc.enter.before_le
      have hleaveAllocates := (halloc.leave hleave).before_le
      refine ⟨leaving.given, ?_, hne', .cons hold hnew hchild hr hbeside
        ⟨hentered, ⟨leaving, hleave, rfl⟩, hne'⟩ hreplaces, by omega, ?_⟩
      · rw [Run.result, hleave, Option.bind_some, hkeeps.leave (by simp) hleave]
      intro above b habove hb
      obtain rfl | ⟨rest, rfl, hrest⟩ := isAbove_cons_iff.1 habove
      · obtain rfl := Option.some.inj hb
        omega
      · have hm : leaving.given.children[i]? = some r := by
          rw [hnew, hchild]
          exact hr
        have := hids rest b hrest (by rwa [Node.at?_cons hm] at hb)
        omega

end Rewriter

end GraphQLSyntax
