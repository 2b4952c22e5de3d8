import GraphQLSyntax.Proofs.Rewriting.Children

/-!
# Occurrences in a run

What holds of every call of a run holds of every call of the runs inside it.  If every
call keeps what it is given, nothing is rebuilt, and the run results in the node that it
was given; and if identities are handed out in order, whatever the run results in only
has identities that are used up when it ends.
-/

namespace GraphQLSyntax

namespace Run

/-- All calls made for the occurrences in a run are as said. -/
def Every (P : Call → Prop) (run : Run) : Prop :=
  ∀ path phase call, run.call? path phase = some call → P call

variable {P : Call → Prop} {run : Run}

theorem call?_cons {child : Run} {i : Nat} (hchild : run.children[i]? = some child)
    (path : List Nat) (phase : Phase) : run.call? (i :: path) phase = child.call? path phase := by
  simp [call?, at?, hchild]

theorem exists_child_of_call? {i : Nat} {path : List Nat} {phase : Phase} {call : Call}
    (h : run.call? (i :: path) phase = some call) :
    ∃ child, run.children[i]? = some child ∧ child.call? path phase = some call := by
  simp only [call?, at?, Option.bind_eq_some_iff] at h
  obtain ⟨occurrence, ⟨child, hchild, hat⟩, hcall⟩ := h
  exact ⟨child, hchild, by rw [call?, hat]; exact hcall⟩

theorem Every.enter (h : run.Every P) : P run.enter :=
  h [] .enter _ rfl

theorem Every.leave (h : run.Every P) {call : Call} (hleave : run.leave = some call) :
    P call :=
  h [] .leave _ hleave

theorem Every.child (h : run.Every P) {child : Run} (hchild : child ∈ run.children) :
    child.Every P := by
  obtain ⟨i, hi⟩ := List.mem_iff_getElem?.1 hchild
  intro path phase call hcall
  exact h (i :: path) phase call (by rwa [call?_cons hi])

theorem every_iff :
    run.Every P ↔ P run.enter ∧ (∀ call, run.leave = some call → P call) ∧
      ∀ child ∈ run.children, child.Every P := by
  refine ⟨fun h => ⟨h.enter, fun _ => h.leave, fun _ => h.child⟩, ?_⟩
  rintro ⟨henter, hleave, hchildren⟩ (_ | ⟨i, path⟩) phase call hcall
  · cases phase with
    | enter => exact Option.some.inj hcall ▸ henter
    | leave => exact hleave call hcall
  · obtain ⟨child, hchild, hcall⟩ := exists_child_of_call? hcall
    exact hchildren child (List.mem_of_getElem? hchild) path phase call hcall

/-- A slot from which no child is deleted is not emptied. -/
theorem replacement_ne_nil {runs : List Run} (h : ∀ run ∈ runs, ∃ m, run.result = some m) :
    replacement runs ≠ some [] := by
  intro hlost
  obtain ⟨hne, hnil⟩ := replacement_eq_some_nil_iff.1 hlost
  obtain ⟨run, hrun⟩ := List.exists_mem_of_ne_nil _ hne
  obtain ⟨m, hm⟩ := h run hrun
  have hmem : m ∈ results runs := mem_results.2 ⟨run, hrun, hm⟩
  simp [hnil] at hmem

/-- A node that is kept on entering it and loses no child is not dropped. -/
theorem not_lost {m : Node Tag} (henter : run.enter.answer = some m)
    (hchildren : ∀ child ∈ run.children, ∃ m, child.result = some m) :
    ¬ (run.enter.answer = none ∨ ∃ lost ∈ run.slots, replacement lost = some []) := by
  rintro (hnone | ⟨lost, hmem, hlost⟩)
  · rw [henter] at hnone
    cases hnone
  · exact replacement_ne_nil
      (fun child hchild => hchildren child (List.mem_flatten.2 ⟨lost, hmem, hchild⟩)) hlost

end Run

namespace Rewriter

variable {σ : Type} {rewriter : Rewriter σ} {height : Nat} {n : Node Tag} {s s' : Session σ}
  {run : Run}

theorem exists_run_of_child (h : rewriter.runWithin height n s = .ok run s') :
    ∃ lower, height = lower + 1 ∧ ∀ child ∈ run.children,
      ∃ t t', rewriter.runWithin lower child.given t = .ok child t' := by
  obtain ⟨lower, rfl, houtcome⟩ := exists_outcome h
  refine ⟨lower, rfl, fun child hchild => ?_⟩
  cases houtcome with
  | dropped _ _ hchildren => exact hchildren.exists_of_mem hchild
  | left _ _ _ hchildren => exact hchildren.exists_of_mem hchild

/-- Each occurrence in a run is itself rewritten in a run of the rewriter. -/
theorem exists_run_of_at? (h : rewriter.runWithin height n s = .ok run s') {path : List Nat}
    {occurrence : Run} (hat : run.at? path = some occurrence) :
    ∃ lower t t', rewriter.runWithin lower occurrence.given t = .ok occurrence t' := by
  induction path generalizing height n s s' run with
  | nil =>
    obtain rfl := Option.some.inj hat
    exact ⟨height, s, s', by rwa [given_of_runWithin h]⟩
  | cons i path ih =>
    obtain ⟨child, hchild, hat⟩ := Option.bind_eq_some_iff.1 hat
    obtain ⟨lower, -, hrun⟩ := exists_run_of_child h
    obtain ⟨t, t', hrun⟩ := hrun child (List.mem_of_getElem? hchild)
    exact ih hrun hat

/-- Each call of a run is one of the rewriter. -/
theorem every_of_runWithin {P : Call → Prop}
    (henter : ∀ m t call t', Rewriting.observe rewriter.enter m t = .ok call t' → P call)
    (hleave : ∀ m t call t', Rewriting.observe rewriter.leave m t = .ok call t' → P call)
    (h : rewriter.runWithin height n s = .ok run s') : run.Every P := by
  intro path phase call hcall
  obtain ⟨occurrence, hat, hcall⟩ := Option.bind_eq_some_iff.1 hcall
  obtain ⟨_, _, _, hrun⟩ := exists_run_of_at? h hat
  obtain ⟨_, -, hstep⟩ := step_of_runWithin hrun
  cases phase with
  | enter =>
    obtain rfl := Option.some.inj hcall
    cases hstep with
    | deleted hentering => exact henter _ _ _ _ hentering
    | emptied hentering => exact henter _ _ _ _ hentering
    | left hentering => exact henter _ _ _ _ hentering
  | leave =>
    cases hstep with
    | deleted => cases hcall
    | emptied => cases hcall
    | left _ _ _ hleaving =>
      obtain rfl := Option.some.inj hcall
      exact hleave _ _ _ _ hleaving

/-- Where every call keeps what it is given, the very node that was given comes back. -/
theorem result_of_keeps (h : rewriter.runWithin height n s = .ok run s')
    (hkeeps : run.Every Call.Keeps) : run.result = some run.given := by
  induction height generalizing n s s' run with
  | zero => cases h
  | succ height ih =>
    have henter : run.enter.answer = some run.given := hkeeps.enter
    have hchildren : ∀ child ∈ run.children, child.result = some child.given := by
      intro child hchild
      obtain ⟨lower, heq, hrun⟩ := exists_run_of_child h
      obtain rfl := Nat.succ.inj heq
      obtain ⟨_, _, hrun⟩ := hrun child hchild
      exact ih hrun (hkeeps.child hchild)
    obtain ⟨_, -, houtcome⟩ := exists_outcome h
    cases houtcome with
    | dropped _ _ _ _ hlost =>
      exact absurd hlost (Run.not_lost henter fun child hchild => ⟨_, hchildren child hchild⟩)
    | left _ _ hanswer _ _ hleave _ hupdated =>
      obtain rfl := Option.some.inj (hanswer.symm.trans henter)
      obtain ⟨heq, -⟩ | ⟨-, -, -, hchanged⟩ := hupdated
      · rw [Run.result, hleave, Option.bind_some, hkeeps.leave hleave, heq]
      · exact absurd hchildren hchanged

end Rewriter

end GraphQLSyntax
