import GraphQLSyntax.Proofs.Rewriting.Calls
import GraphQLSyntax.Proofs.Rewriting.Occurrence

/-!
# What a run leaves in the notes

The calls of a run stand in it as a tree.  Put in order, they are what a rewriter notes
down while the run goes on: the call on entering a node, the calls for its children, and
the call on leaving it.
-/

namespace GraphQLSyntax

variable {σ : Type}

/-! ## The calls of a run in order -/

namespace Run

theorem sizeOf_lt_of_mem_children {run child : Run} (h : child ∈ run.children) :
    sizeOf child < sizeOf run := by
  obtain ⟨runs, hruns, hchild⟩ := List.mem_flatten.1 h
  have hlt := List.sizeOf_lt_of_mem hruns
  have hlt' := List.sizeOf_lt_of_mem hchild
  obtain ⟨enter, slots, leave⟩ := run
  simp only [Run.mk.sizeOf_spec] at *
  omega

/-- The calls of a run, in order. -/
def calls (run : Run) : Notes :=
  (.enter, run.given) :: run.children.attach.flatMap (fun child => child.1.calls) ++
    run.leave.toList.map fun call => (.leave, call.given)
termination_by sizeOf run
decreasing_by exact sizeOf_lt_of_mem_children child.2

theorem calls_eq (run : Run) :
    run.calls = (.enter, run.given) :: run.children.flatMap calls ++
      run.leave.toList.map fun call => (.leave, call.given) := by
  rw [calls, List.flatMap_subtype (g := calls) (fun _ _ => rfl), List.unattach_attach]

end Run

/-! ## Notes taken on the way -/

/-- A session in which something is noted. -/
def Session.noted (s : Session σ) (notes : Notes) : Session (σ × Notes) :=
  ⟨s.nextId, s.memory, notes⟩

namespace Rewriting

/-- A call is noted down when it is made. -/
theorem observe_noting (phase : Phase) {hook : (n : Node Tag) → Rewriting σ (Option n.Substitute)}
    {n : Node Tag} {s s' : Session σ} {call : Call} (h : observe hook n s = .ok call s')
    (notes : Notes) :
    observe (fun n => do note phase n; besideNotes (hook n)) n (s.noted notes) =
      .ok call (s'.noted (notes ++ [(phase, n)])) := by
  obtain ⟨answer, hanswer, rfl⟩ := observe_eq_ok.1 h
  refine observe_eq_ok.2 ⟨answer, ?_, rfl⟩
  refine bind_eq_ok.2 ⟨⟨⟩, s.noted (notes ++ [(phase, n)]), rfl, ?_⟩
  simp only [besideNotes, Session.noted, hanswer]

variable {trace : Node Tag → Rewriting σ Run} {noting : Node Tag → Rewriting (σ × Notes) Run}

theorem mapM_noting
    (h : ∀ x s run s', trace x s = .ok run s' → ∀ notes,
      noting x (s.noted notes) = .ok run (s'.noted (notes ++ run.calls)))
    {xs : List (Node Tag)} {s s' : Session σ} {runs : List Run}
    (hruns : xs.mapM trace s = .ok runs s') (notes : Notes) :
    xs.mapM noting (s.noted notes) = .ok runs (s'.noted (notes ++ runs.flatMap Run.calls)) := by
  induction xs generalizing s runs notes with
  | nil =>
    rw [List.mapM_nil, pure_eq_ok] at hruns
    obtain ⟨rfl, rfl⟩ := hruns
    rw [List.flatMap_nil, List.append_nil]
    rfl
  | cons x xs ih =>
    simp only [List.mapM_cons, bind_eq_ok, pure_eq_ok] at hruns
    obtain ⟨run, t, hrun, runs, t', hruns, rfl, rfl⟩ := hruns
    simp only [List.mapM_cons, bind_eq_ok, pure_eq_ok]
    refine ⟨run, _, h _ _ _ _ hrun notes, runs, _, ih hruns _, rfl, ?_⟩
    rw [List.flatMap_cons, List.append_assoc]

theorem runSlots_noting
    (h : ∀ x s run s', trace x s = .ok run s' → ∀ notes,
      noting x (s.noted notes) = .ok run (s'.noted (notes ++ run.calls)))
    {slots : List (Slot Tag)} {s s' : Session σ} {runs : List (List Run)} {complete : Bool}
    (hruns : runSlots trace slots s = .ok (runs, complete) s') (notes : Notes) :
    runSlots noting slots (s.noted notes) =
      .ok (runs, complete) (s'.noted (notes ++ runs.flatten.flatMap Run.calls)) := by
  induction slots generalizing s runs notes with
  | nil =>
    obtain ⟨heq, rfl⟩ := pure_eq_ok.1 hruns
    cases heq
    rw [List.flatten_nil, List.flatMap_nil, List.append_nil]
    rfl
  | cons slot rest ih =>
    obtain ⟨first, t, hfirst, hruns⟩ := bind_eq_ok.1 hruns
    refine bind_eq_ok.2 ⟨first, _, mapM_noting h hfirst notes, ?_⟩
    split at hruns
    case isTrue hlost =>
      obtain ⟨heq, rfl⟩ := pure_eq_ok.1 hruns
      cases heq
      rw [if_pos hlost, List.flatten_singleton]
      rfl
    case isFalse hkept =>
      obtain ⟨⟨others, complete⟩, t', hothers, hruns⟩ := bind_eq_ok.1 hruns
      obtain ⟨heq, rfl⟩ := pure_eq_ok.1 hruns
      cases heq
      rw [if_neg hkept]
      refine bind_eq_ok.2 ⟨_, _, ih hothers _, ?_⟩
      rw [List.flatten_cons, List.flatMap_append, List.append_assoc]
      rfl

end Rewriting

namespace Rewriter

open Rewriting

variable {rewriter : Rewriter σ} {height : Nat} {n : Node Tag} {s s' : Session σ} {run : Run}

/-- A rewriter that takes notes goes through the same run and notes down its calls. -/
theorem runWithin_noting (h : rewriter.runWithin height n s = .ok run s') (notes : Notes) :
    rewriter.noting.runWithin height n (s.noted notes) =
      .ok run (s'.noted (notes ++ run.calls)) := by
  induction height generalizing n s s' run notes with
  | zero => cases h
  | succ height ih =>
    have hgiven := given_of_runWithin h
    rw [Run.calls_eq, hgiven]
    refine runWithin_succ_eq_ok.2 ?_
    cases runWithin_succ_eq_ok.1 h with
    | deleted hentering hanswer =>
      exact .deleted (observe_noting .enter hentering notes) hanswer
    | emptied hentering hanswer hslots =>
      have hslots' := runSlots_noting (fun _ _ _ _ hrun => ih hrun) hslots
        (notes ++ [(.enter, n)])
      rw [List.append_assoc] at hslots'
      rw [Option.toList_none, List.map_nil, List.append_nil]
      exact .emptied (observe_noting .enter hentering notes) hanswer hslots'
    | @left entering leaving entered slots t t' _ hentering hanswer hslots hleaving =>
      have hslots' := runSlots_noting (fun _ _ _ _ hrun => ih hrun) hslots
        (notes ++ [(.enter, n)])
      have hleaving' := observe_noting .leave hleaving
        (notes ++ [(.enter, n)] ++ slots.flatten.flatMap Run.calls)
      refine .left (observe_noting .enter hentering notes) hanswer hslots' (hleaving'.trans ?_)
      rw [← given_of_observe hleaving, Option.toList_some, List.map_singleton, Run.children]
      simp only [List.append_assoc, List.cons_append, List.nil_append]

end Rewriter

end GraphQLSyntax
