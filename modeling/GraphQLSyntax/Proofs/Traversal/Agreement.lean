import GraphQLSyntax.Proofs.Rewriting.Notes
import GraphQLSyntax.Proofs.Rewriting.Sharing
import GraphQLSyntax.Proofs.Traversal.Places

/-!
# Walkers and rewriters make the same visits

A walker and a rewriter that keeps every node go through a tree in the same way.  The
main result says what that way is, for trees of any kind: each place is entered once and
left once, in the order in which fields are declared, and a tree is gone through in the
same way wherever it stands.
-/

namespace GraphQLSyntax

variable {σ : Type}

/-! ## Rewrites that keep everything -/

namespace Rewriter

variable {rewriter : Rewriter σ} {height : Nat} {n : Node Tag} {s s' : Session σ} {run : Run}

open Rewriting

theorem keeps_of_observe {hook : (n : Node Tag) → Rewriting σ (Option n.Substitute)}
    {call : Call} (hkept : ∃ m t, hook n s = .ok (some m) t ∧ m.val = n)
    (hcall : observe hook n s = .ok call s') : call.Keeps := by
  obtain ⟨answer, hanswer, rfl⟩ := observe_eq_ok.1 hcall
  obtain ⟨m, t, hkept, hm⟩ := hkept
  rw [hkept] at hanswer
  cases hanswer
  exact congrArg some hm

theorem KeepsEverything.every (hkeeps : rewriter.KeepsEverything)
    (h : rewriter.runWithin height n s = .ok run s') : run.Every Call.Keeps :=
  every_of_runWithin (fun m t _ _ hcall => keeps_of_observe (hkeeps m t).1 hcall)
    (fun m t _ _ hcall => keeps_of_observe (hkeeps m t).2 hcall) h

/-- Where every call keeps what it is given, the calls are the visits to the tree. -/
theorem calls_eq_visits (h : rewriter.runWithin height n s = .ok run s')
    (hkeeps : run.Every Call.Keeps) : run.calls = n.visits := by
  induction height generalizing n s s' run with
  | zero => cases h
  | succ height ih =>
    have hgiven := given_of_runWithin h
    have henter : run.enter.answer = some n := by
      rw [hkeeps.enter, ← hgiven]
      rfl
    obtain ⟨_, heq, hchildren⟩ := exists_run_of_child h
    obtain rfl := Nat.succ.inj heq
    have hkept : ∀ child ∈ run.children, child.result = some child.given := by
      intro child hchild
      obtain ⟨_, _, hrun⟩ := hchildren child hchild
      exact result_of_keeps hrun (hkeeps.child hchild)
    have hcalls : ∀ child ∈ run.children, child.calls = child.given.visits := by
      intro child hchild
      obtain ⟨_, _, hrun⟩ := hchildren child hchild
      exact ih hrun (hkeeps.child hchild)
    obtain ⟨_, -, houtcome⟩ := exists_outcome h
    cases houtcome with
    | dropped _ _ _ _ hlost =>
      exact absurd hlost (Run.not_lost henter fun child hchild => ⟨_, hkept child hchild⟩)
    | left _ _ hanswer _ hcomplete hleave _ hupdated =>
      obtain rfl := Option.some.inj (hanswer.symm.trans henter)
      obtain ⟨hsame, -, -⟩ | ⟨-, -, -, hchanged⟩ := hupdated
      · rw [Run.calls_eq, Node.visits_eq, Visits.around, hgiven, hleave, Option.toList_some,
          List.map_singleton, hsame, hcomplete.children_eq, List.flatMap_map,
          List.flatMap_congr hcalls]
      · exact absurd hkept hchanged

/-- Where every call keeps what it is given, the tree comes back and its visits are in the
notes. -/
theorem rewriteWithin_of_keeps (h : rewriter.runWithin height n s = .ok run s')
    (hkeeps : run.Every Call.Keeps) :
    rewriter.rewriteWithin height n s = .ok (some ⟨n, rfl⟩) s' ∧
      rewriter.noting.rewriteWithin height n s.unnoted =
        .ok (some ⟨n, rfl⟩) (s'.noted n.visits) := by
  have hresult : run.result = some n := by
    rw [result_of_keeps h hkeeps, given_of_runWithin h]
  have hnoting := runWithin_noting h []
  rw [List.nil_append, calls_eq_visits h hkeeps] at hnoting
  exact ⟨rewriteWithin_eq_ok.2 ⟨run, h, hresult⟩, rewriteWithin_eq_ok.2 ⟨run, hnoting, hresult⟩⟩

end Rewriter

/-! ## The visits to a tree -/

/-- The visits to a tree are in order: they are made at the places of the tree, each of
which is entered once and left once; they are nested; and those below a place are the
visits to the tree that stands there. -/
structure Node.VisitedInOrder {α : Type} (n : Node α) : Prop where
  at_places : n.visits.map (Prod.map id some) = n.places.map (Prod.map id n.at?)
  once : ∀ phase path,
    n.places.count (phase, path) = if (n.at? path).isSome then 1 else 0
  nested : Nested n.places
  ends : ∃ below, n.places = (.enter, []) :: below ++ [(.leave, [])]
  subtree : ∀ path m, n.at? path = some m → ∃ before after,
    n.places = before ++ m.places.map (Prod.map id (path ++ ·)) ++ after ∧
      ∃ earlier later, n.visits = earlier ++ m.visits ++ later ∧
        earlier.length = before.length ∧ later.length = after.length

theorem Node.visitedInOrder {α : Type} (n : Node α) : n.VisitedInOrder where
  at_places := n.map_places.symm
  once := n.count_places
  nested := n.nested_places
  ends := ⟨_, n.places_eq⟩
  subtree _ _ := exists_visits_eq

/-- Traversals agree.  Whatever a walker does, a walk calls it for the visits to the tree,
in order; and a rewriter whose calls all keep their nodes is called for the same visits,
for the very nodes of the tree. -/
theorem traversals_agree :
    (∀ (α : Type) (n : Node α), n.VisitedInOrder ∧
      ∀ (σ : Type) (walker : Walker α σ), walker.walk n = forM n.visits walker.call ∧
        ∀ s s', walker.walk n s = .ok ⟨⟩ s' →
          walker.noting.walk n (s, []) = .ok ⟨⟩ (s', n.visits)) ∧
    ∀ (σ : Type) (rewriter : Rewriter σ) (n : Node Tag) (s : Session σ),
      (∀ height run s', rewriter.runWithin height n s = .ok run s' → run.Every Call.Keeps →
        rewriter.rewriteWithin height n s = .ok (some ⟨n, rfl⟩) s' ∧
        rewriter.noting.rewriteWithin height n s.unnoted =
          .ok (some ⟨n, rfl⟩) (s'.noted n.visits)) ∧
      (rewriter.KeepsEverything → ∃ s', rewriter.rewrite n s = .ok (some n) s' ∧
        rewriter.noting.rewrite n s.unnoted = .ok (some n) (s'.noted n.visits)) := by
  refine ⟨fun α n => ⟨n.visitedInOrder, fun σ walker => ⟨walker.walk_eq_forM_visits n,
    fun s s' => Walker.walk_noting⟩⟩, fun σ rewriter n s => ⟨fun height run s' =>
      Rewriter.rewriteWithin_of_keeps, fun hkeeps => ?_⟩⟩
  obtain ⟨s', hrewrite⟩ := hkeeps.rewriteWithin (Nat.le_refl n.height) s
  obtain ⟨run, hrun, -⟩ := Rewriter.rewriteWithin_eq_ok.1 hrewrite
  obtain ⟨hkept, hnoted⟩ := Rewriter.rewriteWithin_of_keeps hrun (hkeeps.every hrun)
  exact ⟨s', Rewriting.bind_eq_ok.2 ⟨_, s', hkept, rfl⟩, Rewriting.bind_eq_ok.2 ⟨_, _, hnoted, rfl⟩⟩

/-! ## A field without an alias -/

section Counting

/-- Counts the visits. -/
def Walker.counting : Walker Tag Nat where
  enter _ := modify (· + 1)
  leave _ := modify (· + 1)

/-- Keeps every node and counts the calls. -/
def Rewriter.counting : Rewriter Nat where
  enter n := fun s => .ok (some ⟨n, n.kind_self⟩) { s with memory := s.memory + 1 }
  leave n := fun s => .ok (some ⟨n, n.kind_self⟩) { s with memory := s.memory + 1 }

theorem Rewriter.counting_keepsEverything : counting.KeepsEverything := fun n _ =>
  ⟨⟨⟨n, rfl⟩, _, rfl, rfl⟩, ⟨⟨n, rfl⟩, _, rfl, rfl⟩⟩

def Node.bareName : Node Tag :=
  .name ⟨"a", ⟨1, none⟩⟩

def Node.bareField : Node Tag :=
  .field ⟨none, ⟨"a", ⟨1, none⟩⟩, [], [], none, ⟨0, none⟩⟩

open Node Rewriter

theorem traversals_agree_bareField :
    (∃ before after, bareField.places = before ++ [(.enter, [0]), (.leave, [0])] ++ after) ∧
      Walker.counting.noting.walk bareField (0, []) =
        .ok ⟨⟩ (4, [(.enter, bareField), (.enter, bareName), (.leave, bareName),
          (.leave, bareField)]) ∧
      counting.noting.rewriteWithin 2 bareField ⟨2, 0, []⟩ =
        .ok (some ⟨bareField, rfl⟩) ⟨2, 4, bareField.visits⟩ ∧
      counting.noting.rewrite bareField ⟨2, 0, []⟩ =
        .ok (some bareField) ⟨2, 4, bareField.visits⟩ := by
  refine ⟨?_, ?_, ?_, ?_⟩
  · obtain ⟨before, after, hplaces, -⟩ :=
      (traversals_agree.1 Tag bareField).1.subtree [0] bareName (by decide +kernel)
    have hname : bareName.places.map (Prod.map id ([0] ++ ·)) =
        [(.enter, [0]), (.leave, [0])] := by decide +kernel
    rw [hname] at hplaces
    exact ⟨before, after, hplaces⟩
  · exact ((traversals_agree.1 Tag bareField).2 Nat .counting).2 0 4 (by decide +kernel)
  · have hresult : counting.rewriteWithin 2 bareField ⟨2, 0⟩ =
        .ok (some ⟨bareField, rfl⟩) ⟨2, 4⟩ := by
      decide +kernel
    obtain ⟨run, hrun, -⟩ := rewriteWithin_eq_ok.1 hresult
    exact ((traversals_agree.2 Nat counting bareField ⟨2, 0⟩).1 2 run ⟨2, 4⟩ hrun
      (counting_keepsEverything.every hrun)).2
  · obtain ⟨s', hrewrite, hnoted⟩ :=
      (traversals_agree.2 Nat counting bareField ⟨2, 0⟩).2 counting_keepsEverything
    have hresult : counting.rewrite bareField ⟨2, 0⟩ = .ok (some bareField) ⟨2, 4⟩ := by
      decide +kernel
    rw [hresult] at hrewrite
    cases hrewrite
    exact hnoted

end Counting

end GraphQLSyntax
