import GraphQLSyntax.Proofs.Rewriting.Calls
import GraphQLSyntax.Proofs.Traversal.Agreement
import GraphQLSyntax.Proofs.Traversal.Stopping

/-!
# Rewrites that are stopped

A rewrite that is stopped by a certain call is the whole rewrite, cut off behind that call.
That is so however deep the call is made, and whatever has been rewritten by then: nothing
goes on after it, and nothing that was rewritten is returned.  With what is known of walks,
this is the main result.
-/

namespace GraphQLSyntax

variable {σ β : Type}

/-! ## Stopping at a call -/

/-- Takes a step that is a call, unless it is the call with the given number, counted from
one; at that one the rewrite stops. -/
def Rewriting.unlessLast (limit : Nat) (x : Rewriting σ β) : Rewriting (σ × Nat) β := fun s =>
  if s.memory.2 + 1 = limit then .error .stopped s
  else mapState (fun t => ⟨t.nextId, t.memory, s.memory.2 + 1⟩) (x ⟨s.nextId, s.memory.1⟩)

/-- Does what the rewriter does, and stops at the call with the given number, counted from
one. -/
def Rewriter.stoppingAt (limit : Nat) (rewriter : Rewriter σ) : Rewriter (σ × Nat) where
  enter n := Rewriting.unlessLast limit (rewriter.enter n)
  leave n := Rewriting.unlessLast limit (rewriter.leave n)

/-- A session in which some calls have been counted. -/
def Session.counted (s : Session σ) (count : Nat) : Session (σ × Nat) :=
  ⟨s.nextId, s.memory, count⟩

namespace Rewriting

/-- The rewrite that takes notes, and the one that counts the calls as well. -/
def watch (σ : Type) :
    Watch Halt (Session (σ × Notes)) (Session ((σ × Nat) × Notes)) (Phase × Node Tag) where
  calls s := s.memory.2
  counted s := ⟨s.nextId, (s.memory.1, s.memory.2.length), s.memory.2⟩
  calls' t := t.memory.2
  stopped := .stopped
  calls'_counted _ := rfl

variable {limit : Nat}

/-- One call more, or the call to stop at. -/
theorem follows_noting (limit : Nat) (phase : Phase) (n : Node Tag) (x : Rewriting σ β) :
    (watch σ).Follows limit (do note phase n; besideNotes x)
      (do note phase n; besideNotes (unlessLast limit x)) := by
  refine .call (phase, n) ?_ ?_ ?_
  · rintro ⟨nextId, memory, notes⟩
    show ((stateAfter (besideNotes x ⟨nextId, memory, notes ++ [(phase, n)]⟩)).memory).2 = _
    rw [besideNotes]
    cases x ⟨nextId, memory⟩ <;> rfl
  · rintro ⟨nextId, memory, notes⟩ (hlast : notes.length + 1 = limit)
    refine ⟨⟨nextId, (memory, notes.length), notes ++ [(phase, n)]⟩, ?_, rfl⟩
    show besideNotes (unlessLast limit x)
      ⟨nextId, (memory, notes.length), notes ++ [(phase, n)]⟩ = _
    simp [besideNotes, unlessLast, watch, hlast]
  · rintro ⟨nextId, memory, notes⟩ (hmore : notes.length + 1 ≠ limit)
    show besideNotes (unlessLast limit x)
      ⟨nextId, (memory, notes.length), notes ++ [(phase, n)]⟩ =
        mapState _ (besideNotes x ⟨nextId, memory, notes ++ [(phase, n)]⟩)
    simp only [besideNotes, unlessLast, watch, if_neg hmore]
    cases x ⟨nextId, memory⟩ <;> simp [mapState]

variable {item : Node Tag → Rewriting (σ × Notes) (Option (Node Tag))}
  {item' : Node Tag → Rewriting ((σ × Nat) × Notes) (Option (Node Tag))}

theorem follows_list (h : ∀ n, (watch σ).Follows limit (item n) (item' n)) (xs : List (Node Tag)) :
    (watch σ).Follows limit (list item xs) (list item' xs) := by
  induction xs with
  | nil => exact .pure none
  | cons x xs ih =>
    refine .bind (h x) fun y => .bind ih fun ys => ?_
    split
    · exact .pure _
    · exact .pure _

theorem follows_slots (h : ∀ n, (watch σ).Follows limit (item n) (item' n))
    (slots : List (Slot Tag)) :
    (watch σ).Follows limit (Rewriting.slots item slots) (Rewriting.slots item' slots) := by
  induction slots with
  | nil => exact .pure (some [])
  | cons slot rest ih =>
    refine .bind (follows_list h slot.nodes) fun new => ?_
    split
    · exact .pure none
    · exact .bind ih fun others => .pure _

/-- Creating nodes is no call. -/
theorem follows_create (make : Nat → β × Nat) :
    (watch σ).Follows limit (create make) (create make) :=
  .silent (fun _ => rfl) fun _ => rfl

end Rewriting

namespace Rewriter

open Rewriting

variable (rewriter : Rewriter σ) (limit : Nat)

theorem follows_rewriteWithin (height : Nat) (n : Node Tag) :
    (watch σ).Follows limit (rewriter.noting.rewriteWithin height n)
      ((rewriter.stoppingAt limit).noting.rewriteWithin height n) := by
  induction height generalizing n with
  | zero => exact .throw Halt.tooDeep
  | succ height ih =>
    refine .bind (follows_noting limit .enter n _) fun answer => ?_
    cases answer with
    | none => exact .pure none
    | some entered =>
      refine .bind (follows_slots (fun c => .bind (ih c) fun _ => .pure _) _) fun new => ?_
      cases new with
      | none => exact .pure none
      | some new =>
        refine .bind (follows_create _) fun updated => ?_
        refine .bind (follows_noting limit .leave updated.1 _) fun left => ?_
        cases left with
        | none => exact .pure none
        | some left => exact .pure _

theorem follows_rewrite (n : Node Tag) :
    (watch σ).Follows limit (rewriter.noting.rewrite n)
      ((rewriter.stoppingAt limit).noting.rewrite n) :=
  .bind (rewriter.follows_rewriteWithin limit n.height n) fun _ => .pure _

theorem simulates_rewrite_noting (n : Node Tag) :
    Rewriting.Simulates SameButNotes Eq (rewriter.noting.rewrite n) (rewriter.rewrite n) := by
  refine .bind (rewriter.simulates_rewriteWithin_noting n.height n) ?_
  rintro answer _ rfl
  exact .pure rfl

end Rewriter

/-! ## What comes of it -/

namespace Rewriting

/-- The calls that are noted down, in order, however the rewrite ends. -/
def calls (x : Rewriting (σ × Notes) β) (s : Session σ) : Notes :=
  (stateAfter (x s.unnoted)).memory.2

theorem dropNotes_eq_mapState (a : EStateM.Result Halt (Session (σ × Notes)) β) :
    dropNotes a = mapState (fun s => ⟨s.nextId, s.memory.1⟩) a := by
  cases a <;> rfl

/-- Where the calls of two rewrites are noted down and one follows the other until it is
stopped, the rewrites without notes come to the same until then. -/
theorem cutAt_of_follows [Inhabited β] {limit : Nat} (hlimit : 0 < limit)
    {whole : Rewriting σ β} {cut : Rewriting (σ × Nat) β} {noted : Rewriting (σ × Notes) β}
    {noted' : Rewriting ((σ × Nat) × Notes) β} (h : (watch σ).Follows limit noted noted')
    (hwhole : Simulates SameButNotes Eq noted whole) (hcut : Simulates SameButNotes Eq noted' cut)
    (s : Session σ) :
    CutAt limit Halt.stopped (noted.calls s) (noted'.calls (s.counted 0))
      (·.counted (noted.calls s).length) (whole s) (cut (s.counted 0)) := by
  have hdropped : dropNotes (noted s.unnoted) = whole s := dropNotes_eq (hwhole _ _ ⟨rfl, rfl⟩)
  have hdropped' : dropNotes (noted' (s.counted 0).unnoted) = cut (s.counted 0) :=
    dropNotes_eq (hcut _ _ ⟨rfl, rfl⟩)
  rw [← hdropped, ← hdropped', dropNotes_eq_mapState, dropNotes_eq_mapState]
  exact (h.cuts s.unnoted hlimit).cutAt rfl

end Rewriting

/-- Being stopped by a call ends a traversal behind that call and changes nothing before it,
be it a walk or a rewrite, of whatever height the rewrite may be. -/
theorem traversals_stoppingAt {limit : Nat} (hlimit : 0 < limit) :
    (∀ (α σ : Type) (walker : Walker α σ) (n : Node α) (s : σ),
      CutAt limit Stopped.stopped (walker.calls n s) ((walker.stoppingAt limit).calls n (s, 0))
        (·, (walker.calls n s).length)
        (walker.walk n s) ((walker.stoppingAt limit).walk n (s, 0))) ∧
    ∀ (σ : Type) (rewriter : Rewriter σ) (n : Node Tag) (s : Session σ),
      (∀ height,
        let calls := (rewriter.noting.rewriteWithin height n).calls s
        CutAt limit Halt.stopped calls
          (((rewriter.stoppingAt limit).noting.rewriteWithin height n).calls (s.counted 0))
          (·.counted calls.length) (rewriter.rewriteWithin height n s)
          ((rewriter.stoppingAt limit).rewriteWithin height n (s.counted 0))) ∧
      let calls := (rewriter.noting.rewrite n).calls s
      CutAt limit Halt.stopped calls
        (((rewriter.stoppingAt limit).noting.rewrite n).calls (s.counted 0))
        (·.counted calls.length) (rewriter.rewrite n s)
        ((rewriter.stoppingAt limit).rewrite n (s.counted 0)) := by
  refine ⟨fun α σ walker n s => walker.cutAt_walk hlimit n s, fun σ rewriter n s => ⟨?_, ?_⟩⟩
  · intro height
    exact Rewriting.cutAt_of_follows hlimit (rewriter.follows_rewriteWithin limit height n)
      (rewriter.simulates_rewriteWithin_noting height n)
      ((rewriter.stoppingAt limit).simulates_rewriteWithin_noting height n) s
  · exact Rewriting.cutAt_of_follows hlimit (rewriter.follows_rewrite limit n)
      (rewriter.simulates_rewrite_noting n)
      ((rewriter.stoppingAt limit).simulates_rewrite_noting n) s

/-- Of a list of two numbers, the first one is deleted, and being stopped then leaves
nothing of the list; a walk is stopped before it comes to the name of a field; and a
rewrite that is over before it is to be stopped is not stopped. -/
theorem traversals_stoppingAt_third :
    let twoNumbers : Node Tag :=
      .listValue ⟨[.int ⟨"1", 1, none⟩, .int ⟨"2", 2, none⟩], 0, none⟩
    let start : Session Bool := ⟨3, false⟩
    let dropping := Rewriter.droppingFirst
    0 < 3 ∧
      ((dropping.stoppingAt 3).noting.rewrite twoNumbers).calls (start.counted 0) =
        [(.enter, twoNumbers), (.enter, .intValue ⟨"1", 1, none⟩),
          (.leave, .intValue ⟨"1", 1, none⟩)] ∧
      resultOrDefault ((dropping.stoppingAt 3).rewrite twoNumbers (start.counted 0)) = none ∧
      (Walker.counting.stoppingAt 3).calls Node.bareField (0, 0) =
        [(.enter, Node.bareField), (.enter, Node.bareName), (.leave, Node.bareName)] ∧
      (dropping.stoppingAt 7).rewrite twoNumbers (start.counted 0) =
        .ok (some (.listValue ⟨[.int ⟨"0", 3, none⟩], 4, none⟩)) ⟨5, true, 6⟩ := by
  intro twoNumbers start dropping
  have hcalls : ((dropping.noting.rewrite twoNumbers).calls start).length = 6 := by decide +kernel
  have hfirst : ((dropping.noting.rewrite twoNumbers).calls start).take 3 =
      [(.enter, twoNumbers), (.enter, .intValue ⟨"1", 1, none⟩),
        (.leave, .intValue ⟨"1", 1, none⟩)] := by
    decide +kernel
  have hthird : 0 < 3 := by decide
  have hseventh : 0 < 7 := by decide
  obtain ⟨hcut, -, hdefault⟩ :=
    ((traversals_stoppingAt hthird).2 Bool dropping twoNumbers start).2.of_le (by
      rw [hcalls]
      decide)
  obtain ⟨hwalk, -, -⟩ :=
    ((traversals_stoppingAt hthird).1 Tag Nat Walker.counting Node.bareField 0).of_le
      (by decide +kernel)
  obtain ⟨-, hsame⟩ :=
    ((traversals_stoppingAt hseventh).2 Bool dropping twoNumbers start).2.of_lt (by
      rw [hcalls]
      decide)
  refine ⟨hthird, hcut.trans hfirst, hdefault, hwalk.trans (by decide +kernel), hsame.trans ?_⟩
  rw [hcalls]
  decide +kernel

end GraphQLSyntax
