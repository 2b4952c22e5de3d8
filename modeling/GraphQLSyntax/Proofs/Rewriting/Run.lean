import GraphQLSyntax.Proofs.Rewriting.Lists
import GraphQLSyntax.Proofs.Rewriting.Rebuilding

/-!
# Runs of a rewriter

A run records what happens while one occurrence of a node is rewritten: the call made
when it is entered, the runs for the children of what comes of that, slot by slot, and
the call made when the node with the rewritten children is left.  `runWithin` rewrites
a tree and takes down its run; what it comes to is what `rewriteWithin` comes to.
-/

namespace GraphQLSyntax

/-! ## Steps that are not halted -/

namespace Rewriting

variable {σ β γ : Type}

theorem bind_eq_ok {x : Rewriting σ β} {f : β → Rewriting σ γ} {s s' : Session σ} {c : γ} :
    (x >>= f) s = .ok c s' ↔ ∃ b t, x s = .ok b t ∧ f b t = .ok c s' := by
  simp only [bind, EStateM.bind]
  cases x s with
  | ok b t => simp
  | error e t => simp

theorem pure_eq_ok {b c : β} {s s' : Session σ} :
    (pure b : Rewriting σ β) s = .ok c s' ↔ b = c ∧ s = s' := by
  simp [pure, EStateM.pure]

theorem get_eq_ok {s s' t : Session σ} :
    (get : Rewriting σ (Session σ)) s = .ok t s' ↔ s = t ∧ s = s' := by
  show EStateM.Result.ok s s = .ok t s' ↔ _
  simp

end Rewriting

/-! ## What is taken down -/

/-- A call for a node: the node that was given, the answer, and the first unused
identities before and after the call. -/
structure Call where
  given : Node Tag
  answer : Option (Node Tag)
  before : Nat
  after : Nat

/-- The very node that was given stays in its place. -/
def Call.Keeps (call : Call) : Prop :=
  call.answer = some call.given

/-- A node of the answer that is new has an identity that was unused before the call and
is used up after it. -/
structure Call.Allocates (call : Call) : Prop where
  before_le : call.before ≤ call.after
  idBound_le : ∀ m, call.answer = some m → m.idBound ≤ call.after

/-- What happens while an occurrence of a node is rewritten.  There is no call on leaving
if the node was deleted before that. -/
structure Run where
  enter : Call
  slots : List (List Run)
  leave : Option Call

namespace Run

/-- The node that is rewritten. -/
def given (run : Run) : Node Tag :=
  run.enter.given

/-- What stands in the place of the node afterwards, if anything does. -/
def result (run : Run) : Option (Node Tag) :=
  run.leave.bind Call.answer

/-- The runs for the children of what came of entering the node, in order. -/
def children (run : Run) : List Run :=
  run.slots.flatten

/-- What comes of the nodes of a slot. -/
def results (runs : List Run) : List (Node Tag) :=
  runs.filterMap result

/-- What comes of the nodes of a slot, as an entry of a replacement. -/
def replacement (runs : List Run) : Option (List (Node Tag)) :=
  if ∀ run ∈ runs, run.result = some run.given then none else some (results runs)

/-- The call for the node in one of the two phases. -/
def call (run : Run) : Phase → Option Call
  | .enter => some run.enter
  | .leave => run.leave

/-- The run for the occurrence that is reached by going down from child to child. -/
def at? : Run → List Nat → Option Run
  | run, [] => some run
  | run, i :: path => run.children[i]?.bind fun child => child.at? path

/-- The call that is made for an occurrence in one of the two phases. -/
def call? (run : Run) (path : List Nat) (phase : Phase) : Option Call :=
  (run.at? path).bind fun occurrence => occurrence.call phase

end Run

namespace Rewriting

variable {σ : Type}

/-- Asks about a node and takes down the call. -/
def observe (hook : (n : Node Tag) → Rewriting σ (Option n.Substitute)) (n : Node Tag) :
    Rewriting σ Call := do
  let start ← get
  let answer ← hook n
  let stop ← get
  return ⟨n, answer.map Subtype.val, start.nextId, stop.nextId⟩

/-- Takes down the runs for the children in the slots of a node, as far as they go, and
whether no slot that needs a child has lost its last one. -/
def runSlots (item : Node Tag → Rewriting σ Run) :
    List (Slot Tag) → Rewriting σ (List (List Run) × Bool)
  | [] => pure ([], true)
  | slot :: rest => do
    let runs ← slot.nodes.mapM item
    if slot.arity.isNeeded && Run.replacement runs = some [] then return ([runs], false)
    else
      let (others, complete) ← runSlots item rest
      return (runs :: others, complete)

end Rewriting

/-- Rewrites a tree of at most the given height and takes down the run. -/
def Rewriter.runWithin {σ : Type} (rewriter : Rewriter σ) : Nat → Node Tag → Rewriting σ Run
  | 0, _ => throw .tooDeep
  | height + 1, n => do
    let entering ← Rewriting.observe rewriter.enter n
    match entering.answer with
    | none => return ⟨entering, [], none⟩
    | some entered =>
      let (slots, complete) ←
        Rewriting.runSlots (rewriter.runWithin height) entered.slots
      if complete then
        let updated ← Rewriting.update entered (slots.map Run.replacement)
        return ⟨entering, slots, some (← Rewriting.observe rewriter.leave updated.1)⟩
      else return ⟨entering, slots, none⟩

namespace Run

theorem results_eq_map_given {runs : List Run} (h : ∀ run ∈ runs, run.result = some run.given) :
    results runs = runs.map given := by
  induction runs with
  | nil => rfl
  | cons run runs ih =>
    rw [results, List.filterMap_cons_some (h run List.mem_cons_self), List.map_cons,
      ← ih fun r hr => h r (List.mem_cons_of_mem _ hr)]
    rfl

/-- Of the runs for a slot, the entry takes only what was given and what came of it. -/
theorem replacement_eq_entryFor (runs : List Run) :
    replacement runs = Rewriting.entryFor (runs.map given) (runs.map result) := by
  simp [replacement, Rewriting.entryFor, results, List.reduceOption, List.filterMap_map,
    List.map_inj_left]

/-- An entry that says nothing stands for the nodes that are there. -/
theorem getD_replacement (runs : List Run) :
    (replacement runs).getD (runs.map given) = results runs := by
  rw [replacement_eq_entryFor, Rewriting.getD_entryFor, List.reduceOption, List.filterMap_map]
  rfl

theorem replacement_cons (run : Run) (runs : List Run) :
    replacement (run :: runs) =
      if run.result = some run.given then (replacement runs).map (run.given :: ·)
      else some (run.result.toList ++ (replacement runs).getD (runs.map given)) := by
  simp only [replacement_eq_entryFor, List.map_cons, Rewriting.entryFor_cons]

end Run

/-! ## Recording changes nothing -/

namespace Rewriting

variable {σ : Type}

theorem observe_eq_ok {hook : (n : Node Tag) → Rewriting σ (Option n.Substitute)}
    {n : Node Tag} {s s' : Session σ} {call : Call} :
    observe hook n s = .ok call s' ↔
      ∃ answer, hook n s = .ok answer s' ∧
        ⟨n, answer.map Subtype.val, s.nextId, s'.nextId⟩ = call := by
  simp only [observe, bind_eq_ok, get_eq_ok, pure_eq_ok]
  constructor
  · rintro ⟨_, _, ⟨rfl, rfl⟩, answer, _, hanswer, _, _, ⟨rfl, rfl⟩, rfl, rfl⟩
    exact ⟨answer, hanswer, rfl⟩
  · rintro ⟨answer, hanswer, rfl⟩
    exact ⟨_, _, ⟨rfl, rfl⟩, answer, _, hanswer, _, _, ⟨rfl, rfl⟩, rfl, rfl⟩

theorem given_of_observe {hook : (n : Node Tag) → Rewriting σ (Option n.Substitute)}
    {n : Node Tag} {s s' : Session σ} {call : Call} (h : observe hook n s = .ok call s') :
    call.given = n := by
  obtain ⟨answer, -, rfl⟩ := observe_eq_ok.1 h
  rfl

theorem kind_of_observe {hook : (n : Node Tag) → Rewriting σ (Option n.Substitute)}
    {n m : Node Tag} {s s' : Session σ} {call : Call} (h : observe hook n s = .ok call s')
    (hanswer : call.answer = some m) : m.kind = n.kind := by
  obtain ⟨answer, -, rfl⟩ := observe_eq_ok.1 h
  obtain ⟨m, -, rfl⟩ := Option.map_eq_some_iff.1 hanswer
  exact m.2

variable {item : Node Tag → Rewriting σ (Option (Node Tag))} {trace : Node Tag → Rewriting σ Run}

theorem given_of_mapM (hgiven : ∀ x s run s', trace x s = .ok run s' → run.given = x)
    {xs : List (Node Tag)} {s s' : Session σ} {runs : List Run}
    (h : xs.mapM trace s = .ok runs s') : runs.map Run.given = xs := by
  induction xs generalizing s s' runs with
  | nil =>
    obtain ⟨rfl, -⟩ := pure_eq_ok.1 h
    rfl
  | cons x xs ih =>
    simp only [List.mapM_cons, bind_eq_ok, pure_eq_ok] at h
    obtain ⟨run, t, hrun, runs, t', hruns, rfl, rfl⟩ := h
    rw [List.map_cons, hgiven _ _ _ _ hrun, ih hruns]

theorem list_eq_ok
    (hitem : ∀ x s o s', item x s = .ok o s' ↔ ∃ run, trace x s = .ok run s' ∧ run.result = o)
    (hgiven : ∀ x s run s', trace x s = .ok run s' → run.given = x)
    {xs : List (Node Tag)} {s s' : Session σ} {new : Option (List (Node Tag))} :
    list item xs s = .ok new s' ↔
      ∃ runs, xs.mapM trace s = .ok runs s' ∧ Run.replacement runs = new := by
  induction xs generalizing s s' new with
  | nil => simp [list, Run.replacement, pure_eq_ok, and_comm]
  | cons x xs ih =>
    simp only [list, List.mapM_cons, bind_eq_ok, hitem, ih, ← apply_ite pure, pure_eq_ok]
    constructor
    · rintro ⟨_, t, ⟨run, hrun, rfl⟩, _, t', ⟨runs, hruns, rfl⟩, rfl, rfl⟩
      refine ⟨run :: runs, ⟨run, t, hrun, runs, t', hruns, rfl, rfl⟩, ?_⟩
      rw [Run.replacement_cons, hgiven _ _ _ _ hrun, given_of_mapM hgiven hruns]
    · rintro ⟨_, ⟨run, t, hrun, runs, t', hruns, rfl, rfl⟩, rfl⟩
      refine ⟨_, t, ⟨run, hrun, rfl⟩, _, t', ⟨runs, hruns, rfl⟩, ?_, rfl⟩
      rw [Run.replacement_cons, hgiven _ _ _ _ hrun, given_of_mapM hgiven hruns]

theorem slots_eq_ok
    (hitem : ∀ x s o s', item x s = .ok o s' ↔ ∃ run, trace x s = .ok run s' ∧ run.result = o)
    (hgiven : ∀ x s run s', trace x s = .ok run s' → run.given = x)
    {slots : List (Slot Tag)} {s s' : Session σ} {new : Option Node.Replacement} :
    Rewriting.slots item slots s = .ok new s' ↔
      ∃ runs complete, runSlots trace slots s = .ok (runs, complete) s' ∧
        (if complete then some (runs.map Run.replacement) else none) = new := by
  induction slots generalizing s s' new with
  | nil => simp [Rewriting.slots, runSlots, pure_eq_ok, and_comm]
  | cons slot rest ih =>
    simp only [Rewriting.slots, runSlots, bind_eq_ok, list_eq_ok hitem hgiven]
    constructor
    · rintro ⟨_, t, ⟨runs, hruns, rfl⟩, h⟩
      split at h
      case isTrue hlost =>
        obtain ⟨rfl, rfl⟩ := pure_eq_ok.1 h
        refine ⟨[runs], false, ⟨runs, t, hruns, ?_⟩, rfl⟩
        rw [if_pos hlost]
        rfl
      case isFalse hlost =>
        obtain ⟨_, t', hrest, h⟩ := bind_eq_ok.1 h
        obtain ⟨rfl, rfl⟩ := pure_eq_ok.1 h
        obtain ⟨others, complete, hothers, rfl⟩ := ih.1 hrest
        refine ⟨runs :: others, complete, ⟨runs, t, hruns, ?_⟩, by cases complete <;> rfl⟩
        rw [if_neg hlost]
        exact bind_eq_ok.2 ⟨_, _, hothers, rfl⟩
    · rintro ⟨_, _, ⟨runs, t, hruns, h⟩, rfl⟩
      refine ⟨_, t, ⟨runs, hruns, rfl⟩, ?_⟩
      split at h
      case isTrue hlost =>
        obtain ⟨heq, rfl⟩ := pure_eq_ok.1 h
        cases heq
        rw [if_pos hlost]
        rfl
      case isFalse hlost =>
        obtain ⟨⟨others, complete⟩, t', hothers, h⟩ := bind_eq_ok.1 h
        obtain ⟨heq, rfl⟩ := pure_eq_ok.1 h
        cases heq
        rw [if_neg hlost]
        refine bind_eq_ok.2 ⟨_, _, ih.2 ⟨others, complete, hothers, rfl⟩, ?_⟩
        cases complete <;> rfl

/-- If a slot has not lost what it needs, the runs for the others come after those for it. -/
theorem runSlots_cons {item : Node Tag → Rewriting σ Run} {slot : Slot Tag}
    {rest : List (Slot Tag)} {runs : List Run} {others : List (List Run)} {complete : Bool}
    {s t s' : Session σ} (hruns : slot.nodes.mapM item s = .ok runs t)
    (hkept : ¬ (slot.arity.isNeeded && Run.replacement runs = some []) = true)
    (hrest : runSlots item rest t = .ok (others, complete) s') :
    runSlots item (slot :: rest) s = .ok (runs :: others, complete) s' := by
  refine bind_eq_ok.2 ⟨_, _, hruns, ?_⟩
  rw [if_neg hkept]
  exact bind_eq_ok.2 ⟨_, _, hrest, rfl⟩

theorem update_eq_ok {n : Node Tag} {new : Node.Replacement} {m : n.Substitute}
    {s s' : Session σ} :
    update n new s = .ok m s' ↔
      ⟨(n.update new s.nextId).1, n.kind_update new s.nextId⟩ = m ∧
        { s with nextId := (n.update new s.nextId).2 } = s' := by
  show EStateM.Result.ok (_ : n.Substitute) _ = .ok m s' ↔ _
  simp

end Rewriting

namespace Rewriter

variable {σ : Type} {rewriter : Rewriter σ} {height : Nat} {n : Node Tag} {s s' : Session σ}
  {run : Run}

open Rewriting

/-- The ways in which a node is rewritten, given how its children are rewritten. -/
inductive Step (rewriter : Rewriter σ) (trace : Node Tag → Rewriting σ Run) (n : Node Tag)
    (s : Session σ) : Run → Session σ → Prop
  | deleted {entering : Call} {s' : Session σ}
      (hentering : observe rewriter.enter n s = .ok entering s')
      (hanswer : entering.answer = none) : Step rewriter trace n s ⟨entering, [], none⟩ s'
  | emptied {entering : Call} {entered : Node Tag} {slots : List (List Run)}
      {t s' : Session σ} (hentering : observe rewriter.enter n s = .ok entering t)
      (hanswer : entering.answer = some entered)
      (hslots : runSlots trace entered.slots t = .ok (slots, false) s') :
      Step rewriter trace n s ⟨entering, slots, none⟩ s'
  | left {entering leaving : Call} {entered : Node Tag} {slots : List (List Run)}
      {t t' s' : Session σ} (hentering : observe rewriter.enter n s = .ok entering t)
      (hanswer : entering.answer = some entered)
      (hslots : runSlots trace entered.slots t = .ok (slots, true) t')
      (hleaving : observe rewriter.leave
        (entered.update (slots.map Run.replacement) t'.nextId).1
        { t' with nextId := (entered.update (slots.map Run.replacement) t'.nextId).2 } =
          .ok leaving s') :
      Step rewriter trace n s ⟨entering, slots, some leaving⟩ s'

theorem runWithin_succ_eq_ok :
    rewriter.runWithin (height + 1) n s = .ok run s' ↔
      rewriter.Step (rewriter.runWithin height) n s run s' := by
  constructor
  · intro h
    obtain ⟨entering, t, hentering, h⟩ := bind_eq_ok.1 h
    cases hanswer : entering.answer with
    | none =>
      simp only [hanswer] at h
      obtain ⟨rfl, rfl⟩ := pure_eq_ok.1 h
      exact .deleted hentering hanswer
    | some entered =>
      simp only [hanswer] at h
      obtain ⟨⟨slots, complete⟩, t', hslots, h⟩ := bind_eq_ok.1 h
      cases complete with
      | false =>
        obtain ⟨rfl, rfl⟩ := pure_eq_ok.1 h
        exact .emptied hentering hanswer hslots
      | true =>
        obtain ⟨updated, t, hupdated, h⟩ := bind_eq_ok.1 h
        obtain ⟨rfl, rfl⟩ := update_eq_ok.1 hupdated
        obtain ⟨leaving, t, hleaving, h⟩ := bind_eq_ok.1 h
        obtain ⟨rfl, rfl⟩ := pure_eq_ok.1 h
        exact .left hentering hanswer hslots hleaving
  · intro h
    cases h with
    | deleted hentering hanswer =>
      refine bind_eq_ok.2 ⟨_, _, hentering, ?_⟩
      simp only [hanswer]
      rfl
    | emptied hentering hanswer hslots =>
      refine bind_eq_ok.2 ⟨_, _, hentering, ?_⟩
      simp only [hanswer]
      exact bind_eq_ok.2 ⟨_, _, hslots, rfl⟩
    | left hentering hanswer hslots hleaving =>
      refine bind_eq_ok.2 ⟨_, _, hentering, ?_⟩
      simp only [hanswer]
      exact bind_eq_ok.2 ⟨_, _, hslots,
        bind_eq_ok.2 ⟨_, _, update_eq_ok.2 ⟨rfl, rfl⟩, bind_eq_ok.2 ⟨_, _, hleaving, rfl⟩⟩⟩

theorem step_of_runWithin (h : rewriter.runWithin height n s = .ok run s') :
    ∃ lower, height = lower + 1 ∧ rewriter.Step (rewriter.runWithin lower) n s run s' := by
  cases height with
  | zero => cases h
  | succ lower => exact ⟨lower, rfl, runWithin_succ_eq_ok.1 h⟩

theorem given_of_runWithin (h : rewriter.runWithin height n s = .ok run s') :
    run.given = n := by
  obtain ⟨lower, -, hstep⟩ := step_of_runWithin h
  cases hstep with
  | deleted hentering => exact given_of_observe hentering
  | emptied hentering => exact given_of_observe hentering
  | left hentering => exact given_of_observe hentering

/-- A node is only ever replaced by nodes of its own kind. -/
theorem kind_of_runWithin (h : rewriter.runWithin height n s = .ok run s') {m : Node Tag}
    (hresult : run.result = some m) : m.kind = n.kind := by
  obtain ⟨lower, -, hstep⟩ := step_of_runWithin h
  cases hstep with
  | deleted => cases hresult
  | emptied => cases hresult
  | left hentering hanswer _ hleaving =>
    rw [kind_of_observe hleaving hresult, Node.kind_update, kind_of_observe hentering hanswer]

theorem exists_substitute (h : rewriter.runWithin height n s = .ok run s') :
    ∃ result : Option n.Substitute, run.result = result.map Subtype.val := by
  cases hresult : run.result with
  | none => exact ⟨none, rfl⟩
  | some m => exact ⟨some ⟨m, kind_of_runWithin h hresult⟩, rfl⟩

section

variable (hlower : ∀ {n : Node Tag} {result : Option n.Substitute} {s s' : Session σ},
  rewriter.rewriteWithin height n s = .ok result s' ↔
    ∃ run, rewriter.runWithin height n s = .ok run s' ∧ run.result = result.map Subtype.val)
include hlower

theorem child_eq_ok (x : Node Tag) (s : Session σ) (o : Option (Node Tag)) (s' : Session σ) :
    (do return (← rewriter.rewriteWithin height x).map Subtype.val : Rewriting σ _) s =
      .ok o s' ↔ ∃ run, rewriter.runWithin height x s = .ok run s' ∧ run.result = o := by
  simp only [bind_eq_ok, pure_eq_ok]
  constructor
  · rintro ⟨result, t, hresult, rfl, rfl⟩
    exact hlower.1 hresult
  · rintro ⟨run, hrun, rfl⟩
    obtain ⟨result, hresult⟩ := exists_substitute hrun
    exact ⟨result, s', hlower.2 ⟨run, hrun, hresult⟩, hresult.symm, rfl⟩

theorem exists_step_of_rewriteWithin {result : Option n.Substitute}
    (h : rewriter.rewriteWithin (height + 1) n s = .ok result s') :
    ∃ run, rewriter.Step (rewriter.runWithin height) n s run s' ∧
      run.result = result.map Subtype.val := by
  obtain ⟨answer, t, hanswer, h⟩ := bind_eq_ok.1 h
  have hentering := observe_eq_ok.2 ⟨answer, hanswer, rfl⟩
  cases answer with
  | none =>
    obtain ⟨rfl, rfl⟩ := pure_eq_ok.1 h
    exact ⟨_, .deleted hentering rfl, rfl⟩
  | some entered =>
    obtain ⟨new, t', hnew, h⟩ := bind_eq_ok.1 h
    obtain ⟨slots, complete, hslots, rfl⟩ :=
      (slots_eq_ok (child_eq_ok hlower) fun _ _ _ _ => given_of_runWithin).1 hnew
    cases complete with
    | false =>
      obtain ⟨rfl, rfl⟩ := pure_eq_ok.1 h
      exact ⟨_, .emptied hentering rfl hslots, rfl⟩
    | true =>
      obtain ⟨updated, u, hupdated, h⟩ := bind_eq_ok.1 h
      obtain ⟨rfl, rfl⟩ := update_eq_ok.1 hupdated
      obtain ⟨answer, u', hanswer, h⟩ := bind_eq_ok.1 h
      have hleaving := observe_eq_ok.2 ⟨answer, hanswer, rfl⟩
      cases answer with
      | none =>
        obtain ⟨rfl, rfl⟩ := pure_eq_ok.1 h
        exact ⟨_, .left hentering rfl hslots hleaving, rfl⟩
      | some left =>
        obtain ⟨rfl, rfl⟩ := pure_eq_ok.1 h
        exact ⟨_, .left hentering rfl hslots hleaving, rfl⟩

theorem rewriteWithin_of_step {result : Option n.Substitute}
    (h : rewriter.Step (rewriter.runWithin height) n s run s')
    (hresult : run.result = result.map Subtype.val) :
    rewriter.rewriteWithin (height + 1) n s = .ok result s' := by
  cases h with
  | deleted hentering hanswer =>
    obtain ⟨answer, hcall, rfl⟩ := observe_eq_ok.1 hentering
    obtain rfl := Option.map_eq_none_iff.1 hanswer
    obtain rfl := Option.map_eq_none_iff.1 hresult.symm
    exact bind_eq_ok.2 ⟨_, _, hcall, rfl⟩
  | emptied hentering hanswer hslots =>
    obtain ⟨answer, hcall, rfl⟩ := observe_eq_ok.1 hentering
    obtain ⟨entered, rfl, rfl⟩ := Option.map_eq_some_iff.1 hanswer
    obtain rfl := Option.map_eq_none_iff.1 hresult.symm
    have hnew :=
      (slots_eq_ok (child_eq_ok hlower) fun _ _ _ _ => given_of_runWithin).2 ⟨_, _, hslots, rfl⟩
    exact bind_eq_ok.2 ⟨_, _, hcall, bind_eq_ok.2 ⟨_, _, hnew, rfl⟩⟩
  | left hentering hanswer hslots hleaving =>
    obtain ⟨answer, hcall, rfl⟩ := observe_eq_ok.1 hentering
    obtain ⟨entered, rfl, rfl⟩ := Option.map_eq_some_iff.1 hanswer
    have hnew :=
      (slots_eq_ok (child_eq_ok hlower) fun _ _ _ _ => given_of_runWithin).2 ⟨_, _, hslots, rfl⟩
    obtain ⟨left, hleft, rfl⟩ := observe_eq_ok.1 hleaving
    refine bind_eq_ok.2 ⟨_, _, hcall, bind_eq_ok.2 ⟨_, _, hnew,
      bind_eq_ok.2 ⟨_, _, update_eq_ok.2 ⟨rfl, rfl⟩, bind_eq_ok.2 ⟨_, _, hleft, ?_⟩⟩⟩⟩
    cases left with
    | none =>
      obtain rfl := Option.map_eq_none_iff.1 hresult.symm
      rfl
    | some left =>
      obtain ⟨⟨m, hkind⟩, rfl, hm⟩ := Option.map_eq_some_iff.1 hresult.symm
      obtain rfl : m = left.1 := hm
      rfl

end

/-- What a tree is rewritten to is what its run results in. -/
theorem rewriteWithin_eq_ok {result : Option n.Substitute} :
    rewriter.rewriteWithin height n s = .ok result s' ↔
      ∃ run, rewriter.runWithin height n s = .ok run s' ∧
        run.result = result.map Subtype.val := by
  induction height generalizing n s s' with
  | zero => exact ⟨fun h => (by cases h), fun ⟨_, h, _⟩ => (by cases h)⟩
  | succ height ih =>
    simp only [runWithin_succ_eq_ok]
    exact ⟨exists_step_of_rewriteWithin ih, fun ⟨_, h, hresult⟩ =>
      rewriteWithin_of_step ih h hresult⟩

end Rewriter

end GraphQLSyntax
