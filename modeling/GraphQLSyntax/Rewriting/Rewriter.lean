import GraphQLSyntax.Rewriting.Update
import GraphQLSyntax.Traversal.Walk

/-!
# Rewriting trees

A rewriter is asked about every node twice: when the node is entered, before its
children are rewritten, and when it is left, after that.  Each time it answers with
the node to have in its place, which is of the same kind, or deletes it.  The
children of what comes of entering are rewritten, slot by slot and in order, and the
node with the rewritten children is what is left; a node that has lost all children
of a slot that needs one is deleted without being left.

Nodes that nobody changes are not rebuilt: the result shares them with the tree that
was rewritten.
-/

namespace GraphQLSyntax

/-- Why a rewrite ends without a result. -/
inductive Halt
  /-- The rewriter has stopped it. -/
  | stopped
  /-- The rewriter has put trees in place of nodes that go down too far. -/
  | tooDeep
deriving DecidableEq, Repr, Inhabited

/-- The first unused identity, and what the rewriter remembers. -/
structure Session (σ : Type) where
  nextId : Nat
  memory : σ
deriving DecidableEq

/-- A step of a rewrite, which may create nodes, remember things and halt. -/
abbrev Rewriting (σ β : Type) := EStateM Halt (Session σ) β

/-- The nodes that may stand in the place of a node. -/
abbrev Node.Substitute (n : Node Tag) := { m : Node Tag // m.kind = n.kind }

/-- What is put in the place of a node when it is entered and when it is left: the
node itself unless it is said, and nothing if it is deleted. -/
structure Rewriter (σ : Type) where
  enter : (n : Node Tag) → Rewriting σ (Option n.Substitute) :=
    fun n => pure (some ⟨n, rfl⟩)
  leave : (n : Node Tag) → Rewriting σ (Option n.Substitute) :=
    fun n => pure (some ⟨n, rfl⟩)

namespace Rewriting

variable {σ : Type}

/-- Makes a node, given the first unused identity. -/
def create {β : Type} (make : Nat → β × Nat) : Rewriting σ β :=
  modifyGet fun session =>
    let (x, nextId) := make session.nextId
    (x, { session with nextId })

/-- Replaces the children of a node. -/
def update (n : Node Tag) (new : Node.Replacement) : Rewriting σ n.Substitute :=
  create fun nextId => (⟨(n.update new nextId).1, n.kind_update new nextId⟩,
    (n.update new nextId).2)

/-- Rewrites the items of a list, in order: none if each came back as it was, and
otherwise those that were not deleted. -/
def list (item : Node Tag → Rewriting σ (Option (Node Tag))) :
    List (Node Tag) → Rewriting σ (Option (List (Node Tag)))
  | [] => pure none
  | x :: xs => do
    let y ← item x
    let ys ← list item xs
    if y = some x then return ys.map (x :: ·)
    else return some (y.toList ++ ys.getD xs)

/-- Rewrites the children in the slots of a node: none as soon as a slot that needs a
child has lost its last one. -/
def slots (item : Node Tag → Rewriting σ (Option (Node Tag))) :
    List (Slot Tag) → Rewriting σ (Option Node.Replacement)
  | [] => pure (some [])
  | slot :: rest => do
    let new ← list item slot.nodes
    if slot.arity.isNeeded && new = some [] then return none
    else return (← slots item rest).map (new :: ·)

end Rewriting

namespace Rewriter

variable {σ : Type}

/-- Rewrites a tree of at most the given height. -/
def rewriteWithin (rewriter : Rewriter σ) :
    Nat → (n : Node Tag) → Rewriting σ (Option n.Substitute)
  | 0, _ => throw .tooDeep
  | height + 1, n => do
    match ← rewriter.enter n with
    | none => return none
    | some entered =>
      let item := fun c => return (← rewriter.rewriteWithin height c).map Subtype.val
      match ← Rewriting.slots item entered.1.slots with
      | none => return none
      | some new =>
        let updated ← Rewriting.update entered.1 new
        match ← rewriter.leave updated.1 with
        | none => return none
        | some left => return some ⟨left.1, left.2.trans (updated.2.trans entered.2)⟩

/-- Rewrites a tree.  What is put in the place of its nodes must not make it any
higher. -/
def rewrite (rewriter : Rewriter σ) (n : Node Tag) : Rewriting σ (Option (Node Tag)) :=
  return (← rewriter.rewriteWithin n.height n).map Subtype.val

end Rewriter

end GraphQLSyntax
