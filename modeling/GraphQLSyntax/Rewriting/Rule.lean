import GraphQLSyntax.Rewriting.Edit
import GraphQLSyntax.Rewriting.Rewriter
import GraphQLSyntax.Traversal.Transcript

/-!
# Rewriting by rules

A rule says what becomes of certain nodes in one of the two phases of a rewrite.
Rules are looked at in order, and the first one that applies decides.  A rule can be
made to apply only once, to the node that it covers after having covered a given
number of others, so it counts the nodes it covers.
-/

namespace GraphQLSyntax

/-- What becomes of a node. -/
inductive Action
  | delete
  /-- The whole rewrite is stopped. -/
  | stop
  | edit (edit : Edit)
deriving DecidableEq, Repr, Inhabited

/-- What becomes of the nodes of a kind, or of any kind, perhaps only of those with
the given label, and perhaps only of the one with the given number among them,
counted from zero. -/
structure Rule where
  phase : Phase
  kind : Option NodeKind
  label : Option String := none
  nth : Option Nat := none
  action : Action
deriving DecidableEq, Repr, Inhabited

/-- The rule is about nodes like this one. -/
def Rule.covers {α : Type} (rule : Rule) (phase : Phase) (n : Node α) : Bool :=
  rule.phase == phase && rule.kind.all (· == n.kind) && rule.label.all (· == n.label)

/-- Rules, each with the number of nodes that it has covered. -/
abbrev RuleBook := List (Rule × Nat)

/-- The action of the first rule that applies to a node.  The rules up to that one
count the node if they cover it. -/
def RuleBook.decide {α : Type} (phase : Phase) (n : Node α) :
    RuleBook → Option Action × RuleBook
  | [] => (none, [])
  | (rule, count) :: rest =>
    if !rule.covers phase n then
      let (action, rest) := RuleBook.decide phase n rest
      (action, (rule, count) :: rest)
    else if rule.nth.all (· == count) then (some rule.action, (rule, count + 1) :: rest)
    else
      let (action, rest) := RuleBook.decide phase n rest
      (action, (rule, count + 1) :: rest)

/-- What a rewriter by rules remembers: its rules, and a transcript of what it was
asked. -/
structure RuleMemory where
  rules : RuleBook
  transcript : Transcript := []

namespace RuleMemory

/-- Answers about a node of one of the kinds that are looked at; any other node is
kept without mention. -/
def answer (looksAt : NodeKind → Bool) (phase : Phase) (n : Node Tag) :
    Rewriting RuleMemory (Option n.Substitute) := do
  if !looksAt n.kind then return some ⟨n, rfl⟩
  let action ← modifyGet fun session =>
    let (action, rules) := session.memory.rules.decide phase n
    let transcript := n.transcriptLine phase :: session.memory.transcript
    (action, { session with memory := { rules, transcript } })
  match action with
  | none => return some ⟨n, rfl⟩
  | some .delete => return none
  | some .stop => throw .stopped
  | some (.edit edit) =>
    let edited ← Rewriting.create fun nextId =>
      (⟨(edit.apply n nextId).1, edit.kind_apply n nextId⟩, (edit.apply n nextId).2)
    return some edited

/-- Looks at the nodes of certain kinds in both phases. -/
def rewriter (looksAt : NodeKind → Bool) : Rewriter RuleMemory where
  enter := answer looksAt .enter
  leave := answer looksAt .leave

end RuleMemory

/-- What a rewrite comes to. -/
inductive RewriteResult
  | stopped
  | deleted
  | rewritten (n : Node Tag)

/-- Rewrites a tree by rules that have not covered any node yet.  The second result
is the transcript, in order. -/
def Node.rewriteByRules (n : Node Tag) (rules : List Rule) (looksAt : NodeKind → Bool) :
    RewriteResult × List String :=
  let session : Session RuleMemory :=
    { nextId := n.idBound, memory := { rules := rules.map (·, 0) } }
  match (RuleMemory.rewriter looksAt).rewrite n session with
  | .ok none session => (.deleted, session.memory.transcript.reverse)
  | .ok (some m) session => (.rewritten m, session.memory.transcript.reverse)
  | .error _ session => (.stopped, session.memory.transcript.reverse)

/-- For each node of a tree, in order, the number of the place where it first stands
in an older tree, if it stands there. -/
def Node.sharedWith (n : Node Tag) (older : Node Tag) : List (Option Nat) :=
  let nodes := older.preorder
  n.preorder.map fun m => nodes.findIdx? (· == m)

end GraphQLSyntax
