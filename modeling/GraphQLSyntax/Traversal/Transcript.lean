import GraphQLSyntax.Traversal.Walk

/-!
# Transcripts of traversals

A transcript has a line for every call of a traversal, which names the phase, the
kind and the label of the node.  Taking down a transcript may end with a certain
number of lines or at a certain node.
-/

namespace GraphQLSyntax

variable {α : Type}

/-- The line for a node in a transcript. -/
def Node.transcriptLine (phase : Phase) (n : Node α) : String :=
  phase.description ++ " " ++ n.kind.description ++ " " ++ n.label

/-- A description of calls: a phase, a kind and perhaps a label. -/
structure Site where
  phase : Phase
  kind : NodeKind
  label : Option String := none
deriving DecidableEq, Repr, Inhabited

/-- The call for a node is one of those described. -/
def Site.covers (site : Site) (phase : Phase) (n : Node α) : Bool :=
  site.phase == phase && site.kind == n.kind &&
    site.label.all fun label => label == n.label

/-- Lines taken down, the latest first. -/
abbrev Transcript := List String

namespace Transcript

/-- Adds the line for a node, then stops if that was the line with the number
`limit`, counted from one, or if the site covers the call. -/
def take (limit : Nat) (site : Option Site) (phase : Phase) (n : Node α) :
    Visit Transcript Unit := do
  modify fun lines => n.transcriptLine phase :: lines
  let lines ← get
  if lines.length = limit || site.any fun site => site.covers phase n then
    throw .stopped

/-- Takes down both phases. -/
def walker (limit : Nat) (site : Option Site) : Walker α Transcript where
  enter := take limit site .enter
  leave := take limit site .leave

/-- Takes down the leave calls only, and never stops. -/
def leaveWalker : Walker α Transcript where
  leave n := modify fun lines => n.transcriptLine .leave :: lines

/-- The lines of the transcript of a walk, in order, and whether the walk was
stopped. -/
def ofWalk (walker : Walker α Transcript) (n : Node α) : List String × Bool :=
  match walker.walk n [] with
  | .ok _ lines => (lines.reverse, false)
  | .error _ lines => (lines.reverse, true)

end Transcript

end GraphQLSyntax
