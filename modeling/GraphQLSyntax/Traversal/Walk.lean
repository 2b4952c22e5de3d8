import GraphQLSyntax.Tree.Order

/-!
# Walks

A walk enters every node of a tree before its children and leaves it after them.
What is done on these two occasions is up to a walker, which has a memory and may
stop the walk.
-/

namespace GraphQLSyntax

/-- The two occasions on which a traversal calls for a node. -/
inductive Phase
  | enter
  | leave
deriving DecidableEq, Repr, Inhabited

/-- What a phase is called. -/
def Phase.description : Phase → String
  | enter => "enter"
  | leave => "leave"

/-- The phase of the given name. -/
def Phase.ofDescription? (name : String) : Option Phase :=
  [enter, leave].find? fun phase => phase.description == name

/-- A traversal was stopped by what it called. -/
inductive Stopped
  | stopped
deriving DecidableEq, Repr, Inhabited

instance decidableEqResult {ε σ β : Type} [DecidableEq ε] [DecidableEq σ] [DecidableEq β] :
    DecidableEq (EStateM.Result ε σ β)
  | .ok x s, .ok y t => decidable_of_iff (x = y ∧ s = t) (by simp)
  | .ok .., .error .. => isFalse (by simp)
  | .error .., .ok .. => isFalse (by simp)
  | .error e s, .error f t => decidable_of_iff (e = f ∧ s = t) (by simp)

/-- What is done with a memory of type `σ` and may stop the traversal. -/
abbrev Visit (σ β : Type) := EStateM Stopped σ β

/-- The result that a traversal comes to, a traversal without one counting as one with the
default result. -/
def resultOrDefault {ε σ β : Type} [Inhabited β] : EStateM.Result ε σ β → β
  | .ok result _ => result
  | .error _ _ => default

/-- What is done when a node is entered and when it is left; nothing, unless it is
said. -/
structure Walker (α σ : Type) where
  enter : Node α → Visit σ Unit := fun _ => pure ()
  leave : Node α → Visit σ Unit := fun _ => pure ()

/-! ## The children that a walk comes to -/

namespace Walker

variable {α : Type} {β : Type → Type} [∀ α, SizeOf (β α)] [Part β]

/-- The one child that stands in a field. -/
def single (x : β α) : List (Node α) :=
  [Part.toNode x]

/-- The child that stands in a field, if there is one. -/
def optional : Option (β α) → List (Node α)
  | none => []
  | some x => [Part.toNode x]

/-- The children that stand in a list. -/
def each : List (β α) → List (Node α)
  | [] => []
  | x :: xs => Part.toNode x :: each xs

/-- The children of a node, in the order in which a walk comes to them.  This is written down for
walks alone: rewriters go by the slots of a node. -/
def childrenOf : Node α → List (Node α)
  | .name _ | .intValue _ | .floatValue _ | .stringValue _ | .booleanValue _ | .enumValue _ => []
  | .document x => each x.definitions
  | .operationDefinition x =>
    optional x.name ++ each x.variableDefinitions ++ each x.directives ++ single x.selectionSet
  | .variableDefinition x => single x.var ++ single x.type ++ optional x.defaultValue
  | .variableReference x => single x.name
  | .selectionSet x => each x.selections
  | .field x =>
    optional x.aliasName ++ single x.name ++ each x.arguments ++ each x.directives ++
      optional x.selectionSet
  | .argument x => single x.name ++ single x.value
  | .fragmentSpread x => single x.name ++ each x.directives
  | .inlineFragment x => single x.typeCondition ++ each x.directives ++ single x.selectionSet
  | .fragmentDefinition x =>
    single x.name ++ single x.typeCondition ++ each x.directives ++ single x.selectionSet
  | .listValue x => each x.values
  | .objectValue x => each x.fields
  | .objectField x => single x.name ++ single x.value
  | .directive x => single x.name ++ each x.arguments
  | .namedType x => single x.name
  | .listType x => single x.item
  | .nonNullType x => single x.inner
  | .schemaDocument x => each x.definitions
  | .typeDefinition x => single x.name ++ each x.interfaces ++ each x.fields
  | .fieldDefinition x => single x.name ++ each x.arguments ++ single x.type
  | .argumentDefinition x => single x.name ++ single x.type ++ optional x.defaultValue
  | .interfaceDefinition x => single x.name ++ each x.fields
  | .unionDefinition x => single x.name ++ each x.types
  | .scalarDefinition x => single x.name
  | .enumDefinition x => single x.name ++ each x.values
  | .enumValueDefinition x => single x.name
  | .inputObjectDefinition x => single x.name ++ each x.fields
  | .inputFieldDefinition x => single x.name ++ single x.type ++ optional x.defaultValue

theorem single_eq (x : β α) : single x = (Slot.one x).nodes :=
  rfl

theorem optional_eq (x : Option (β α)) : optional x = (Slot.optional x).nodes := by
  cases x <;> rfl

theorem each_eq (xs : List (β α)) : each xs = (Slot.many xs).nodes := by
  induction xs with
  | nil => rfl
  | cons x xs ih => simp [each, ih, Slot.many]

/-- A walk comes to the children of a node in the order of the slots they stand in. -/
theorem childrenOf_eq (n : Node α) : childrenOf n = n.children := by
  cases n <;>
    simp only [childrenOf, Node.children, Node.slots, List.flatMap_cons, List.flatMap_nil,
      List.append_nil, List.append_assoc] <;>
    simp only [single_eq, optional_eq, each_eq] <;> rfl

end Walker

namespace Walker

variable {α σ : Type}

/-- Walks through a tree. -/
def walk (walker : Walker α σ) (n : Node α) : Visit σ Unit := do
  walker.enter n
  (childrenOf n).attach.forM fun c => walker.walk c.1
  walker.leave n
termination_by sizeOf n
decreasing_by exact Node.sizeOf_lt_of_mem_children (childrenOf_eq n ▸ c.2)

theorem forM_attach {m : Type → Type} [Monad m] (xs : List α) (f : α → m Unit) :
    (xs.attach.forM fun x => f x.1) = xs.forM f := by
  conv => rhs; rw [← List.attach_map_subtype_val xs]
  generalize xs.attach = ys
  induction ys with
  | nil => rfl
  | cons y ys ih => simp only [List.map_cons, List.forM, ih]

theorem walk_eq (walker : Walker α σ) (n : Node α) :
    walker.walk n = (do
      walker.enter n
      n.children.forM walker.walk
      walker.leave n) := by
  rw [walk, forM_attach (childrenOf n) walker.walk, childrenOf_eq]

end Walker

end GraphQLSyntax
