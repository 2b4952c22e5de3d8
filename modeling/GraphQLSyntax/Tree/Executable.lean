import GraphQLSyntax.Tree.Value

/-!
# Executable documents

Operations and fragments, and the selections they are made of.
-/

namespace GraphQLSyntax

variable {α β : Type}

/-- A fragment in the place of a selection. -/
structure FragmentSpread (α : Type) where
  name : Name α
  directives : List (Directive α)
  tag : α

mutual

/-- Selections in braces. -/
structure SelectionSet (α : Type) where
  selections : List (Selection α)
  tag : α

/-- An entry of a selection set. -/
inductive Selection (α : Type)
  | field (x : Field α)
  | spread (x : FragmentSpread α)
  | inline (x : InlineFragment α)

/-- A field that is asked for, perhaps under another name and with a selection
of its own. -/
structure Field (α : Type) where
  aliasName : Option (Name α)
  name : Name α
  arguments : List (Argument α)
  directives : List (Directive α)
  selectionSet : Option (SelectionSet α)
  tag : α

/-- Selections that apply to a type only. -/
structure InlineFragment (α : Type) where
  typeCondition : NamedType α
  directives : List (Directive α)
  selectionSet : SelectionSet α
  tag : α

end

/-- A variable of an operation, its type and the value it has by default. -/
structure VariableDefinition (α : Type) where
  var : Variable α
  type : TypeRef α
  defaultValue : Option (Value α)
  tag : α

/-- What an operation does. -/
inductive OperationType
  | query
  | mutation
deriving DecidableEq, Repr, Inhabited

namespace OperationType

/-- The name that an operation begins with. -/
def keyword : OperationType → String
  | query => "query"
  | mutation => "mutation"

/-- The operation that a name begins. -/
def ofKeyword? (word : String) : Option OperationType :=
  if word = "query" then some query
  else if word = "mutation" then some mutation
  else none

end OperationType

/-- An operation.  A query without a name, variables and directives is written
as its selection set alone. -/
structure OperationDefinition (α : Type) where
  operation : OperationType
  name : Option (Name α)
  variableDefinitions : List (VariableDefinition α)
  directives : List (Directive α)
  selectionSet : SelectionSet α
  tag : α

/-- A fragment that spreads can name. -/
structure FragmentDefinition (α : Type) where
  name : Name α
  typeCondition : NamedType α
  directives : List (Directive α)
  selectionSet : SelectionSet α
  tag : α

/-- A definition of an executable document. -/
inductive Definition (α : Type)
  | operation (x : OperationDefinition α)
  | fragment (x : FragmentDefinition α)

/-- An executable document. -/
structure Document (α : Type) where
  definitions : List (Definition α)
  tag : α

/-! ## Changing tags -/

def FragmentSpread.map (f : α → β) (x : FragmentSpread α) : FragmentSpread β :=
  ⟨x.name.map f, x.directives.map (Directive.map f), f x.tag⟩

mutual

def SelectionSet.map (f : α → β) : SelectionSet α → SelectionSet β
  | ⟨selections, tag⟩ => ⟨Selection.mapAll f selections, f tag⟩
termination_by structural x => x

def Selection.mapAll (f : α → β) : List (Selection α) → List (Selection β)
  | [] => []
  | x :: xs => x.map f :: Selection.mapAll f xs
termination_by structural xs => xs

def Selection.map (f : α → β) : Selection α → Selection β
  | .field x => .field (x.map f)
  | .spread x => .spread (x.map f)
  | .inline x => .inline (x.map f)
termination_by structural x => x

def Field.map (f : α → β) : Field α → Field β
  | ⟨aliasName, name, arguments, directives, selectionSet, tag⟩ =>
    ⟨aliasName.map (Name.map f), name.map f, arguments.map (Argument.map f),
      directives.map (Directive.map f), SelectionSet.mapOption f selectionSet, f tag⟩
termination_by structural x => x

def SelectionSet.mapOption (f : α → β) : Option (SelectionSet α) → Option (SelectionSet β)
  | none => none
  | some x => some (x.map f)
termination_by structural x => x

def InlineFragment.map (f : α → β) : InlineFragment α → InlineFragment β
  | ⟨typeCondition, directives, selectionSet, tag⟩ =>
    ⟨typeCondition.map f, directives.map (Directive.map f), selectionSet.map f, f tag⟩
termination_by structural x => x

end

@[simp] theorem Selection.mapAll_eq_map (f : α → β) (xs : List (Selection α)) :
    Selection.mapAll f xs = xs.map (Selection.map f) := by
  induction xs with
  | nil => rfl
  | cons x xs ih => simp [Selection.mapAll, ih]

@[simp] theorem SelectionSet.mapOption_eq_map (f : α → β) (x : Option (SelectionSet α)) :
    SelectionSet.mapOption f x = x.map (SelectionSet.map f) := by
  cases x <;> rfl

def VariableDefinition.map (f : α → β) (x : VariableDefinition α) :
    VariableDefinition β :=
  ⟨x.var.map f, x.type.map f, x.defaultValue.map (Value.map f), f x.tag⟩

def OperationDefinition.map (f : α → β) (x : OperationDefinition α) :
    OperationDefinition β :=
  ⟨x.operation, x.name.map (Name.map f),
    x.variableDefinitions.map (VariableDefinition.map f),
    x.directives.map (Directive.map f), x.selectionSet.map f, f x.tag⟩

def FragmentDefinition.map (f : α → β) (x : FragmentDefinition α) :
    FragmentDefinition β :=
  ⟨x.name.map f, x.typeCondition.map f, x.directives.map (Directive.map f),
    x.selectionSet.map f, f x.tag⟩

def Definition.map (f : α → β) : Definition α → Definition β
  | .operation x => .operation (x.map f)
  | .fragment x => .fragment (x.map f)

def Document.map (f : α → β) (x : Document α) : Document β :=
  ⟨x.definitions.map (Definition.map f), f x.tag⟩

/-! ## Facts about fields -/

/-- The name under which the result of a field is found. -/
def Field.responseKey (x : Field α) : String :=
  (x.aliasName.getD x.name).value

end GraphQLSyntax
