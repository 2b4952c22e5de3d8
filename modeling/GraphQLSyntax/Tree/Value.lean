import GraphQLSyntax.Tree.Basic

/-!
# Values and what takes them

Values are literals, variables, and lists and objects of values.  Arguments and
directives carry them.
-/

namespace GraphQLSyntax

variable {α β : Type}

mutual

/-- A value: a literal, a variable, a list or an object. -/
inductive Value (α : Type)
  | var (x : Variable α)
  | int (x : Literal α)
  | float (x : Literal α)
  | string (x : Literal α)
  | boolean (x : BooleanValue α)
  | enum (x : Literal α)
  | list (x : ListValue α)
  | object (x : ObjectValue α)

/-- Values in brackets. -/
structure ListValue (α : Type) where
  values : List (Value α)
  tag : α

/-- Named values in braces. -/
structure ObjectValue (α : Type) where
  fields : List (ObjectField α)
  tag : α

/-- A field of an object value. -/
structure ObjectField (α : Type) where
  name : Name α
  value : Value α
  tag : α

end

/-- A named value passed to a field or a directive. -/
structure Argument (α : Type) where
  name : Name α
  value : Value α
  tag : α

/-- A directive, written after an at sign. -/
structure Directive (α : Type) where
  name : Name α
  arguments : List (Argument α)
  tag : α

/-! ## Changing tags -/

mutual

def Value.map (f : α → β) : Value α → Value β
  | .var x => .var (x.map f)
  | .int x => .int (x.map f)
  | .float x => .float (x.map f)
  | .string x => .string (x.map f)
  | .boolean x => .boolean (x.map f)
  | .enum x => .enum (x.map f)
  | .list x => .list (x.map f)
  | .object x => .object (x.map f)
termination_by structural x => x

def ListValue.map (f : α → β) : ListValue α → ListValue β
  | ⟨values, tag⟩ => ⟨Value.mapAll f values, f tag⟩
termination_by structural x => x

def Value.mapAll (f : α → β) : List (Value α) → List (Value β)
  | [] => []
  | x :: xs => x.map f :: Value.mapAll f xs
termination_by structural xs => xs

def ObjectValue.map (f : α → β) : ObjectValue α → ObjectValue β
  | ⟨fields, tag⟩ => ⟨ObjectField.mapAll f fields, f tag⟩
termination_by structural x => x

def ObjectField.mapAll (f : α → β) : List (ObjectField α) → List (ObjectField β)
  | [] => []
  | x :: xs => x.map f :: ObjectField.mapAll f xs
termination_by structural xs => xs

def ObjectField.map (f : α → β) : ObjectField α → ObjectField β
  | ⟨name, value, tag⟩ => ⟨name.map f, value.map f, f tag⟩
termination_by structural x => x

end

@[simp] theorem Value.mapAll_eq_map (f : α → β) (xs : List (Value α)) :
    Value.mapAll f xs = xs.map (Value.map f) := by
  induction xs with
  | nil => rfl
  | cons x xs ih => simp [Value.mapAll, ih]

@[simp] theorem ObjectField.mapAll_eq_map (f : α → β) (xs : List (ObjectField α)) :
    ObjectField.mapAll f xs = xs.map (ObjectField.map f) := by
  induction xs with
  | nil => rfl
  | cons x xs ih => simp [ObjectField.mapAll, ih]

def Argument.map (f : α → β) (x : Argument α) : Argument β :=
  ⟨x.name.map f, x.value.map f, f x.tag⟩

def Directive.map (f : α → β) (x : Directive α) : Directive β :=
  ⟨x.name.map f, x.arguments.map (Argument.map f), f x.tag⟩

/-! ## Facts about values -/

mutual

/-- No variable occurs in the value, at any depth. -/
def Value.isConst : Value α → Bool
  | .var _ => false
  | .list x => x.isConst
  | .object x => x.isConst
  | .int _ | .float _ | .string _ | .boolean _ | .enum _ => true
termination_by structural x => x

/-- No variable occurs in the list. -/
def ListValue.isConst : ListValue α → Bool
  | ⟨values, _⟩ => Value.allConst values
termination_by structural x => x

/-- No variable occurs in any of the values. -/
def Value.allConst : List (Value α) → Bool
  | [] => true
  | x :: xs => x.isConst && Value.allConst xs
termination_by structural xs => xs

/-- No variable occurs in the object. -/
def ObjectValue.isConst : ObjectValue α → Bool
  | ⟨fields, _⟩ => ObjectField.allConst fields
termination_by structural x => x

/-- No variable occurs in any of the fields. -/
def ObjectField.allConst : List (ObjectField α) → Bool
  | [] => true
  | x :: xs => x.isConst && ObjectField.allConst xs
termination_by structural xs => xs

/-- No variable occurs in the field. -/
def ObjectField.isConst : ObjectField α → Bool
  | ⟨_, value, _⟩ => value.isConst
termination_by structural x => x

end

/-- The first field of the given name. -/
def ObjectValue.field? (x : ObjectValue α) (name : String) : Option (ObjectField α) :=
  x.fields.find? fun field => field.name.value == name

end GraphQLSyntax
