import GraphQLSyntax.Traversal.Walk

/-!
# The order of visits

A traversal of a tree visits every node twice, before and after its children, and the
children in the order in which the fields of the node are declared.  That order is
written down here type by type, without the view of nodes as slots that traversals are
written with.  The main result is that it is the order in which every walker is called.
-/

namespace GraphQLSyntax

variable {α : Type}

/-- Calls for nodes, in order. -/
abbrev Visits (α : Type) := List (Phase × Node α)

/-- The two visits to a node, around those below it. -/
def Visits.around (n : Node α) (below : Visits α) : Visits α :=
  (.enter, n) :: below ++ [(.leave, n)]

open Visits (around)

/-! ## Names and types -/

def Name.visits (x : Name α) : Visits α :=
  around (.name x) []

def Variable.visits (x : Variable α) : Visits α :=
  around (.variableReference x) x.name.visits

def NamedType.visits (x : NamedType α) : Visits α :=
  around (.namedType x) x.name.visits

mutual

def TypeRef.visits : TypeRef α → Visits α
  | .named x => x.visits
  | .list x => x.visits
  | .nonNull x => x.visits
termination_by structural x => x

def ListType.visits : ListType α → Visits α
  | ⟨item, tag⟩ => around (.listType ⟨item, tag⟩) item.visits
termination_by structural x => x

def NonNullType.visits : NonNullType α → Visits α
  | ⟨inner, tag⟩ => around (.nonNullType ⟨inner, tag⟩) inner.visits
termination_by structural x => x

def NullableTypeRef.visits : NullableTypeRef α → Visits α
  | .named x => x.visits
  | .list x => x.visits
termination_by structural x => x

end

/-! ## Values and what takes them -/

mutual

def Value.visits : Value α → Visits α
  | .var x => x.visits
  | .int x => around (.intValue x) []
  | .float x => around (.floatValue x) []
  | .string x => around (.stringValue x) []
  | .boolean x => around (.booleanValue x) []
  | .enum x => around (.enumValue x) []
  | .list x => x.visits
  | .object x => x.visits
termination_by structural x => x

def ListValue.visits : ListValue α → Visits α
  | ⟨values, tag⟩ => around (.listValue ⟨values, tag⟩) (Value.visitsAll values)
termination_by structural x => x

def Value.visitsAll : List (Value α) → Visits α
  | [] => []
  | x :: xs => x.visits ++ Value.visitsAll xs
termination_by structural xs => xs

def ObjectValue.visits : ObjectValue α → Visits α
  | ⟨fields, tag⟩ => around (.objectValue ⟨fields, tag⟩) (ObjectField.visitsAll fields)
termination_by structural x => x

def ObjectField.visitsAll : List (ObjectField α) → Visits α
  | [] => []
  | x :: xs => x.visits ++ ObjectField.visitsAll xs
termination_by structural xs => xs

def ObjectField.visits : ObjectField α → Visits α
  | ⟨name, value, tag⟩ => around (.objectField ⟨name, value, tag⟩) (name.visits ++ value.visits)
termination_by structural x => x

end

theorem Value.visitsAll_eq_flatMap (xs : List (Value α)) :
    Value.visitsAll xs = xs.flatMap Value.visits := by
  induction xs with
  | nil => rfl
  | cons x xs ih => rw [Value.visitsAll, ih, List.flatMap_cons]

theorem ObjectField.visitsAll_eq_flatMap (xs : List (ObjectField α)) :
    ObjectField.visitsAll xs = xs.flatMap ObjectField.visits := by
  induction xs with
  | nil => rfl
  | cons x xs ih => rw [ObjectField.visitsAll, ih, List.flatMap_cons]

theorem ListValue.visits_eq (x : ListValue α) :
    x.visits = around (.listValue x) (x.values.flatMap Value.visits) := by
  cases x
  simp only [ListValue.visits, Value.visitsAll_eq_flatMap]

theorem ObjectValue.visits_eq (x : ObjectValue α) :
    x.visits = around (.objectValue x) (x.fields.flatMap ObjectField.visits) := by
  cases x
  simp only [ObjectValue.visits, ObjectField.visitsAll_eq_flatMap]

def Argument.visits (x : Argument α) : Visits α :=
  around (.argument x) (x.name.visits ++ x.value.visits)

def Directive.visits (x : Directive α) : Visits α :=
  around (.directive x) (x.name.visits ++ x.arguments.flatMap Argument.visits)

/-! ## Executable documents -/

def FragmentSpread.visits (x : FragmentSpread α) : Visits α :=
  around (.fragmentSpread x) (x.name.visits ++ x.directives.flatMap Directive.visits)

mutual

def SelectionSet.visits : SelectionSet α → Visits α
  | ⟨selections, tag⟩ => around (.selectionSet ⟨selections, tag⟩) (Selection.visitsAll selections)
termination_by structural x => x

def Selection.visitsAll : List (Selection α) → Visits α
  | [] => []
  | x :: xs => x.visits ++ Selection.visitsAll xs
termination_by structural xs => xs

def Selection.visits : Selection α → Visits α
  | .field x => x.visits
  | .spread x => x.visits
  | .inline x => x.visits
termination_by structural x => x

def Field.visits : Field α → Visits α
  | ⟨aliasName, name, arguments, directives, selectionSet, tag⟩ =>
    around (.field ⟨aliasName, name, arguments, directives, selectionSet, tag⟩)
      (aliasName.toList.flatMap Name.visits ++ name.visits ++
        arguments.flatMap Argument.visits ++ directives.flatMap Directive.visits ++
        SelectionSet.visitsOption selectionSet)
termination_by structural x => x

def SelectionSet.visitsOption : Option (SelectionSet α) → Visits α
  | none => []
  | some x => x.visits
termination_by structural x => x

def InlineFragment.visits : InlineFragment α → Visits α
  | ⟨typeCondition, directives, selectionSet, tag⟩ =>
    around (.inlineFragment ⟨typeCondition, directives, selectionSet, tag⟩)
      (typeCondition.visits ++ directives.flatMap Directive.visits ++ selectionSet.visits)
termination_by structural x => x

end

theorem Selection.visitsAll_eq_flatMap (xs : List (Selection α)) :
    Selection.visitsAll xs = xs.flatMap Selection.visits := by
  induction xs with
  | nil => rfl
  | cons x xs ih => rw [Selection.visitsAll, ih, List.flatMap_cons]

theorem SelectionSet.visitsOption_eq_flatMap (x : Option (SelectionSet α)) :
    SelectionSet.visitsOption x = x.toList.flatMap SelectionSet.visits := by
  cases x with
  | none => rfl
  | some x => simp [SelectionSet.visitsOption]

theorem SelectionSet.visits_eq (x : SelectionSet α) :
    x.visits = around (.selectionSet x) (x.selections.flatMap Selection.visits) := by
  cases x
  simp only [SelectionSet.visits, Selection.visitsAll_eq_flatMap]

theorem Field.visits_eq (x : Field α) :
    x.visits = around (.field x)
      (x.aliasName.toList.flatMap Name.visits ++ x.name.visits ++
        x.arguments.flatMap Argument.visits ++ x.directives.flatMap Directive.visits ++
        x.selectionSet.toList.flatMap SelectionSet.visits) := by
  cases x
  simp only [Field.visits, SelectionSet.visitsOption_eq_flatMap]

def VariableDefinition.visits (x : VariableDefinition α) : Visits α :=
  around (.variableDefinition x)
    (x.var.visits ++ x.type.visits ++ x.defaultValue.toList.flatMap Value.visits)

def OperationDefinition.visits (x : OperationDefinition α) : Visits α :=
  around (.operationDefinition x)
    (x.name.toList.flatMap Name.visits ++
      x.variableDefinitions.flatMap VariableDefinition.visits ++
      x.directives.flatMap Directive.visits ++ x.selectionSet.visits)

def FragmentDefinition.visits (x : FragmentDefinition α) : Visits α :=
  around (.fragmentDefinition x)
    (x.name.visits ++ x.typeCondition.visits ++ x.directives.flatMap Directive.visits ++
      x.selectionSet.visits)

def Definition.visits : Definition α → Visits α
  | .operation x => x.visits
  | .fragment x => x.visits

def Document.visits (x : Document α) : Visits α :=
  around (.document x) (x.definitions.flatMap Definition.visits)

/-! ## Schema documents -/

def ArgumentDefinition.visits (x : ArgumentDefinition α) : Visits α :=
  around (.argumentDefinition x)
    (x.name.visits ++ x.type.visits ++ x.defaultValue.toList.flatMap Value.visits)

def FieldDefinition.visits (x : FieldDefinition α) : Visits α :=
  around (.fieldDefinition x)
    (x.name.visits ++ x.arguments.flatMap ArgumentDefinition.visits ++ x.type.visits)

def InputFieldDefinition.visits (x : InputFieldDefinition α) : Visits α :=
  around (.inputFieldDefinition x)
    (x.name.visits ++ x.type.visits ++ x.defaultValue.toList.flatMap Value.visits)

def TypeDefinition.visits (x : TypeDefinition α) : Visits α :=
  around (.typeDefinition x)
    (x.name.visits ++ x.interfaces.flatMap NamedType.visits ++
      x.fields.flatMap FieldDefinition.visits)

def InterfaceDefinition.visits (x : InterfaceDefinition α) : Visits α :=
  around (.interfaceDefinition x) (x.name.visits ++ x.fields.flatMap FieldDefinition.visits)

def UnionDefinition.visits (x : UnionDefinition α) : Visits α :=
  around (.unionDefinition x) (x.name.visits ++ x.types.flatMap NamedType.visits)

def ScalarDefinition.visits (x : ScalarDefinition α) : Visits α :=
  around (.scalarDefinition x) x.name.visits

def EnumValueDefinition.visits (x : EnumValueDefinition α) : Visits α :=
  around (.enumValueDefinition x) x.name.visits

def EnumDefinition.visits (x : EnumDefinition α) : Visits α :=
  around (.enumDefinition x) (x.name.visits ++ x.values.flatMap EnumValueDefinition.visits)

def InputObjectDefinition.visits (x : InputObjectDefinition α) : Visits α :=
  around (.inputObjectDefinition x)
    (x.name.visits ++ x.fields.flatMap InputFieldDefinition.visits)

def SchemaDefinition.visits : SchemaDefinition α → Visits α
  | .type x => x.visits
  | .interface x => x.visits
  | .union x => x.visits
  | .scalar x => x.visits
  | .enum x => x.visits
  | .inputObject x => x.visits

def SchemaDocument.visits (x : SchemaDocument α) : Visits α :=
  around (.schemaDocument x) (x.definitions.flatMap SchemaDefinition.visits)

/-! ## Nodes of any kind -/

namespace Node

/-- The visits to a tree, in order. -/
def visits : Node α → Visits α
  | .name x => x.visits
  | .document x => x.visits
  | .operationDefinition x => x.visits
  | .variableDefinition x => x.visits
  | .variableReference x => x.visits
  | .selectionSet x => x.visits
  | .field x => x.visits
  | .argument x => x.visits
  | .fragmentSpread x => x.visits
  | .inlineFragment x => x.visits
  | .fragmentDefinition x => x.visits
  | .intValue x => around (.intValue x) []
  | .floatValue x => around (.floatValue x) []
  | .stringValue x => around (.stringValue x) []
  | .booleanValue x => around (.booleanValue x) []
  | .enumValue x => around (.enumValue x) []
  | .listValue x => x.visits
  | .objectValue x => x.visits
  | .objectField x => x.visits
  | .directive x => x.visits
  | .namedType x => x.visits
  | .listType x => x.visits
  | .nonNullType x => x.visits
  | .schemaDocument x => x.visits
  | .typeDefinition x => x.visits
  | .fieldDefinition x => x.visits
  | .argumentDefinition x => x.visits
  | .interfaceDefinition x => x.visits
  | .unionDefinition x => x.visits
  | .scalarDefinition x => x.visits
  | .enumDefinition x => x.visits
  | .enumValueDefinition x => x.visits
  | .inputObjectDefinition x => x.visits
  | .inputFieldDefinition x => x.visits

end Node

/-- A part is visited as the node that it is. -/
class Part.Visited (β : Type → Type) [∀ α, SizeOf (β α)] [Part β]
    (visits : outParam (∀ {α : Type}, β α → Visits α)) : Prop where
  visits_toNode {α : Type} (x : β α) : (Part.toNode x).visits = visits x

namespace Part.Visited

instance : Visited Name Name.visits := ⟨fun _ => rfl⟩
instance : Visited Variable Variable.visits := ⟨fun _ => rfl⟩
instance : Visited NamedType NamedType.visits := ⟨fun _ => rfl⟩
instance : Visited Argument Argument.visits := ⟨fun _ => rfl⟩
instance : Visited Directive Directive.visits := ⟨fun _ => rfl⟩
instance : Visited SelectionSet SelectionSet.visits := ⟨fun _ => rfl⟩
instance : Visited VariableDefinition VariableDefinition.visits := ⟨fun _ => rfl⟩
instance : Visited ObjectField ObjectField.visits := ⟨fun _ => rfl⟩
instance : Visited FieldDefinition FieldDefinition.visits := ⟨fun _ => rfl⟩
instance : Visited ArgumentDefinition ArgumentDefinition.visits := ⟨fun _ => rfl⟩
instance : Visited InputFieldDefinition InputFieldDefinition.visits := ⟨fun _ => rfl⟩
instance : Visited EnumValueDefinition EnumValueDefinition.visits := ⟨fun _ => rfl⟩
instance : Visited TypeRef TypeRef.visits := ⟨fun x => by cases x <;> rfl⟩
instance : Visited NullableTypeRef NullableTypeRef.visits := ⟨fun x => by cases x <;> rfl⟩
instance : Visited Value Value.visits := ⟨fun x => by cases x <;> rfl⟩
instance : Visited Selection Selection.visits := ⟨fun x => by cases x <;> rfl⟩
instance : Visited Definition Definition.visits := ⟨fun x => by cases x <;> rfl⟩
instance : Visited SchemaDefinition SchemaDefinition.visits := ⟨fun x => by cases x <;> rfl⟩

end Part.Visited

namespace Slot

variable {β : Type → Type} [∀ α, SizeOf (β α)] [Part β] {visits : ∀ {α : Type}, β α → Visits α}
  [Part.Visited β visits]

theorem visits_one (x : β α) : (one x).nodes.flatMap Node.visits = visits x := by
  rw [one, List.flatMap_singleton, Part.Visited.visits_toNode]

theorem visits_many (xs : List (β α)) :
    (many xs).nodes.flatMap Node.visits = xs.flatMap visits := by
  rw [many, List.flatMap_map]
  exact congrArg xs.flatMap (funext Part.Visited.visits_toNode)

theorem visits_optional (x : Option (β α)) :
    (optional x).nodes.flatMap Node.visits = x.toList.flatMap visits :=
  visits_many x.toList

theorem visits_atLeastOne (xs : List (β α)) :
    (atLeastOne xs).nodes.flatMap Node.visits = xs.flatMap visits :=
  visits_many xs

end Slot

namespace Node

/-- Below a node, its children are visited one after the other. -/
theorem visits_eq (n : Node α) : n.visits = around n (n.children.flatMap visits) := by
  cases n <;>
    simp only [children, slots, List.flatMap_cons, List.flatMap_nil, List.append_nil,
      List.flatMap_append, ← List.append_assoc, Slot.visits_one, Slot.visits_many,
      Slot.visits_optional, Slot.visits_atLeastOne]
  case selectionSet x | field x | listValue x | objectValue x => exact x.visits_eq
  all_goals
    rename_i x
    cases x
    rfl

/-- The nodes that are entered are those of the tree. -/
theorem enter_mem_visits_iff {n m : Node α} : (.enter, m) ∈ n.visits ↔ m ∈ n.preorder := by
  induction n using Node.inductionOn with
  | step n ih =>
    have hbelow : (.enter, m) ∈ n.children.flatMap visits ↔ m ∈ n.children.flatMap preorder := by
      simp only [List.mem_flatMap]
      exact exists_congr fun c => and_congr_right fun hc => ih c hc
    rw [visits_eq, preorder_eq, around, List.mem_append, List.mem_cons, List.mem_cons, hbelow]
    simp

end Node

/-! ## Walks -/

/-- Items that are each done in several steps are done step by step. -/
theorem forM_flatMap_of_forall {m : Type → Type} [Monad m] [LawfulMonad m] {β γ : Type}
    {xs : List β} {f : β → List γ} {item : β → m Unit} {step : γ → m Unit}
    (h : ∀ x ∈ xs, item x = forM (f x) step) : forM xs item = forM (xs.flatMap f) step := by
  induction xs with
  | nil => rfl
  | cons x xs ih =>
    rw [List.forall_mem_cons] at h
    rw [List.flatMap_cons, List.forM_append, List.forM_cons, h.1, ih h.2]

namespace Visit

variable {σ : Type}

/-- Notes down a visit, whatever is done on it. -/
def noting (visit : Phase × Node α) (x : Visit σ Unit) : Visit (σ × Visits α) Unit := fun s =>
  match x s.1 with
  | .ok y t => .ok y (t, s.2 ++ [visit])
  | .error e t => .error e (t, s.2 ++ [visit])

theorem bind_eq_ok {x : Visit σ Unit} {f : Unit → Visit σ Unit} {s s' : σ} :
    (x >>= f) s = .ok ⟨⟩ s' ↔ ∃ t, x s = .ok ⟨⟩ t ∧ f ⟨⟩ t = .ok ⟨⟩ s' := by
  simp only [bind, EStateM.bind]
  cases x s with
  | ok y t => simp
  | error e t => simp

end Visit

namespace Walker

variable {σ : Type}

/-- What a walker does on a visit. -/
def call (walker : Walker α σ) : Phase × Node α → Visit σ Unit
  | (.enter, n) => walker.enter n
  | (.leave, n) => walker.leave n

/-- A walk is a walker called for one visit after the other. -/
theorem walk_eq_forM_visits (walker : Walker α σ) (n : Node α) :
    walker.walk n = forM n.visits walker.call := by
  induction n using Node.inductionOn with
  | step n ih =>
    have hchildren : forM n.children walker.walk =
        forM (n.children.flatMap Node.visits) walker.call :=
      forM_flatMap_of_forall ih
    calc walker.walk n
      _ = (do walker.enter n; forM n.children walker.walk; walker.leave n) := by
          rw [walk_eq, List.forM_eq_forM]
      _ = forM (around n (n.children.flatMap Node.visits)) walker.call := by
          rw [hchildren, around, List.forM_append, List.forM_cons, bind_assoc]
          simp only [List.forM_cons, List.forM_nil, bind_pure_unit]
          rfl
      _ = forM n.visits walker.call := by rw [← Node.visits_eq]

/-! ## Notes of visits -/

/-- Notes down each visit and then does what the walker does. -/
def noting (walker : Walker α σ) : Walker α (σ × Visits α) where
  enter n := Visit.noting (.enter, n) (walker.enter n)
  leave n := Visit.noting (.leave, n) (walker.leave n)

theorem call_noting (walker : Walker α σ) (visit : Phase × Node α) :
    walker.noting.call visit = Visit.noting visit (walker.call visit) := by
  obtain ⟨_ | _, n⟩ := visit
  · rfl
  · rfl

theorem forM_call_noting {walker : Walker α σ} {visits : Visits α} {s s' : σ}
    (h : forM visits walker.call s = .ok ⟨⟩ s') (notes : Visits α) :
    forM visits walker.noting.call (s, notes) = .ok ⟨⟩ (s', notes ++ visits) := by
  induction visits generalizing s notes with
  | nil =>
    obtain ⟨-, rfl⟩ := EStateM.Result.ok.inj h
    rw [List.append_nil]
    rfl
  | cons visit visits ih =>
    obtain ⟨t, hcall, hrest⟩ := Visit.bind_eq_ok.1 h
    refine Visit.bind_eq_ok.2 ⟨(t, notes ++ [visit]), ?_, ?_⟩
    · rw [call_noting, Visit.noting, hcall]
    · have hnoted := ih hrest (notes ++ [visit])
      rw [List.append_assoc] at hnoted
      exact hnoted

/-- A walk that is not stopped makes all visits. -/
theorem walk_noting {walker : Walker α σ} {n : Node α} {s s' : σ}
    (h : walker.walk n s = .ok ⟨⟩ s') :
    walker.noting.walk n (s, []) = .ok ⟨⟩ (s', n.visits) := by
  rw [walk_eq_forM_visits] at h ⊢
  exact forM_call_noting h []

end Walker

end GraphQLSyntax
