import GraphQLSyntax.Proofs.Yield.Terminal
import GraphQLSyntax.Tree.Value

/-!
# What names, types, values and directives are written with

For each kind of node: its terminals, in order, and when it is well formed.
Well-formedness comes in two degrees.  The strict one is that of the language;
the lax one lets pass exactly what an objection can be raised to, so that it
can be said of a token to which objection is raised that it is in such a place.
-/

namespace GraphQLSyntax

variable {α β : Type}

/-! ## Terminals -/

def Name.terminals (x : Name α) : List Terminal :=
  [.ofName x.value]

def NamedType.terminals (x : NamedType α) : List Terminal :=
  x.name.terminals

mutual

def TypeRef.terminals : TypeRef α → List Terminal
  | .named x => x.terminals
  | .list x => x.terminals
  | .nonNull x => x.terminals
termination_by structural x => x

def ListType.terminals : ListType α → List Terminal
  | ⟨item, _⟩ => .bare .bracketOpen :: item.terminals ++ [.bare .bracketClose]
termination_by structural x => x

def NullableTypeRef.terminals : NullableTypeRef α → List Terminal
  | .named x => x.terminals
  | .list x => x.terminals
termination_by structural x => x

def NonNullType.terminals : NonNullType α → List Terminal
  | ⟨inner, _⟩ => inner.terminals ++ [.bare .bang]
termination_by structural x => x

end

def Variable.terminals (x : Variable α) : List Terminal :=
  .bare .dollar :: x.name.terminals

/-- A literal whose text is the value of a token of the given kind. -/
def Literal.terminals (kind : TokenKind) (x : Literal α) : List Terminal :=
  [.plain { kind, value := some x.text }]

def BooleanValue.terminals (x : BooleanValue α) : List Terminal :=
  [.ofName (if x.value then "true" else "false")]

/-- The objection to a field name after fields with the names in `taken`. -/
def ObjectField.objection? (taken : List String) (name : String) : Option Objection :=
  if taken.contains name then some (.repeatedField name) else none

mutual

def Value.terminals : Value α → List Terminal
  | .var x => x.terminals
  | .int x => x.terminals .int
  | .float x => x.terminals .float
  | .string x => x.terminals .string
  | .boolean x => x.terminals
  | .enum x => x.terminals .name
  | .list x => x.terminals
  | .object x => x.terminals
termination_by structural x => x

def ListValue.terminals : ListValue α → List Terminal
  | ⟨values, _⟩ =>
    .bare .bracketOpen :: Value.terminalsAll values ++ [.bare .bracketClose]
termination_by structural x => x

def Value.terminalsAll : List (Value α) → List Terminal
  | [] => []
  | x :: xs => x.terminals ++ Value.terminalsAll xs
termination_by structural xs => xs

def ObjectValue.terminals : ObjectValue α → List Terminal
  | ⟨fields, _⟩ =>
    .bare .braceOpen :: ObjectField.terminalsAll [] fields ++ [.bare .braceClose]
termination_by structural x => x

/-- The terminals of fields that come after fields with the names in `taken`. -/
def ObjectField.terminalsAll (taken : List String) : List (ObjectField α) → List Terminal
  | [] => []
  | x :: xs =>
    x.terminals taken ++ ObjectField.terminalsAll (x.name.value :: taken) xs
termination_by structural xs => xs

/-- The terminals of a field that comes after fields with the names in `taken`. -/
def ObjectField.terminals (taken : List String) : ObjectField α → List Terminal
  | ⟨name, value, _⟩ =>
    { lexeme := .ofName name.value, objection := ObjectField.objection? taken name.value } ::
      .bare .colon :: value.terminals
termination_by structural x => x

end

@[simp] theorem Value.terminalsAll_eq_flatMap (xs : List (Value α)) :
    Value.terminalsAll xs = xs.flatMap Value.terminals := by
  induction xs with
  | nil => rfl
  | cons x xs ih => simp [Value.terminalsAll, ih]

def Argument.terminals (x : Argument α) : List Terminal :=
  x.name.terminals ++ .bare .colon :: x.value.terminals

/-- Items in parentheses, or nothing if there are none. -/
def parenthesizedTerminals (write : β → List Terminal) (xs : List β) : List Terminal :=
  if xs.isEmpty then []
  else .bare .parenOpen :: xs.flatMap write ++ [.bare .parenClose]

def Directive.terminals (x : Directive α) : List Terminal :=
  .bare .atSign :: x.name.terminals ++ parenthesizedTerminals Argument.terminals x.arguments

/-- A default value after an equals sign, or nothing if there is none. -/
def Value.defaultTerminals (x : Option (Value α)) : List Terminal :=
  x.elim [] fun value => .bare .equals :: value.terminals

/-! ## Well-formed trees -/

/-- How much is asked of a well-formed tree. -/
inductive Degree
  /-- All that the language asks for. -/
  | strict
  /-- Names to which an objection is raised are let pass. -/
  | lax
deriving DecidableEq, Repr

def Name.WellFormed (x : Name α) : Prop :=
  isName x.value = true

def NamedType.WellFormed (x : NamedType α) : Prop :=
  x.name.WellFormed

mutual

def TypeRef.WellFormed : TypeRef α → Prop
  | .named x => x.WellFormed
  | .list x => x.WellFormed
  | .nonNull x => x.WellFormed
termination_by structural x => x

def ListType.WellFormed : ListType α → Prop
  | ⟨item, _⟩ => item.WellFormed
termination_by structural x => x

def NullableTypeRef.WellFormed : NullableTypeRef α → Prop
  | .named x => x.WellFormed
  | .list x => x.WellFormed
termination_by structural x => x

def NonNullType.WellFormed : NonNullType α → Prop
  | ⟨inner, _⟩ => inner.WellFormed
termination_by structural x => x

end

def Variable.WellFormed (x : Variable α) : Prop :=
  x.name.WellFormed

mutual

/-- Names and numbers are spelled as such, enum values are none of the two truth
values and, in the strict degree, no object has two fields of one name. -/
def Value.WellFormed (degree : Degree) : Value α → Prop
  | .var x => x.WellFormed
  | .int x => IsInteger x.text.toList
  | .float x => IsFloat x.text.toList
  | .string _ => True
  | .boolean _ => True
  | .enum x => isName x.text = true ∧ x.text ≠ "true" ∧ x.text ≠ "false"
  | .list x => x.WellFormed degree
  | .object x => x.WellFormed degree
termination_by structural x => x

def ListValue.WellFormed (degree : Degree) : ListValue α → Prop
  | ⟨values, _⟩ => Value.AllWellFormed degree values
termination_by structural x => x

def Value.AllWellFormed (degree : Degree) : List (Value α) → Prop
  | [] => True
  | x :: xs => x.WellFormed degree ∧ Value.AllWellFormed degree xs
termination_by structural xs => xs

def ObjectValue.WellFormed (degree : Degree) : ObjectValue α → Prop
  | ⟨fields, _⟩ =>
    (degree = .strict → (fields.map fun x => x.name.value).Nodup) ∧
      ObjectField.AllWellFormed degree fields
termination_by structural x => x

def ObjectField.AllWellFormed (degree : Degree) : List (ObjectField α) → Prop
  | [] => True
  | x :: xs => x.WellFormed degree ∧ ObjectField.AllWellFormed degree xs
termination_by structural xs => xs

def ObjectField.WellFormed (degree : Degree) : ObjectField α → Prop
  | ⟨name, value, _⟩ => name.WellFormed ∧ value.WellFormed degree
termination_by structural x => x

end

@[simp] theorem Value.allWellFormed_iff (degree : Degree) (xs : List (Value α)) :
    Value.AllWellFormed degree xs ↔ ∀ x ∈ xs, x.WellFormed degree := by
  induction xs with
  | nil => simp [Value.AllWellFormed]
  | cons x xs ih => simp [Value.AllWellFormed, ih]

@[simp] theorem ObjectField.allWellFormed_iff (degree : Degree) (xs : List (ObjectField α)) :
    ObjectField.AllWellFormed degree xs ↔ ∀ x ∈ xs, x.WellFormed degree := by
  induction xs with
  | nil => simp [ObjectField.AllWellFormed]
  | cons x xs ih => simp [ObjectField.AllWellFormed, ih]

@[simp] theorem Value.allConst_iff (xs : List (Value α)) :
    Value.allConst xs = true ↔ ∀ x ∈ xs, x.isConst = true := by
  induction xs with
  | nil => simp [Value.allConst]
  | cons x xs ih => simp [Value.allConst, ih]

@[simp] theorem ObjectField.allConst_iff (xs : List (ObjectField α)) :
    ObjectField.allConst xs = true ↔ ∀ x ∈ xs, x.isConst = true := by
  induction xs with
  | nil => simp [ObjectField.allConst]
  | cons x xs ih => simp [ObjectField.allConst, ih]

def Argument.WellFormed (degree : Degree) (x : Argument α) : Prop :=
  x.name.WellFormed ∧ x.value.WellFormed degree

def Directive.WellFormed (degree : Degree) (x : Directive α) : Prop :=
  x.name.WellFormed ∧ ∀ y ∈ x.arguments, y.WellFormed degree

/-- A default value is a well-formed value without variables. -/
def Value.DefaultWellFormed (degree : Degree) (x : Option (Value α)) : Prop :=
  ∀ value ∈ x, value.WellFormed degree ∧ value.isConst = true

/-! ## Tags -/

@[simp] theorem Name.terminals_map (f : α → β) (x : Name α) :
    (x.map f).terminals = x.terminals :=
  rfl

@[simp] theorem Name.wellFormed_map (f : α → β) (x : Name α) :
    (x.map f).WellFormed ↔ x.WellFormed :=
  Iff.rfl

@[simp] theorem NamedType.terminals_map (f : α → β) (x : NamedType α) :
    (x.map f).terminals = x.terminals :=
  rfl

@[simp] theorem Variable.terminals_map (f : α → β) (x : Variable α) :
    (x.map f).terminals = x.terminals :=
  rfl

mutual

@[simp] theorem TypeRef.terminals_map (f : α → β) :
    ∀ x : TypeRef α, (x.map f).terminals = x.terminals
  | .named x => by simp [TypeRef.map, TypeRef.terminals]
  | .list x => by simp [TypeRef.map, TypeRef.terminals, ListType.terminals_map f x]
  | .nonNull x => by simp [TypeRef.map, TypeRef.terminals, NonNullType.terminals_map f x]
termination_by structural x => x

theorem ListType.terminals_map (f : α → β) :
    ∀ x : ListType α, (x.map f).terminals = x.terminals
  | ⟨item, _⟩ => by simp [ListType.map, ListType.terminals, TypeRef.terminals_map f item]
termination_by structural x => x

theorem NullableTypeRef.terminals_map (f : α → β) :
    ∀ x : NullableTypeRef α, (x.map f).terminals = x.terminals
  | .named x => by simp [NullableTypeRef.map, NullableTypeRef.terminals]
  | .list x => by
    simp [NullableTypeRef.map, NullableTypeRef.terminals, ListType.terminals_map f x]
termination_by structural x => x

theorem NonNullType.terminals_map (f : α → β) :
    ∀ x : NonNullType α, (x.map f).terminals = x.terminals
  | ⟨inner, _⟩ => by
    simp [NonNullType.map, NonNullType.terminals, NullableTypeRef.terminals_map f inner]
termination_by structural x => x

end

mutual

@[simp] theorem TypeRef.wellFormed_map (f : α → β) :
    ∀ x : TypeRef α, (x.map f).WellFormed ↔ x.WellFormed
  | .named _ => Iff.rfl
  | .list x => ListType.wellFormed_map f x
  | .nonNull x => NonNullType.wellFormed_map f x
termination_by structural x => x

theorem ListType.wellFormed_map (f : α → β) :
    ∀ x : ListType α, (x.map f).WellFormed ↔ x.WellFormed
  | ⟨item, _⟩ => TypeRef.wellFormed_map f item
termination_by structural x => x

theorem NullableTypeRef.wellFormed_map (f : α → β) :
    ∀ x : NullableTypeRef α, (x.map f).WellFormed ↔ x.WellFormed
  | .named _ => Iff.rfl
  | .list x => ListType.wellFormed_map f x
termination_by structural x => x

theorem NonNullType.wellFormed_map (f : α → β) :
    ∀ x : NonNullType α, (x.map f).WellFormed ↔ x.WellFormed
  | ⟨inner, _⟩ => NullableTypeRef.wellFormed_map f inner
termination_by structural x => x

end

mutual

@[simp] theorem Value.terminals_map (f : α → β) :
    ∀ x : Value α, (x.map f).terminals = x.terminals
  | .list ⟨values, _⟩ => by
    simp only [Value.map, ListValue.map, Value.terminals, ListValue.terminals,
      Value.terminalsAll_map f values]
  | .object ⟨fields, _⟩ => by
    simp only [Value.map, ObjectValue.map, Value.terminals, ObjectValue.terminals,
      ObjectField.terminalsAll_map f [] fields]
  | .var _ | .int _ | .float _ | .string _ | .boolean _ | .enum _ => rfl

theorem Value.terminalsAll_map (f : α → β) :
    ∀ xs : List (Value α), Value.terminalsAll (Value.mapAll f xs) = Value.terminalsAll xs
  | [] => rfl
  | x :: xs => by
    simp only [Value.mapAll, Value.terminalsAll, Value.terminals_map f x,
      Value.terminalsAll_map f xs]

theorem ObjectField.terminalsAll_map (f : α → β) (taken : List String) :
    ∀ xs : List (ObjectField α),
      ObjectField.terminalsAll taken (ObjectField.mapAll f xs) =
        ObjectField.terminalsAll taken xs
  | [] => rfl
  | ⟨name, value, _⟩ :: xs => by
    simp only [ObjectField.mapAll, ObjectField.map, ObjectField.terminalsAll,
      ObjectField.terminals, Name.map, Value.terminals_map f value,
      ObjectField.terminalsAll_map f (name.value :: taken) xs]

end

theorem ObjectField.names_map (f : α → β) (xs : List (ObjectField α)) :
    ((ObjectField.mapAll f xs).map fun x => x.name.value) = xs.map fun x => x.name.value := by
  induction xs with
  | nil => rfl
  | cons x xs ih =>
    obtain ⟨name, value, tag⟩ := x
    exact congrArg (name.value :: ·) ih

mutual

@[simp] theorem Value.wellFormed_map (f : α → β) (degree : Degree) :
    ∀ x : Value α, (x.map f).WellFormed degree ↔ x.WellFormed degree
  | .list ⟨values, _⟩ => Value.allWellFormed_map f degree values
  | .object ⟨fields, _⟩ => by
    simp only [Value.map, ObjectValue.map, Value.WellFormed, ObjectValue.WellFormed,
      ObjectField.allWellFormed_map f degree fields, ObjectField.names_map f fields]
  | .var _ | .int _ | .float _ | .string _ | .boolean _ | .enum _ => Iff.rfl

theorem Value.allWellFormed_map (f : α → β) (degree : Degree) :
    ∀ xs : List (Value α),
      Value.AllWellFormed degree (Value.mapAll f xs) ↔ Value.AllWellFormed degree xs
  | [] => Iff.rfl
  | x :: xs => and_congr (Value.wellFormed_map f degree x) (Value.allWellFormed_map f degree xs)

theorem ObjectField.allWellFormed_map (f : α → β) (degree : Degree) :
    ∀ xs : List (ObjectField α),
      ObjectField.AllWellFormed degree (ObjectField.mapAll f xs) ↔
        ObjectField.AllWellFormed degree xs
  | [] => Iff.rfl
  | ⟨_, value, _⟩ :: xs =>
    and_congr (and_congr Iff.rfl (Value.wellFormed_map f degree value))
      (ObjectField.allWellFormed_map f degree xs)

end

mutual

@[simp] theorem Value.isConst_map (f : α → β) : ∀ x : Value α, (x.map f).isConst = x.isConst
  | .list ⟨values, _⟩ => Value.allConst_map f values
  | .object ⟨fields, _⟩ => ObjectField.allConst_map f fields
  | .var _ | .int _ | .float _ | .string _ | .boolean _ | .enum _ => rfl

theorem Value.allConst_map (f : α → β) :
    ∀ xs : List (Value α), Value.allConst (Value.mapAll f xs) = Value.allConst xs
  | [] => rfl
  | x :: xs => by
    simp only [Value.mapAll, Value.allConst, Value.isConst_map f x, Value.allConst_map f xs]

theorem ObjectField.allConst_map (f : α → β) :
    ∀ xs : List (ObjectField α),
      ObjectField.allConst (ObjectField.mapAll f xs) = ObjectField.allConst xs
  | [] => rfl
  | ⟨_, value, _⟩ :: xs => by
    simp only [ObjectField.mapAll, ObjectField.map, ObjectField.allConst, ObjectField.isConst,
      Value.isConst_map f value, ObjectField.allConst_map f xs]

end

@[simp] theorem Argument.terminals_map (f : α → β) (x : Argument α) :
    (x.map f).terminals = x.terminals := by
  simp [Argument.map, Argument.terminals]

@[simp] theorem Argument.wellFormed_map (f : α → β) (degree : Degree) (x : Argument α) :
    (x.map f).WellFormed degree ↔ x.WellFormed degree :=
  and_congr Iff.rfl (Value.wellFormed_map f degree x.value)

/-- Items that are written in the same way after a change are so in parentheses. -/
theorem parenthesizedTerminals_map {γ : Type} {write : β → List Terminal}
    {write' : γ → List Terminal} {g : β → γ} (h : ∀ x, write' (g x) = write x) (xs : List β) :
    parenthesizedTerminals write' (xs.map g) = parenthesizedTerminals write xs := by
  simp [parenthesizedTerminals, List.flatMap_map, h]

@[simp] theorem Directive.terminals_map (f : α → β) (x : Directive α) :
    (x.map f).terminals = x.terminals := by
  have harguments := parenthesizedTerminals_map (Argument.terminals_map f) x.arguments
  simp [Directive.map, Directive.terminals, harguments]

@[simp] theorem Directive.wellFormed_map (f : α → β) (degree : Degree) (x : Directive α) :
    (x.map f).WellFormed degree ↔ x.WellFormed degree := by
  simp [Directive.map, Directive.WellFormed, Name.WellFormed, Name.map]

@[simp] theorem Value.defaultTerminals_map (f : α → β) (x : Option (Value α)) :
    Value.defaultTerminals (x.map (Value.map f)) = Value.defaultTerminals x := by
  cases x <;> simp [Value.defaultTerminals]

@[simp] theorem Value.defaultWellFormed_map (f : α → β) (degree : Degree)
    (x : Option (Value α)) :
    Value.DefaultWellFormed degree (x.map (Value.map f)) ↔ Value.DefaultWellFormed degree x := by
  cases x <;> simp [Value.DefaultWellFormed]

/-! ## The two degrees -/

@[simp] theorem Name.allPlain_terminals (x : Name α) : Terminal.AllPlain x.terminals := by
  simp [Name.terminals]

@[simp] theorem NamedType.allPlain_terminals (x : NamedType α) :
    Terminal.AllPlain x.terminals := by
  simp [NamedType.terminals]

mutual

@[simp] theorem TypeRef.allPlain_terminals : ∀ x : TypeRef α, Terminal.AllPlain x.terminals
  | .named x => x.allPlain_terminals
  | .list x => x.allPlain_terminals
  | .nonNull x => x.allPlain_terminals
termination_by structural x => x

theorem ListType.allPlain_terminals : ∀ x : ListType α, Terminal.AllPlain x.terminals
  | ⟨item, _⟩ => by simp [ListType.terminals, TypeRef.allPlain_terminals item]
termination_by structural x => x

theorem NullableTypeRef.allPlain_terminals :
    ∀ x : NullableTypeRef α, Terminal.AllPlain x.terminals
  | .named x => x.allPlain_terminals
  | .list x => x.allPlain_terminals
termination_by structural x => x

theorem NonNullType.allPlain_terminals : ∀ x : NonNullType α, Terminal.AllPlain x.terminals
  | ⟨inner, _⟩ => by simp [NonNullType.terminals, NullableTypeRef.allPlain_terminals inner]
termination_by structural x => x

end

mutual

/-- What the strict degree asks for beyond the lax one is that no objection is
raised. -/
theorem Value.wellFormed_strict_iff :
    ∀ x : Value α, x.WellFormed .strict ↔ x.WellFormed .lax ∧ Terminal.AllPlain x.terminals
  | .list ⟨values, _⟩ => by
    simp only [Value.WellFormed, ListValue.WellFormed, Value.terminals, ListValue.terminals,
      Value.allWellFormed_strict_iff values]
    simp
  | .object ⟨fields, _⟩ => by
    simp only [Value.WellFormed, ObjectValue.WellFormed, Value.terminals, ObjectValue.terminals]
    have h := ObjectField.allWellFormed_strict_iff [] fields
    simp only [List.not_mem_nil, not_false_eq_true, implies_true, and_true] at h
    simp only [reduceCtorEq, false_implies, true_and, forall_const, Terminal.allPlain_cons,
      Terminal.allPlain_append, Terminal.objection_bare, Terminal.allPlain_nil, and_true]
    rw [and_comm, h]
  | .var _ => by simp [Value.WellFormed, Value.terminals, Variable.terminals]
  | .int _ | .float _ | .string _ => by
    simp [Value.WellFormed, Value.terminals, Literal.terminals]
  | .boolean _ => by simp [Value.WellFormed, Value.terminals, BooleanValue.terminals]
  | .enum _ => by simp [Value.WellFormed, Value.terminals, Literal.terminals]

theorem Value.allWellFormed_strict_iff :
    ∀ xs : List (Value α), Value.AllWellFormed .strict xs ↔
      Value.AllWellFormed .lax xs ∧ Terminal.AllPlain (Value.terminalsAll xs)
  | [] => by simp
  | x :: xs => by
    simp only [Value.AllWellFormed, Value.terminalsAll, Value.wellFormed_strict_iff x,
      Value.allWellFormed_strict_iff xs, Terminal.allPlain_append]
    exact and_and_and_comm

/-- Names that are repeated or taken are objected to. -/
theorem ObjectField.allWellFormed_strict_iff (taken : List String) :
    ∀ xs : List (ObjectField α),
      (ObjectField.AllWellFormed .strict xs ∧ (xs.map fun x => x.name.value).Nodup ∧
          ∀ x ∈ xs, x.name.value ∉ taken) ↔
        ObjectField.AllWellFormed .lax xs ∧
          Terminal.AllPlain (ObjectField.terminalsAll taken xs)
  | [] => by simp [ObjectField.terminalsAll]
  | ⟨name, value, _⟩ :: xs => by
    have ih := ObjectField.allWellFormed_strict_iff (name.value :: taken) xs
    have hvalue := Value.wellFormed_strict_iff value
    have hobjection : ObjectField.objection? taken name.value = none ↔ name.value ∉ taken := by
      simp [ObjectField.objection?]
    simp only [ObjectField.AllWellFormed, ObjectField.WellFormed, ObjectField.terminalsAll,
      ObjectField.terminals, List.map_cons, List.nodup_cons, List.forall_mem_cons, hvalue,
      Terminal.allPlain_append, Terminal.allPlain_cons, hobjection, Terminal.objection_bare,
      true_and]
    have hfree : (∀ x ∈ xs, x.name.value ∉ name.value :: taken) ↔
        name.value ∉ xs.map (fun x => x.name.value) ∧ ∀ x ∈ xs, x.name.value ∉ taken := by
      simp only [List.mem_cons, not_or, List.mem_map, not_exists, not_and]
      exact ⟨fun h => ⟨fun x hx => (h x hx).1, fun x hx => (h x hx).2⟩,
        fun h x hx => ⟨h.1 x hx, h.2 x hx⟩⟩
    rw [hfree] at ih
    constructor
    · rintro ⟨⟨⟨hname, hlax, hplain⟩, hxs⟩, ⟨hnew, hnodup⟩, htaken, hothers⟩
      obtain ⟨hxs, hrest⟩ := ih.1 ⟨hxs, hnodup, hnew, hothers⟩
      exact ⟨⟨⟨hname, hlax⟩, hxs⟩, ⟨htaken, hplain⟩, hrest⟩
    · rintro ⟨⟨⟨hname, hlax⟩, hxs⟩, ⟨htaken, hplain⟩, hrest⟩
      obtain ⟨hxs, hnodup, hnew, hothers⟩ := ih.2 ⟨hxs, hrest⟩
      exact ⟨⟨⟨hname, hlax, hplain⟩, hxs⟩, ⟨hnew, hnodup⟩, htaken, hothers⟩

end

theorem Argument.wellFormed_strict_iff (x : Argument α) :
    x.WellFormed .strict ↔ x.WellFormed .lax ∧ Terminal.AllPlain x.terminals := by
  simp [Argument.WellFormed, Argument.terminals, Value.wellFormed_strict_iff, and_assoc]

@[simp] theorem allPlain_parenthesizedTerminals (write : β → List Terminal) (xs : List β) :
    Terminal.AllPlain (parenthesizedTerminals write xs) ↔
      ∀ x ∈ xs, Terminal.AllPlain (write x) := by
  cases xs <;> simp [parenthesizedTerminals]

/-- Where the degrees differ by objections for each item, they do so for all of them. -/
theorem forall_strict_iff {form form' : β → Prop} {write : β → List Terminal}
    (h : ∀ x, form x ↔ form' x ∧ Terminal.AllPlain (write x)) (xs : List β) :
    (∀ x ∈ xs, form x) ↔ (∀ x ∈ xs, form' x) ∧ ∀ x ∈ xs, Terminal.AllPlain (write x) := by
  simp only [h]
  exact ⟨fun h => ⟨fun x hx => (h x hx).1, fun x hx => (h x hx).2⟩,
    fun h x hx => ⟨h.1 x hx, h.2 x hx⟩⟩

theorem Directive.wellFormed_strict_iff (x : Directive α) :
    x.WellFormed .strict ↔ x.WellFormed .lax ∧ Terminal.AllPlain x.terminals := by
  simp [Directive.WellFormed, Directive.terminals,
    forall_strict_iff Argument.wellFormed_strict_iff, and_assoc]

theorem Value.defaultWellFormed_strict_iff (x : Option (Value α)) :
    Value.DefaultWellFormed .strict x ↔
      Value.DefaultWellFormed .lax x ∧ Terminal.AllPlain (Value.defaultTerminals x) := by
  cases x with
  | none => simp [Value.DefaultWellFormed, Value.defaultTerminals]
  | some x =>
    simp [Value.DefaultWellFormed, Value.defaultTerminals, Value.wellFormed_strict_iff,
      and_right_comm]

end GraphQLSyntax
