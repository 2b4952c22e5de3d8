import GraphQLSyntax.Proofs.Yield.Value
import GraphQLSyntax.Tree.Executable

/-!
# What executable documents are written with

The terminals of operations, fragments and selections, and when these are well
formed.  The name of a fragment definition is the one place where the name `on` is
objected to; in a spread it would not be a name at all, so spreads with this name
are well formed in neither degree.
-/

namespace GraphQLSyntax

variable {α β : Type}

/-! ## Terminals -/

def FragmentSpread.terminals (x : FragmentSpread α) : List Terminal :=
  .bare .spread :: x.name.terminals ++ x.directives.flatMap Directive.terminals

/-- An alias and its colon, or nothing if there is none. -/
def Name.aliasTerminals (x : Option (Name α)) : List Terminal :=
  x.elim [] fun name => name.terminals ++ [.bare .colon]

mutual

def SelectionSet.terminals : SelectionSet α → List Terminal
  | ⟨selections, _⟩ =>
    .bare .braceOpen :: Selection.terminalsAll selections ++ [.bare .braceClose]
termination_by structural x => x

def Selection.terminalsAll : List (Selection α) → List Terminal
  | [] => []
  | x :: xs => x.terminals ++ Selection.terminalsAll xs
termination_by structural xs => xs

def Selection.terminals : Selection α → List Terminal
  | .field x => x.terminals
  | .spread x => x.terminals
  | .inline x => x.terminals
termination_by structural x => x

def Field.terminals : Field α → List Terminal
  | ⟨aliasName, name, arguments, directives, selectionSet, _⟩ =>
    Name.aliasTerminals aliasName ++ name.terminals ++
      parenthesizedTerminals Argument.terminals arguments ++
      directives.flatMap Directive.terminals ++ SelectionSet.terminalsOption selectionSet
termination_by structural x => x

def SelectionSet.terminalsOption : Option (SelectionSet α) → List Terminal
  | none => []
  | some x => x.terminals
termination_by structural x => x

def InlineFragment.terminals : InlineFragment α → List Terminal
  | ⟨typeCondition, directives, selectionSet, _⟩ =>
    .bare .spread :: .ofName "on" :: typeCondition.terminals ++
      directives.flatMap Directive.terminals ++ selectionSet.terminals
termination_by structural x => x

end

@[simp] theorem Selection.terminalsAll_eq_flatMap (xs : List (Selection α)) :
    Selection.terminalsAll xs = xs.flatMap Selection.terminals := by
  induction xs with
  | nil => rfl
  | cons x xs ih => simp [Selection.terminalsAll, ih]

def VariableDefinition.terminals (x : VariableDefinition α) : List Terminal :=
  x.var.terminals ++ .bare .colon :: x.type.terminals ++ Value.defaultTerminals x.defaultValue

/-- An operation without a name is its selection set. -/
def OperationDefinition.terminals (x : OperationDefinition α) : List Terminal :=
  match x.name with
  | none => x.selectionSet.terminals
  | some name =>
    .ofName x.operation.keyword :: name.terminals ++
      parenthesizedTerminals VariableDefinition.terminals x.variableDefinitions ++
      x.directives.flatMap Directive.terminals ++ x.selectionSet.terminals

/-- The objection to a name under which a fragment is defined. -/
def FragmentDefinition.objection? (name : String) : Option Objection :=
  if name = "on" then some (.reservedName name) else none

/-- The name under which a fragment is defined. -/
def Name.fragmentTerminals (x : Name α) : List Terminal :=
  [{ lexeme := .ofName x.value, objection := FragmentDefinition.objection? x.value }]

def FragmentDefinition.terminals (x : FragmentDefinition α) : List Terminal :=
  .ofName "fragment" :: x.name.fragmentTerminals ++ .ofName "on" :: x.typeCondition.terminals ++
    x.directives.flatMap Directive.terminals ++ x.selectionSet.terminals

def Definition.terminals : Definition α → List Terminal
  | .operation x => x.terminals
  | .fragment x => x.terminals

def Document.terminals (x : Document α) : List Terminal :=
  x.definitions.flatMap Definition.terminals

/-- The lexemes that a document is written with, in order. -/
def Document.yield (x : Document α) : List Lexeme :=
  x.terminals.map Terminal.lexeme

/-! ## Well-formed trees -/

def FragmentSpread.WellFormed (degree : Degree) (x : FragmentSpread α) : Prop :=
  x.name.WellFormed ∧ x.name.value ≠ "on" ∧ ∀ y ∈ x.directives, y.WellFormed degree

mutual

/-- No selection set is empty. -/
def SelectionSet.WellFormed (degree : Degree) : SelectionSet α → Prop
  | ⟨selections, _⟩ => selections ≠ [] ∧ Selection.AllWellFormed degree selections
termination_by structural x => x

def Selection.AllWellFormed (degree : Degree) : List (Selection α) → Prop
  | [] => True
  | x :: xs => x.WellFormed degree ∧ Selection.AllWellFormed degree xs
termination_by structural xs => xs

def Selection.WellFormed (degree : Degree) : Selection α → Prop
  | .field x => x.WellFormed degree
  | .spread x => x.WellFormed degree
  | .inline x => x.WellFormed degree
termination_by structural x => x

def Field.WellFormed (degree : Degree) : Field α → Prop
  | ⟨aliasName, name, arguments, directives, selectionSet, _⟩ =>
    (∀ x ∈ aliasName, x.WellFormed) ∧ name.WellFormed ∧
      (∀ x ∈ arguments, x.WellFormed degree) ∧ (∀ x ∈ directives, x.WellFormed degree) ∧
      SelectionSet.OptionWellFormed degree selectionSet
termination_by structural x => x

def SelectionSet.OptionWellFormed (degree : Degree) : Option (SelectionSet α) → Prop
  | none => True
  | some x => x.WellFormed degree
termination_by structural x => x

def InlineFragment.WellFormed (degree : Degree) : InlineFragment α → Prop
  | ⟨typeCondition, directives, selectionSet, _⟩ =>
    typeCondition.WellFormed ∧ (∀ x ∈ directives, x.WellFormed degree) ∧
      selectionSet.WellFormed degree
termination_by structural x => x

end

@[simp] theorem Selection.allWellFormed_iff (degree : Degree) (xs : List (Selection α)) :
    Selection.AllWellFormed degree xs ↔ ∀ x ∈ xs, x.WellFormed degree := by
  induction xs with
  | nil => simp [Selection.AllWellFormed]
  | cons x xs ih => simp [Selection.AllWellFormed, ih]

def VariableDefinition.WellFormed (degree : Degree) (x : VariableDefinition α) : Prop :=
  x.var.WellFormed ∧ x.type.WellFormed ∧ Value.DefaultWellFormed degree x.defaultValue

/-- An operation without a name is a query without variables and directives. -/
def OperationDefinition.WellFormed (degree : Degree) (x : OperationDefinition α) : Prop :=
  (x.name = none → x.operation = .query ∧ x.variableDefinitions = [] ∧ x.directives = []) ∧
    (∀ y ∈ x.name, y.WellFormed) ∧ (∀ y ∈ x.variableDefinitions, y.WellFormed degree) ∧
    (∀ y ∈ x.directives, y.WellFormed degree) ∧ x.selectionSet.WellFormed degree

/-- In the strict degree, no fragment has the name `on`. -/
def FragmentDefinition.WellFormed (degree : Degree) (x : FragmentDefinition α) : Prop :=
  x.name.WellFormed ∧ (degree = .strict → x.name.value ≠ "on") ∧ x.typeCondition.WellFormed ∧
    (∀ y ∈ x.directives, y.WellFormed degree) ∧ x.selectionSet.WellFormed degree

def Definition.WellFormed (degree : Degree) : Definition α → Prop
  | .operation x => x.WellFormed degree
  | .fragment x => x.WellFormed degree

/-- There is at least one definition. -/
def Document.WellFormed (degree : Degree) (x : Document α) : Prop :=
  x.definitions ≠ [] ∧ ∀ y ∈ x.definitions, y.WellFormed degree

/-! ## Tags -/

@[simp] theorem FragmentSpread.terminals_map (f : α → β) (x : FragmentSpread α) :
    (x.map f).terminals = x.terminals := by
  simp [FragmentSpread.map, FragmentSpread.terminals, List.flatMap_map]

@[simp] theorem FragmentSpread.wellFormed_map (f : α → β) (degree : Degree)
    (x : FragmentSpread α) : (x.map f).WellFormed degree ↔ x.WellFormed degree := by
  simp [FragmentSpread.map, FragmentSpread.WellFormed, Name.map, Name.WellFormed]

@[simp] theorem Name.aliasTerminals_map (f : α → β) (x : Option (Name α)) :
    Name.aliasTerminals (x.map (Name.map f)) = Name.aliasTerminals x := by
  cases x <;> rfl

theorem Name.forall_wellFormed_map (f : α → β) (x : Option (Name α)) :
    (∀ y ∈ x.map (Name.map f), y.WellFormed) ↔ ∀ y ∈ x, y.WellFormed := by
  cases x <;> simp

mutual

@[simp] theorem SelectionSet.terminals_map (f : α → β) :
    ∀ x : SelectionSet α, (x.map f).terminals = x.terminals
  | ⟨selections, _⟩ => by
    simp only [SelectionSet.map, SelectionSet.terminals, Selection.terminalsAll_map f selections]
termination_by structural x => x

theorem Selection.terminalsAll_map (f : α → β) :
    ∀ xs : List (Selection α),
      Selection.terminalsAll (Selection.mapAll f xs) = Selection.terminalsAll xs
  | [] => rfl
  | x :: xs => by
    simp only [Selection.mapAll, Selection.terminalsAll, Selection.terminals_map f x,
      Selection.terminalsAll_map f xs]
termination_by structural xs => xs

theorem Selection.terminals_map (f : α → β) :
    ∀ x : Selection α, (x.map f).terminals = x.terminals
  | .field x => Field.terminals_map f x
  | .spread x => FragmentSpread.terminals_map f x
  | .inline x => InlineFragment.terminals_map f x
termination_by structural x => x

theorem Field.terminals_map (f : α → β) : ∀ x : Field α, (x.map f).terminals = x.terminals
  | ⟨aliasName, name, arguments, directives, selectionSet, _⟩ => by
    simp only [Field.map, Field.terminals, Name.aliasTerminals_map, Name.terminals_map,
      parenthesizedTerminals_map (Argument.terminals_map f), List.flatMap_map,
      Directive.terminals_map, SelectionSet.terminalsOption_map f selectionSet]
termination_by structural x => x

theorem SelectionSet.terminalsOption_map (f : α → β) :
    ∀ x : Option (SelectionSet α),
      SelectionSet.terminalsOption (SelectionSet.mapOption f x) = SelectionSet.terminalsOption x
  | none => rfl
  | some x => SelectionSet.terminals_map f x
termination_by structural x => x

theorem InlineFragment.terminals_map (f : α → β) :
    ∀ x : InlineFragment α, (x.map f).terminals = x.terminals
  | ⟨typeCondition, directives, selectionSet, _⟩ => by
    simp only [InlineFragment.map, InlineFragment.terminals, NamedType.terminals_map,
      List.flatMap_map, Directive.terminals_map, SelectionSet.terminals_map f selectionSet]
termination_by structural x => x

end

mutual

@[simp] theorem SelectionSet.wellFormed_map (f : α → β) (degree : Degree) :
    ∀ x : SelectionSet α, (x.map f).WellFormed degree ↔ x.WellFormed degree
  | ⟨selections, _⟩ => by
    have hne : Selection.mapAll f selections ≠ [] ↔ selections ≠ [] := by simp
    exact and_congr hne (Selection.allWellFormed_map f degree selections)
termination_by structural x => x

theorem Selection.allWellFormed_map (f : α → β) (degree : Degree) :
    ∀ xs : List (Selection α),
      Selection.AllWellFormed degree (Selection.mapAll f xs) ↔ Selection.AllWellFormed degree xs
  | [] => Iff.rfl
  | x :: xs =>
    and_congr (Selection.wellFormed_map f degree x) (Selection.allWellFormed_map f degree xs)
termination_by structural xs => xs

theorem Selection.wellFormed_map (f : α → β) (degree : Degree) :
    ∀ x : Selection α, (x.map f).WellFormed degree ↔ x.WellFormed degree
  | .field x => Field.wellFormed_map f degree x
  | .spread x => FragmentSpread.wellFormed_map f degree x
  | .inline x => InlineFragment.wellFormed_map f degree x
termination_by structural x => x

theorem Field.wellFormed_map (f : α → β) (degree : Degree) :
    ∀ x : Field α, (x.map f).WellFormed degree ↔ x.WellFormed degree
  | ⟨aliasName, name, arguments, directives, selectionSet, _⟩ => by
    simp only [Field.map, Field.WellFormed, Name.wellFormed_map, Name.forall_wellFormed_map,
      List.forall_mem_map, Argument.wellFormed_map, Directive.wellFormed_map,
      SelectionSet.optionWellFormed_map f degree selectionSet]
termination_by structural x => x

theorem SelectionSet.optionWellFormed_map (f : α → β) (degree : Degree) :
    ∀ x : Option (SelectionSet α),
      SelectionSet.OptionWellFormed degree (SelectionSet.mapOption f x) ↔
        SelectionSet.OptionWellFormed degree x
  | none => Iff.rfl
  | some x => SelectionSet.wellFormed_map f degree x
termination_by structural x => x

theorem InlineFragment.wellFormed_map (f : α → β) (degree : Degree) :
    ∀ x : InlineFragment α, (x.map f).WellFormed degree ↔ x.WellFormed degree
  | ⟨typeCondition, directives, selectionSet, _⟩ => by
    simp only [InlineFragment.map, InlineFragment.WellFormed,
      SelectionSet.wellFormed_map f degree selectionSet, List.forall_mem_map,
      Directive.wellFormed_map]
    rfl
termination_by structural x => x

end

@[simp] theorem VariableDefinition.terminals_map (f : α → β) (x : VariableDefinition α) :
    (x.map f).terminals = x.terminals := by
  simp [VariableDefinition.map, VariableDefinition.terminals]

@[simp] theorem VariableDefinition.wellFormed_map (f : α → β) (degree : Degree)
    (x : VariableDefinition α) : (x.map f).WellFormed degree ↔ x.WellFormed degree := by
  simp [VariableDefinition.map, VariableDefinition.WellFormed, Variable.map, Variable.WellFormed,
    Name.map, Name.WellFormed]

@[simp] theorem OperationDefinition.terminals_map (f : α → β) (x : OperationDefinition α) :
    (x.map f).terminals = x.terminals := by
  obtain ⟨operation, _ | name, variableDefinitions, directives, selectionSet, tag⟩ := x
  · simp [OperationDefinition.map, OperationDefinition.terminals]
  · simp [OperationDefinition.map, OperationDefinition.terminals, List.flatMap_map,
      parenthesizedTerminals_map (VariableDefinition.terminals_map f)]

@[simp] theorem OperationDefinition.wellFormed_map (f : α → β) (degree : Degree)
    (x : OperationDefinition α) : (x.map f).WellFormed degree ↔ x.WellFormed degree := by
  simp [OperationDefinition.map, OperationDefinition.WellFormed, Name.map, Name.WellFormed]

@[simp] theorem FragmentDefinition.terminals_map (f : α → β) (x : FragmentDefinition α) :
    (x.map f).terminals = x.terminals := by
  simp [FragmentDefinition.map, FragmentDefinition.terminals, List.flatMap_map,
    Name.fragmentTerminals, Name.map]

@[simp] theorem FragmentDefinition.wellFormed_map (f : α → β) (degree : Degree)
    (x : FragmentDefinition α) : (x.map f).WellFormed degree ↔ x.WellFormed degree := by
  simp [FragmentDefinition.map, FragmentDefinition.WellFormed, Name.map, Name.WellFormed,
    NamedType.map, NamedType.WellFormed]

@[simp] theorem Definition.terminals_map (f : α → β) (x : Definition α) :
    (x.map f).terminals = x.terminals := by
  cases x <;> simp [Definition.map, Definition.terminals]

@[simp] theorem Definition.wellFormed_map (f : α → β) (degree : Degree) (x : Definition α) :
    (x.map f).WellFormed degree ↔ x.WellFormed degree := by
  cases x <;> simp [Definition.map, Definition.WellFormed]

@[simp] theorem Document.terminals_map (f : α → β) (x : Document α) :
    (x.map f).terminals = x.terminals := by
  simp [Document.map, Document.terminals, List.flatMap_map]

@[simp] theorem Document.wellFormed_map (f : α → β) (degree : Degree) (x : Document α) :
    (x.map f).WellFormed degree ↔ x.WellFormed degree := by
  simp [Document.map, Document.WellFormed]

@[simp] theorem Document.yield_map (f : α → β) (x : Document α) : (x.map f).yield = x.yield := by
  simp [Document.yield]

/-! ## The two degrees -/

theorem FragmentSpread.wellFormed_strict_iff (x : FragmentSpread α) :
    x.WellFormed .strict ↔ x.WellFormed .lax ∧ Terminal.AllPlain x.terminals := by
  simp [FragmentSpread.WellFormed, FragmentSpread.terminals,
    forall_strict_iff Directive.wellFormed_strict_iff, and_assoc]

@[simp] theorem Name.allPlain_aliasTerminals (x : Option (Name α)) :
    Terminal.AllPlain (Name.aliasTerminals x) := by
  cases x <;> simp [Name.aliasTerminals]

mutual

theorem SelectionSet.wellFormed_strict_iff :
    ∀ x : SelectionSet α,
      x.WellFormed .strict ↔ x.WellFormed .lax ∧ Terminal.AllPlain x.terminals
  | ⟨selections, _⟩ => by
    simp only [SelectionSet.WellFormed, SelectionSet.terminals,
      Selection.allWellFormed_strict_iff selections]
    simp [and_assoc]
termination_by structural x => x

theorem Selection.allWellFormed_strict_iff :
    ∀ xs : List (Selection α), Selection.AllWellFormed .strict xs ↔
      Selection.AllWellFormed .lax xs ∧ Terminal.AllPlain (Selection.terminalsAll xs)
  | [] => by simp
  | x :: xs => by
    simp only [Selection.AllWellFormed, Selection.terminalsAll,
      Selection.wellFormed_strict_iff x, Selection.allWellFormed_strict_iff xs,
      Terminal.allPlain_append]
    exact and_and_and_comm
termination_by structural xs => xs

theorem Selection.wellFormed_strict_iff :
    ∀ x : Selection α, x.WellFormed .strict ↔ x.WellFormed .lax ∧ Terminal.AllPlain x.terminals
  | .field x => Field.wellFormed_strict_iff x
  | .spread x => FragmentSpread.wellFormed_strict_iff x
  | .inline x => InlineFragment.wellFormed_strict_iff x
termination_by structural x => x

theorem Field.wellFormed_strict_iff :
    ∀ x : Field α, x.WellFormed .strict ↔ x.WellFormed .lax ∧ Terminal.AllPlain x.terminals
  | ⟨aliasName, name, arguments, directives, selectionSet, _⟩ => by
    simp only [Field.WellFormed, Field.terminals,
      SelectionSet.optionWellFormed_strict_iff selectionSet,
      forall_strict_iff Argument.wellFormed_strict_iff,
      forall_strict_iff Directive.wellFormed_strict_iff, Terminal.allPlain_append,
      allPlain_parenthesizedTerminals, Terminal.allPlain_flatMap, Name.allPlain_aliasTerminals,
      Name.allPlain_terminals, true_and]
    constructor
    · rintro ⟨halias, hname, ⟨hargs, hargs'⟩, ⟨hdirs, hdirs'⟩, hset, hset'⟩
      exact ⟨⟨halias, hname, hargs, hdirs, hset⟩, ⟨hargs', hdirs'⟩, hset'⟩
    · rintro ⟨⟨halias, hname, hargs, hdirs, hset⟩, ⟨hargs', hdirs'⟩, hset'⟩
      exact ⟨halias, hname, ⟨hargs, hargs'⟩, ⟨hdirs, hdirs'⟩, hset, hset'⟩
termination_by structural x => x

theorem SelectionSet.optionWellFormed_strict_iff :
    ∀ x : Option (SelectionSet α), SelectionSet.OptionWellFormed .strict x ↔
      SelectionSet.OptionWellFormed .lax x ∧ Terminal.AllPlain (SelectionSet.terminalsOption x)
  | none => by simp [SelectionSet.OptionWellFormed, SelectionSet.terminalsOption]
  | some x => SelectionSet.wellFormed_strict_iff x
termination_by structural x => x

theorem InlineFragment.wellFormed_strict_iff :
    ∀ x : InlineFragment α,
      x.WellFormed .strict ↔ x.WellFormed .lax ∧ Terminal.AllPlain x.terminals
  | ⟨typeCondition, directives, selectionSet, _⟩ => by
    simp only [InlineFragment.WellFormed, InlineFragment.terminals,
      SelectionSet.wellFormed_strict_iff selectionSet,
      forall_strict_iff Directive.wellFormed_strict_iff, Terminal.allPlain_cons,
      Terminal.allPlain_append, Terminal.allPlain_flatMap, NamedType.allPlain_terminals,
      Terminal.objection_bare, Terminal.objection_ofName, true_and]
    constructor
    · rintro ⟨htype, ⟨hdirs, hdirs'⟩, hset, hset'⟩
      exact ⟨⟨htype, hdirs, hset⟩, hdirs', hset'⟩
    · rintro ⟨⟨htype, hdirs, hset⟩, hdirs', hset'⟩
      exact ⟨htype, ⟨hdirs, hdirs'⟩, hset, hset'⟩
termination_by structural x => x

end

theorem VariableDefinition.wellFormed_strict_iff (x : VariableDefinition α) :
    x.WellFormed .strict ↔ x.WellFormed .lax ∧ Terminal.AllPlain x.terminals := by
  simp [VariableDefinition.WellFormed, VariableDefinition.terminals, Variable.terminals,
    Value.defaultWellFormed_strict_iff, and_assoc]

theorem OperationDefinition.wellFormed_strict_iff (x : OperationDefinition α) :
    x.WellFormed .strict ↔ x.WellFormed .lax ∧ Terminal.AllPlain x.terminals := by
  obtain ⟨operation, _ | name, variableDefinitions, directives, selectionSet, tag⟩ := x
  · simp only [OperationDefinition.WellFormed, OperationDefinition.terminals,
      SelectionSet.wellFormed_strict_iff selectionSet]
    constructor
    · rintro ⟨hbare, hname, hvars, hdirs, hset, hset'⟩
      obtain ⟨rfl, rfl, rfl⟩ := hbare trivial
      exact ⟨⟨hbare, hname, by simp, by simp, hset⟩, hset'⟩
    · rintro ⟨⟨hbare, hname, hvars, hdirs, hset⟩, hset'⟩
      obtain ⟨rfl, rfl, rfl⟩ := hbare trivial
      exact ⟨hbare, hname, by simp, by simp, hset, hset'⟩
  · simp only [OperationDefinition.WellFormed, OperationDefinition.terminals,
      SelectionSet.wellFormed_strict_iff selectionSet,
      forall_strict_iff VariableDefinition.wellFormed_strict_iff,
      forall_strict_iff Directive.wellFormed_strict_iff, Terminal.allPlain_cons,
      Terminal.allPlain_append, Terminal.allPlain_flatMap, allPlain_parenthesizedTerminals,
      Name.allPlain_terminals, Terminal.objection_ofName, true_and]
    constructor
    · rintro ⟨hbare, hname, ⟨hvars, hvars'⟩, ⟨hdirs, hdirs'⟩, hset, hset'⟩
      exact ⟨⟨hbare, hname, hvars, hdirs, hset⟩, ⟨hvars', hdirs'⟩, hset'⟩
    · rintro ⟨⟨hbare, hname, hvars, hdirs, hset⟩, ⟨hvars', hdirs'⟩, hset'⟩
      exact ⟨hbare, hname, ⟨hvars, hvars'⟩, ⟨hdirs, hdirs'⟩, hset, hset'⟩

theorem FragmentDefinition.wellFormed_strict_iff (x : FragmentDefinition α) :
    x.WellFormed .strict ↔ x.WellFormed .lax ∧ Terminal.AllPlain x.terminals := by
  have hobjection : FragmentDefinition.objection? x.name.value = none ↔ x.name.value ≠ "on" := by
    simp [FragmentDefinition.objection?]
  simp only [FragmentDefinition.WellFormed, FragmentDefinition.terminals, Name.fragmentTerminals,
    x.selectionSet.wellFormed_strict_iff, forall_strict_iff Directive.wellFormed_strict_iff,
    Terminal.allPlain_cons, Terminal.allPlain_append, Terminal.allPlain_flatMap,
    Terminal.allPlain_nil, NamedType.allPlain_terminals, Terminal.objection_ofName, hobjection,
    true_and, and_true, forall_const, reduceCtorEq, false_implies]
  constructor
  · rintro ⟨hname, hon, htype, ⟨hdirs, hdirs'⟩, hset, hset'⟩
    exact ⟨⟨hname, htype, hdirs, hset⟩, ⟨hon, hdirs'⟩, hset'⟩
  · rintro ⟨⟨hname, htype, hdirs, hset⟩, ⟨hon, hdirs'⟩, hset'⟩
    exact ⟨hname, hon, htype, ⟨hdirs, hdirs'⟩, hset, hset'⟩

theorem Definition.wellFormed_strict_iff (x : Definition α) :
    x.WellFormed .strict ↔ x.WellFormed .lax ∧ Terminal.AllPlain x.terminals := by
  cases x with
  | operation x => exact x.wellFormed_strict_iff
  | fragment x => exact x.wellFormed_strict_iff

theorem Document.wellFormed_strict_iff (x : Document α) :
    x.WellFormed .strict ↔ x.WellFormed .lax ∧ Terminal.AllPlain x.terminals := by
  simp [Document.WellFormed, Document.terminals,
    forall_strict_iff Definition.wellFormed_strict_iff, and_assoc]

end GraphQLSyntax
