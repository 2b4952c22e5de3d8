import GraphQLSyntax.Proofs.Yield.Value
import GraphQLSyntax.Tree.Schema

/-!
# What schema documents are written with

The terminals of the six sorts of definitions, and when these are well formed.
Objections come in only through default values.
-/

namespace GraphQLSyntax

variable {α β : Type}

/-! ## Terminals -/

def ArgumentDefinition.terminals (x : ArgumentDefinition α) : List Terminal :=
  x.name.terminals ++ .bare .colon :: x.type.terminals ++ Value.defaultTerminals x.defaultValue

def FieldDefinition.terminals (x : FieldDefinition α) : List Terminal :=
  x.name.terminals ++ parenthesizedTerminals ArgumentDefinition.terminals x.arguments ++
    .bare .colon :: x.type.terminals

def InputFieldDefinition.terminals (x : InputFieldDefinition α) : List Terminal :=
  x.name.terminals ++ .bare .colon :: x.type.terminals ++ Value.defaultTerminals x.defaultValue

/-- Interfaces after a keyword, or nothing if there are none. -/
def NamedType.interfacesTerminals (xs : List (NamedType α)) : List Terminal :=
  if xs.isEmpty then [] else .ofName "implements" :: xs.flatMap NamedType.terminals

/-- Items in braces. -/
def bracedTerminals (write : β → List Terminal) (xs : List β) : List Terminal :=
  .bare .braceOpen :: xs.flatMap write ++ [.bare .braceClose]

def TypeDefinition.terminals (x : TypeDefinition α) : List Terminal :=
  .ofName "type" :: x.name.terminals ++ NamedType.interfacesTerminals x.interfaces ++
    bracedTerminals FieldDefinition.terminals x.fields

def InterfaceDefinition.terminals (x : InterfaceDefinition α) : List Terminal :=
  .ofName "interface" :: x.name.terminals ++ bracedTerminals FieldDefinition.terminals x.fields

/-- Members after the first, each after a bar. -/
def NamedType.barTerminals (xs : List (NamedType α)) : List Terminal :=
  xs.flatMap fun x => .bare .pipe :: x.terminals

/-- The members of a union, with bars between them. -/
def NamedType.membersTerminals : List (NamedType α) → List Terminal
  | [] => []
  | x :: xs => x.terminals ++ NamedType.barTerminals xs

def UnionDefinition.terminals (x : UnionDefinition α) : List Terminal :=
  .ofName "union" :: x.name.terminals ++ .bare .equals :: NamedType.membersTerminals x.types

def ScalarDefinition.terminals (x : ScalarDefinition α) : List Terminal :=
  .ofName "scalar" :: x.name.terminals

def EnumValueDefinition.terminals (x : EnumValueDefinition α) : List Terminal :=
  x.name.terminals

def EnumDefinition.terminals (x : EnumDefinition α) : List Terminal :=
  .ofName "enum" :: x.name.terminals ++ bracedTerminals EnumValueDefinition.terminals x.values

def InputObjectDefinition.terminals (x : InputObjectDefinition α) : List Terminal :=
  .ofName "input" :: x.name.terminals ++
    bracedTerminals InputFieldDefinition.terminals x.fields

def SchemaDefinition.terminals : SchemaDefinition α → List Terminal
  | .type x => x.terminals
  | .interface x => x.terminals
  | .union x => x.terminals
  | .scalar x => x.terminals
  | .enum x => x.terminals
  | .inputObject x => x.terminals

def SchemaDocument.terminals (x : SchemaDocument α) : List Terminal :=
  x.definitions.flatMap SchemaDefinition.terminals

/-- The lexemes that a schema document is written with, in order. -/
def SchemaDocument.yield (x : SchemaDocument α) : List Lexeme :=
  x.terminals.map Terminal.lexeme

/-! ## Well-formed trees -/

def ArgumentDefinition.WellFormed (degree : Degree) (x : ArgumentDefinition α) : Prop :=
  x.name.WellFormed ∧ x.type.WellFormed ∧ Value.DefaultWellFormed degree x.defaultValue

def FieldDefinition.WellFormed (degree : Degree) (x : FieldDefinition α) : Prop :=
  x.name.WellFormed ∧ (∀ y ∈ x.arguments, y.WellFormed degree) ∧ x.type.WellFormed

def InputFieldDefinition.WellFormed (degree : Degree) (x : InputFieldDefinition α) : Prop :=
  x.name.WellFormed ∧ x.type.WellFormed ∧ Value.DefaultWellFormed degree x.defaultValue

def TypeDefinition.WellFormed (degree : Degree) (x : TypeDefinition α) : Prop :=
  x.name.WellFormed ∧ (∀ y ∈ x.interfaces, y.WellFormed) ∧ ∀ y ∈ x.fields, y.WellFormed degree

def InterfaceDefinition.WellFormed (degree : Degree) (x : InterfaceDefinition α) : Prop :=
  x.name.WellFormed ∧ ∀ y ∈ x.fields, y.WellFormed degree

/-- A union has at least one member. -/
def UnionDefinition.WellFormed (x : UnionDefinition α) : Prop :=
  x.name.WellFormed ∧ x.types ≠ [] ∧ ∀ y ∈ x.types, y.WellFormed

def ScalarDefinition.WellFormed (x : ScalarDefinition α) : Prop :=
  x.name.WellFormed

def EnumValueDefinition.WellFormed (x : EnumValueDefinition α) : Prop :=
  x.name.WellFormed

/-- An enum has at least one value. -/
def EnumDefinition.WellFormed (x : EnumDefinition α) : Prop :=
  x.name.WellFormed ∧ x.values ≠ [] ∧ ∀ y ∈ x.values, y.WellFormed

def InputObjectDefinition.WellFormed (degree : Degree) (x : InputObjectDefinition α) : Prop :=
  x.name.WellFormed ∧ ∀ y ∈ x.fields, y.WellFormed degree

def SchemaDefinition.WellFormed (degree : Degree) : SchemaDefinition α → Prop
  | .type x => x.WellFormed degree
  | .interface x => x.WellFormed degree
  | .union x => x.WellFormed
  | .scalar x => x.WellFormed
  | .enum x => x.WellFormed
  | .inputObject x => x.WellFormed degree

/-- There is at least one definition. -/
def SchemaDocument.WellFormed (degree : Degree) (x : SchemaDocument α) : Prop :=
  x.definitions ≠ [] ∧ ∀ y ∈ x.definitions, y.WellFormed degree

/-! ## Tags -/

@[simp] theorem ArgumentDefinition.terminals_map (f : α → β) (x : ArgumentDefinition α) :
    (x.map f).terminals = x.terminals := by
  simp [ArgumentDefinition.map, ArgumentDefinition.terminals]

@[simp] theorem ArgumentDefinition.wellFormed_map (f : α → β) (degree : Degree)
    (x : ArgumentDefinition α) : (x.map f).WellFormed degree ↔ x.WellFormed degree := by
  simp [ArgumentDefinition.map, ArgumentDefinition.WellFormed]

@[simp] theorem FieldDefinition.terminals_map (f : α → β) (x : FieldDefinition α) :
    (x.map f).terminals = x.terminals := by
  simp [FieldDefinition.map, FieldDefinition.terminals,
    parenthesizedTerminals_map (ArgumentDefinition.terminals_map f)]

@[simp] theorem FieldDefinition.wellFormed_map (f : α → β) (degree : Degree)
    (x : FieldDefinition α) : (x.map f).WellFormed degree ↔ x.WellFormed degree := by
  simp [FieldDefinition.map, FieldDefinition.WellFormed]

@[simp] theorem InputFieldDefinition.terminals_map (f : α → β) (x : InputFieldDefinition α) :
    (x.map f).terminals = x.terminals := by
  simp [InputFieldDefinition.map, InputFieldDefinition.terminals]

@[simp] theorem InputFieldDefinition.wellFormed_map (f : α → β) (degree : Degree)
    (x : InputFieldDefinition α) : (x.map f).WellFormed degree ↔ x.WellFormed degree := by
  simp [InputFieldDefinition.map, InputFieldDefinition.WellFormed]

@[simp] theorem NamedType.wellFormed_map (f : α → β) (x : NamedType α) :
    (x.map f).WellFormed ↔ x.WellFormed :=
  Iff.rfl

@[simp] theorem NamedType.interfacesTerminals_map (f : α → β) (xs : List (NamedType α)) :
    NamedType.interfacesTerminals (xs.map (NamedType.map f)) =
      NamedType.interfacesTerminals xs := by
  simp [NamedType.interfacesTerminals, List.flatMap_map]

/-- Items that are written in the same way after a change are so in braces. -/
theorem bracedTerminals_map {γ : Type} {write : β → List Terminal}
    {write' : γ → List Terminal} {g : β → γ} (h : ∀ x, write' (g x) = write x) (xs : List β) :
    bracedTerminals write' (xs.map g) = bracedTerminals write xs := by
  simp [bracedTerminals, List.flatMap_map, h]

@[simp] theorem TypeDefinition.terminals_map (f : α → β) (x : TypeDefinition α) :
    (x.map f).terminals = x.terminals := by
  simp [TypeDefinition.map, TypeDefinition.terminals,
    bracedTerminals_map (FieldDefinition.terminals_map f)]

@[simp] theorem TypeDefinition.wellFormed_map (f : α → β) (degree : Degree)
    (x : TypeDefinition α) : (x.map f).WellFormed degree ↔ x.WellFormed degree := by
  simp [TypeDefinition.map, TypeDefinition.WellFormed]

@[simp] theorem InterfaceDefinition.terminals_map (f : α → β) (x : InterfaceDefinition α) :
    (x.map f).terminals = x.terminals := by
  simp [InterfaceDefinition.map, InterfaceDefinition.terminals,
    bracedTerminals_map (FieldDefinition.terminals_map f)]

@[simp] theorem InterfaceDefinition.wellFormed_map (f : α → β) (degree : Degree)
    (x : InterfaceDefinition α) : (x.map f).WellFormed degree ↔ x.WellFormed degree := by
  simp [InterfaceDefinition.map, InterfaceDefinition.WellFormed]

@[simp] theorem NamedType.membersTerminals_map (f : α → β) (xs : List (NamedType α)) :
    NamedType.membersTerminals (xs.map (NamedType.map f)) = NamedType.membersTerminals xs := by
  cases xs <;> simp [NamedType.membersTerminals, NamedType.barTerminals, List.flatMap_map]

@[simp] theorem UnionDefinition.terminals_map (f : α → β) (x : UnionDefinition α) :
    (x.map f).terminals = x.terminals := by
  simp [UnionDefinition.map, UnionDefinition.terminals]

@[simp] theorem UnionDefinition.wellFormed_map (f : α → β) (x : UnionDefinition α) :
    (x.map f).WellFormed ↔ x.WellFormed := by
  simp [UnionDefinition.map, UnionDefinition.WellFormed]

@[simp] theorem ScalarDefinition.terminals_map (f : α → β) (x : ScalarDefinition α) :
    (x.map f).terminals = x.terminals :=
  rfl

@[simp] theorem ScalarDefinition.wellFormed_map (f : α → β) (x : ScalarDefinition α) :
    (x.map f).WellFormed ↔ x.WellFormed :=
  Iff.rfl

@[simp] theorem EnumValueDefinition.terminals_map (f : α → β) (x : EnumValueDefinition α) :
    (x.map f).terminals = x.terminals :=
  rfl

@[simp] theorem EnumValueDefinition.wellFormed_map (f : α → β) (x : EnumValueDefinition α) :
    (x.map f).WellFormed ↔ x.WellFormed :=
  Iff.rfl

@[simp] theorem EnumDefinition.terminals_map (f : α → β) (x : EnumDefinition α) :
    (x.map f).terminals = x.terminals := by
  simp [EnumDefinition.map, EnumDefinition.terminals,
    bracedTerminals_map (EnumValueDefinition.terminals_map f)]

@[simp] theorem EnumDefinition.wellFormed_map (f : α → β) (x : EnumDefinition α) :
    (x.map f).WellFormed ↔ x.WellFormed := by
  simp [EnumDefinition.map, EnumDefinition.WellFormed]

@[simp] theorem InputObjectDefinition.terminals_map (f : α → β) (x : InputObjectDefinition α) :
    (x.map f).terminals = x.terminals := by
  simp [InputObjectDefinition.map, InputObjectDefinition.terminals,
    bracedTerminals_map (InputFieldDefinition.terminals_map f)]

@[simp] theorem InputObjectDefinition.wellFormed_map (f : α → β) (degree : Degree)
    (x : InputObjectDefinition α) : (x.map f).WellFormed degree ↔ x.WellFormed degree := by
  simp [InputObjectDefinition.map, InputObjectDefinition.WellFormed]

@[simp] theorem SchemaDefinition.terminals_map (f : α → β) (x : SchemaDefinition α) :
    (x.map f).terminals = x.terminals := by
  cases x <;> simp [SchemaDefinition.map, SchemaDefinition.terminals]

@[simp] theorem SchemaDefinition.wellFormed_map (f : α → β) (degree : Degree)
    (x : SchemaDefinition α) : (x.map f).WellFormed degree ↔ x.WellFormed degree := by
  cases x <;> simp [SchemaDefinition.map, SchemaDefinition.WellFormed]

@[simp] theorem SchemaDocument.terminals_map (f : α → β) (x : SchemaDocument α) :
    (x.map f).terminals = x.terminals := by
  simp [SchemaDocument.map, SchemaDocument.terminals, List.flatMap_map]

@[simp] theorem SchemaDocument.wellFormed_map (f : α → β) (degree : Degree)
    (x : SchemaDocument α) : (x.map f).WellFormed degree ↔ x.WellFormed degree := by
  simp [SchemaDocument.map, SchemaDocument.WellFormed]

@[simp] theorem SchemaDocument.yield_map (f : α → β) (x : SchemaDocument α) :
    (x.map f).yield = x.yield := by
  simp [SchemaDocument.yield]

/-! ## The two degrees -/

theorem ArgumentDefinition.wellFormed_strict_iff (x : ArgumentDefinition α) :
    x.WellFormed .strict ↔ x.WellFormed .lax ∧ Terminal.AllPlain x.terminals := by
  simp [ArgumentDefinition.WellFormed, ArgumentDefinition.terminals,
    Value.defaultWellFormed_strict_iff, and_assoc]

theorem FieldDefinition.wellFormed_strict_iff (x : FieldDefinition α) :
    x.WellFormed .strict ↔ x.WellFormed .lax ∧ Terminal.AllPlain x.terminals := by
  simp [FieldDefinition.WellFormed, FieldDefinition.terminals,
    forall_strict_iff ArgumentDefinition.wellFormed_strict_iff, and_assoc, and_comm]

theorem InputFieldDefinition.wellFormed_strict_iff (x : InputFieldDefinition α) :
    x.WellFormed .strict ↔ x.WellFormed .lax ∧ Terminal.AllPlain x.terminals := by
  simp [InputFieldDefinition.WellFormed, InputFieldDefinition.terminals,
    Value.defaultWellFormed_strict_iff, and_assoc]

@[simp] theorem allPlain_bracedTerminals (write : β → List Terminal) (xs : List β) :
    Terminal.AllPlain (bracedTerminals write xs) ↔ ∀ x ∈ xs, Terminal.AllPlain (write x) := by
  simp [bracedTerminals]

@[simp] theorem NamedType.allPlain_interfacesTerminals (xs : List (NamedType α)) :
    Terminal.AllPlain (NamedType.interfacesTerminals xs) := by
  cases xs <;> simp [NamedType.interfacesTerminals]

@[simp] theorem NamedType.allPlain_barTerminals (xs : List (NamedType α)) :
    Terminal.AllPlain (NamedType.barTerminals xs) := by
  simp [NamedType.barTerminals]

theorem TypeDefinition.wellFormed_strict_iff (x : TypeDefinition α) :
    x.WellFormed .strict ↔ x.WellFormed .lax ∧ Terminal.AllPlain x.terminals := by
  simp [TypeDefinition.WellFormed, TypeDefinition.terminals,
    forall_strict_iff FieldDefinition.wellFormed_strict_iff, and_assoc]

theorem InterfaceDefinition.wellFormed_strict_iff (x : InterfaceDefinition α) :
    x.WellFormed .strict ↔ x.WellFormed .lax ∧ Terminal.AllPlain x.terminals := by
  simp [InterfaceDefinition.WellFormed, InterfaceDefinition.terminals,
    forall_strict_iff FieldDefinition.wellFormed_strict_iff, and_assoc]

theorem UnionDefinition.allPlain_terminals (x : UnionDefinition α) :
    Terminal.AllPlain x.terminals := by
  obtain ⟨name, _ | ⟨y, ys⟩, tag⟩ := x <;>
    simp [UnionDefinition.terminals, NamedType.membersTerminals]

theorem EnumDefinition.allPlain_terminals (x : EnumDefinition α) :
    Terminal.AllPlain x.terminals := by
  simp [EnumDefinition.terminals, EnumValueDefinition.terminals]

theorem InputObjectDefinition.wellFormed_strict_iff (x : InputObjectDefinition α) :
    x.WellFormed .strict ↔ x.WellFormed .lax ∧ Terminal.AllPlain x.terminals := by
  simp [InputObjectDefinition.WellFormed, InputObjectDefinition.terminals,
    forall_strict_iff InputFieldDefinition.wellFormed_strict_iff, and_assoc]

theorem SchemaDefinition.wellFormed_strict_iff (x : SchemaDefinition α) :
    x.WellFormed .strict ↔ x.WellFormed .lax ∧ Terminal.AllPlain x.terminals := by
  cases x with
  | type x => exact x.wellFormed_strict_iff
  | interface x => exact x.wellFormed_strict_iff
  | union x => exact (and_iff_left x.allPlain_terminals).symm
  | scalar x =>
    simp [SchemaDefinition.WellFormed, SchemaDefinition.terminals, ScalarDefinition.terminals]
  | enum x => exact (and_iff_left x.allPlain_terminals).symm
  | inputObject x => exact x.wellFormed_strict_iff

theorem SchemaDocument.wellFormed_strict_iff (x : SchemaDocument α) :
    x.WellFormed .strict ↔ x.WellFormed .lax ∧ Terminal.AllPlain x.terminals := by
  simp [SchemaDocument.WellFormed, SchemaDocument.terminals,
    forall_strict_iff SchemaDefinition.wellFormed_strict_iff, and_assoc]

end GraphQLSyntax
