import Mathlib.Data.List.Nodup
import Mathlib.Tactic.MkIffOfInductiveProp
import GraphQLSyntax.Proofs.Yield.Executable
import GraphQLSyntax.Proofs.Yield.Schema
import GraphQLSyntax.Tree.Order

/-!
# What the grammar asks of nodes

A tree is well formed exactly if each of its nodes satisfies what the grammar asks of a
node of its kind: how its text is spelled, what it must not be without, and what must not
occur in it.  Only operations are asked for something that deleting a child may take from
them: without a name, they are queries without variables and directives.
-/

namespace GraphQLSyntax

variable {α : Type}

/-- An operation without a name is a query without variables and directives. -/
def OperationDefinition.NamedIfNeeded (x : OperationDefinition α) : Prop :=
  x.name = none → x.operation = .query ∧ x.variableDefinitions = [] ∧ x.directives = []

namespace Node

/-- What the grammar asks of a node, whether or not operations have names. -/
def Grammatical : Node α → Prop
  | .name x => isName x.value = true
  | .document x => x.definitions ≠ []
  | .variableDefinition x => ∀ value ∈ x.defaultValue, value.isConst = true
  | .selectionSet x => x.selections ≠ []
  | .fragmentSpread x => x.name.value ≠ "on"
  | .fragmentDefinition x => x.name.value ≠ "on"
  | .intValue x => IsInteger x.text.toList
  | .floatValue x => IsFloat x.text.toList
  | .enumValue x => isName x.text = true ∧ x.text ≠ "true" ∧ x.text ≠ "false"
  | .objectValue x => (x.fields.map fun field => field.name.value).Nodup
  | .schemaDocument x => x.definitions ≠ []
  | .argumentDefinition x => ∀ value ∈ x.defaultValue, value.isConst = true
  | .unionDefinition x => x.types ≠ []
  | .enumDefinition x => x.values ≠ []
  | .inputFieldDefinition x => ∀ value ∈ x.defaultValue, value.isConst = true
  | .operationDefinition _ | .variableReference _ | .field _ | .argument _ | .inlineFragment _
  | .stringValue _ | .booleanValue _ | .listValue _ | .objectField _ | .directive _
  | .namedType _ | .listType _ | .nonNullType _ | .typeDefinition _ | .fieldDefinition _
  | .interfaceDefinition _ | .scalarDefinition _ | .enumValueDefinition _
  | .inputObjectDefinition _ => True

/-- If the node is an operation, it has a name where it needs one. -/
def NamedIfNeeded (n : Node α) : Prop :=
  ∀ x, n = .operationDefinition x → x.NamedIfNeeded

/-- The tree is well formed, in the strict degree. -/
def WellFormed : Node α → Prop
  | .name x => x.WellFormed
  | .document x => x.WellFormed .strict
  | .operationDefinition x => x.WellFormed .strict
  | .variableDefinition x => x.WellFormed .strict
  | .variableReference x => x.WellFormed
  | .selectionSet x => x.WellFormed .strict
  | .field x => x.WellFormed .strict
  | .argument x => x.WellFormed .strict
  | .fragmentSpread x => x.WellFormed .strict
  | .inlineFragment x => x.WellFormed .strict
  | .fragmentDefinition x => x.WellFormed .strict
  | .intValue x => (Value.int x).WellFormed .strict
  | .floatValue x => (Value.float x).WellFormed .strict
  | .stringValue x => (Value.string x).WellFormed .strict
  | .booleanValue x => (Value.boolean x).WellFormed .strict
  | .enumValue x => (Value.enum x).WellFormed .strict
  | .listValue x => x.WellFormed .strict
  | .objectValue x => x.WellFormed .strict
  | .objectField x => x.WellFormed .strict
  | .directive x => x.WellFormed .strict
  | .namedType x => x.WellFormed
  | .listType x => x.WellFormed
  | .nonNullType x => x.WellFormed
  | .schemaDocument x => x.WellFormed .strict
  | .typeDefinition x => x.WellFormed .strict
  | .fieldDefinition x => x.WellFormed .strict
  | .argumentDefinition x => x.WellFormed .strict
  | .interfaceDefinition x => x.WellFormed .strict
  | .unionDefinition x => x.WellFormed
  | .scalarDefinition x => x.WellFormed
  | .enumDefinition x => x.WellFormed
  | .enumValueDefinition x => x.WellFormed
  | .inputObjectDefinition x => x.WellFormed .strict
  | .inputFieldDefinition x => x.WellFormed .strict

end Node

/-- A part is well formed as the node that it is. -/
class Part.Formed (β : Type → Type) [∀ α, SizeOf (β α)] [Part β]
    (wellFormed : outParam (∀ {α : Type}, β α → Prop)) : Prop where
  wellFormed_toNode {α : Type} (x : β α) : (Part.toNode x).WellFormed ↔ wellFormed x

namespace Part.Formed

instance : Formed Name Name.WellFormed := ⟨fun _ => Iff.rfl⟩
instance : Formed Variable Variable.WellFormed := ⟨fun _ => Iff.rfl⟩
instance : Formed NamedType NamedType.WellFormed := ⟨fun _ => Iff.rfl⟩
instance : Formed Argument (Argument.WellFormed .strict) := ⟨fun _ => Iff.rfl⟩
instance : Formed Directive (Directive.WellFormed .strict) := ⟨fun _ => Iff.rfl⟩
instance : Formed SelectionSet (SelectionSet.WellFormed .strict) := ⟨fun _ => Iff.rfl⟩
instance : Formed VariableDefinition (VariableDefinition.WellFormed .strict) :=
  ⟨fun _ => Iff.rfl⟩
instance : Formed ObjectField (ObjectField.WellFormed .strict) := ⟨fun _ => Iff.rfl⟩
instance : Formed FieldDefinition (FieldDefinition.WellFormed .strict) := ⟨fun _ => Iff.rfl⟩
instance : Formed ArgumentDefinition (ArgumentDefinition.WellFormed .strict) :=
  ⟨fun _ => Iff.rfl⟩
instance : Formed InputFieldDefinition (InputFieldDefinition.WellFormed .strict) :=
  ⟨fun _ => Iff.rfl⟩
instance : Formed EnumValueDefinition EnumValueDefinition.WellFormed := ⟨fun _ => Iff.rfl⟩
instance : Formed TypeRef TypeRef.WellFormed := ⟨fun x => by cases x <;> rfl⟩
instance : Formed NullableTypeRef NullableTypeRef.WellFormed := ⟨fun x => by cases x <;> rfl⟩
instance : Formed Value (Value.WellFormed .strict) := ⟨fun x => by cases x <;> rfl⟩
instance : Formed Selection (Selection.WellFormed .strict) := ⟨fun x => by cases x <;> rfl⟩
instance : Formed Definition (Definition.WellFormed .strict) := ⟨fun x => by cases x <;> rfl⟩
instance : Formed SchemaDefinition (SchemaDefinition.WellFormed .strict) :=
  ⟨fun x => by cases x <;> rfl⟩

end Part.Formed

namespace Slot

variable {β : Type → Type} [∀ α, SizeOf (β α)] [Part β]
  {wellFormed : ∀ {α : Type}, β α → Prop} [Part.Formed β wellFormed]

theorem wellFormed_one (x : β α) :
    (∀ n ∈ (one x).nodes, n.WellFormed) ↔ wellFormed x := by
  rw [one, List.forall_mem_singleton, Part.Formed.wellFormed_toNode]

theorem wellFormed_many (xs : List (β α)) :
    (∀ n ∈ (many xs).nodes, n.WellFormed) ↔ ∀ x ∈ xs, wellFormed x := by
  rw [many, List.forall_mem_map]
  exact forall₂_congr fun x _ => Part.Formed.wellFormed_toNode x

theorem wellFormed_optional (x : Option (β α)) :
    (∀ n ∈ (optional x).nodes, n.WellFormed) ↔ ∀ y ∈ x, wellFormed y := by
  refine (wellFormed_many x.toList).trans ?_
  simp only [Option.mem_toList, Option.mem_def]

theorem wellFormed_atLeastOne (xs : List (β α)) :
    (∀ n ∈ (atLeastOne xs).nodes, n.WellFormed) ↔ ∀ x ∈ xs, wellFormed x :=
  wellFormed_many xs

end Slot

/-- A default value is well formed and holds no variable. -/
theorem Value.defaultWellFormed_iff (degree : Degree) (x : Option (Value α)) :
    Value.DefaultWellFormed degree x ↔
      (∀ value ∈ x, value.isConst = true) ∧ ∀ value ∈ x, value.WellFormed degree := by
  constructor
  · intro h
    exact ⟨fun value hvalue => (h value hvalue).2, fun value hvalue => (h value hvalue).1⟩
  · rintro ⟨hconst, hform⟩ value hvalue
    exact ⟨hform value hvalue, hconst value hvalue⟩

namespace Node

/-- A tree is well formed if the grammar is content with its root and its subtrees are well
formed. -/
theorem wellFormed_iff (n : Node α) :
    n.WellFormed ↔ n.Grammatical ∧ n.NamedIfNeeded ∧ ∀ c ∈ n.children, c.WellFormed := by
  cases n <;>
    simp only [children, slots, List.flatMap_cons, List.flatMap_nil, List.append_nil,
      List.forall_mem_append, List.not_mem_nil, false_implies, implies_true, and_true,
      Slot.wellFormed_one, Slot.wellFormed_many, Slot.wellFormed_optional,
      Slot.wellFormed_atLeastOne] <;>
    simp only [Grammatical, NamedIfNeeded, WellFormed, reduceCtorEq, operationDefinition.injEq,
      forall_eq', false_implies, implies_true, true_and, and_true]
  case selectionSet x =>
    cases x
    simp [SelectionSet.WellFormed]
  case field x =>
    obtain ⟨_, _, _, _, selectionSet, _⟩ := x
    cases selectionSet <;> simp [Field.WellFormed, SelectionSet.OptionWellFormed]
  case listValue x =>
    cases x
    simp [ListValue.WellFormed]
  case objectValue x =>
    cases x
    simp [ObjectValue.WellFormed]
  case inlineFragment x | objectField x | listType x | nonNullType x =>
    cases x
    rfl
  -- what is asked of the node itself is among what is asked of its children
  case variableDefinition x | argumentDefinition x | inputFieldDefinition x =>
    simp only [VariableDefinition.WellFormed, ArgumentDefinition.WellFormed,
      InputFieldDefinition.WellFormed, Value.defaultWellFormed_iff, and_left_comm]
  case fragmentSpread x => simp only [FragmentSpread.WellFormed, and_left_comm]
  case fragmentDefinition x =>
    simp only [FragmentDefinition.WellFormed, forall_const, and_left_comm]
  case unionDefinition x | enumDefinition x => exact and_left_comm
  all_goals rfl

/-- A tree is well formed exactly if the grammar is content with all of its nodes. -/
theorem wellFormed_iff_forall_mem (n : Node α) :
    n.WellFormed ↔ ∀ m ∈ n.preorder, m.Grammatical ∧ m.NamedIfNeeded := by
  induction n using Node.inductionOn with
  | step n ih =>
    rw [wellFormed_iff, preorder_eq, List.forall_mem_cons, List.forall_mem_flatMap, and_assoc]
    exact and_congr_right fun _ => and_congr_right fun _ => forall₂_congr ih

end Node

/-! ## Operations -/

namespace Node

/-- What may stand below a definition is neither a document nor an operation. -/
def IsInner (n : Node α) : Prop :=
  n.kind ≠ .document ∧ n.kind ≠ .operationDefinition

theorem isInner_value (x : Value α) : IsInner (Part.toNode x) := by
  cases x <;> exact ⟨nofun, nofun⟩

theorem isInner_selection (x : Selection α) : IsInner (Part.toNode x) := by
  cases x <;> exact ⟨nofun, nofun⟩

theorem isInner_typeRef (x : TypeRef α) : IsInner (Part.toNode x) := by
  cases x <;> exact ⟨nofun, nofun⟩

theorem isInner_nullableTypeRef (x : NullableTypeRef α) : IsInner (Part.toNode x) := by
  cases x <;> exact ⟨nofun, nofun⟩

theorem isInner_schemaDefinition (x : SchemaDefinition α) : IsInner (Part.toNode x) := by
  cases x <;> exact ⟨nofun, nofun⟩

theorem isInner_of_mem_children {n : Node α} (hn : n.kind ≠ .document) :
    ∀ c ∈ n.children, c.IsInner := by
  cases n
  case document => exact absurd rfl hn
  all_goals
    simp only [children, slots, Slot.one, Slot.many, Slot.optional, Slot.atLeastOne,
      List.flatMap_cons, List.flatMap_nil, List.append_nil, List.forall_mem_append,
      List.forall_mem_singleton, List.forall_mem_map, List.not_mem_nil, false_implies,
      implies_true, and_true, isInner_value, isInner_selection, isInner_typeRef,
      isInner_nullableTypeRef, isInner_schemaDefinition]
  all_goals simp [Part.toNode, IsInner, kind]

theorem isInner_of_mem_preorder {n : Node α} (hn : n.IsInner) : ∀ m ∈ n.preorder, m.IsInner := by
  induction n using Node.inductionOn with
  | step n ih =>
    rw [preorder_eq, List.forall_mem_cons, List.forall_mem_flatMap]
    exact ⟨hn, fun c hc => ih c hc (isInner_of_mem_children hn.1 c hc)⟩

/-- The operations of a document are among its definitions. -/
theorem operationDefinition_mem_preorder {x : Document α} {y : OperationDefinition α} :
    operationDefinition y ∈ (document x).preorder ↔ .operation y ∈ x.definitions := by
  have hchildren : (document x).children = x.definitions.map Part.toNode :=
    List.flatMap_singleton ..
  rw [preorder_eq, List.mem_cons, List.mem_flatMap, hchildren]
  constructor
  · rintro (heq | ⟨c, hc, hy⟩)
    · cases heq
    obtain ⟨z, hz, rfl⟩ := List.mem_map.1 hc
    have hkind : (Part.toNode z : Node α).kind ≠ .document := by cases z <;> nofun
    rw [preorder_eq, List.mem_cons, List.mem_flatMap] at hy
    obtain heq | ⟨b, hb, hy⟩ := hy
    · cases z with
      | operation z =>
        cases heq
        exact hz
      | fragment z => cases heq
    · have hinner := isInner_of_mem_preorder (isInner_of_mem_children hkind b hb) _ hy
      exact absurd rfl hinner.2
  · intro hy
    refine .inr ⟨_, List.mem_map_of_mem hy, ?_⟩
    rw [preorder_eq]
    exact List.mem_cons_self

end Node

/-- A document is well formed if the grammar is content with all of its nodes and its
operations have the names that they need. -/
theorem Document.wellFormed_iff_grammatical (x : Document α) :
    x.WellFormed .strict ↔ (∀ m ∈ (Node.document x).preorder, m.Grammatical) ∧
      ∀ y, .operation y ∈ x.definitions → y.NamedIfNeeded := by
  show (Node.document x).WellFormed ↔ _
  have hnode : (∀ m ∈ (Node.document x).preorder, m.NamedIfNeeded) ↔
      ∀ y, .operation y ∈ x.definitions → y.NamedIfNeeded := by
    simp only [← Node.operationDefinition_mem_preorder]
    exact ⟨fun h y hy => h _ hy y rfl, fun h m hm y heq => h y (heq ▸ hm)⟩
  rw [Node.wellFormed_iff_forall_mem, ← hnode]
  exact ⟨fun h => ⟨fun m hm => (h m hm).1, fun m hm => (h m hm).2⟩,
    fun h m hm => ⟨h.1 m hm, h.2 m hm⟩⟩

/-! ## Variables -/

namespace Node

/-- No variable occurs in the tree. -/
def HasNoVariable (n : Node α) : Prop :=
  ∀ m ∈ n.preorder, m.kind ≠ .variableReference

theorem hasNoVariable_iff (n : Node α) :
    n.HasNoVariable ↔ n.kind ≠ .variableReference ∧ ∀ c ∈ n.children, c.HasNoVariable := by
  rw [HasNoVariable, preorder_eq, List.forall_mem_cons, List.forall_mem_flatMap]
  rfl

end Node

mutual

/-- A value is constant if no variable occurs in it as a tree. -/
theorem Value.isConst_iff : ∀ x : Value α,
    x.isConst = true ↔ (Part.toNode x : Node α).HasNoVariable
  | .var x => by
    rw [Node.hasNoVariable_iff]
    simp [Value.isConst, Part.toNode, Node.kind]
  | .int x | .float x | .string x | .boolean x | .enum x => by
    rw [Node.hasNoVariable_iff]
    simp [Value.isConst, Part.toNode, Node.kind, Node.children, Node.slots]
  | .list x => ListValue.isConst_iff x
  | .object x => ObjectValue.isConst_iff x
termination_by structural x => x

theorem ListValue.isConst_iff : ∀ x : ListValue α,
    x.isConst = true ↔ (Node.listValue x).HasNoVariable
  | ⟨values, tag⟩ => by
    rw [Node.hasNoVariable_iff, ListValue.isConst, Value.allConst_iff_hasNoVariable values]
    simp [Node.kind, Node.children, Node.slots, Slot.many]
termination_by structural x => x

theorem Value.allConst_iff_hasNoVariable : ∀ xs : List (Value α),
    Value.allConst xs = true ↔ ∀ x ∈ xs, (Part.toNode x : Node α).HasNoVariable
  | [] => by simp [Value.allConst]
  | x :: xs => by
    rw [Value.allConst, Bool.and_eq_true, Value.isConst_iff x,
      Value.allConst_iff_hasNoVariable xs, List.forall_mem_cons]
termination_by structural xs => xs

theorem ObjectValue.isConst_iff : ∀ x : ObjectValue α,
    x.isConst = true ↔ (Node.objectValue x).HasNoVariable
  | ⟨fields, tag⟩ => by
    rw [Node.hasNoVariable_iff, ObjectValue.isConst, ObjectField.allConst_iff_hasNoVariable fields]
    simp [Node.kind, Node.children, Node.slots, Slot.many]
    rfl
termination_by structural x => x

theorem ObjectField.allConst_iff_hasNoVariable : ∀ xs : List (ObjectField α),
    ObjectField.allConst xs = true ↔ ∀ x ∈ xs, (Node.objectField x).HasNoVariable
  | [] => by simp [ObjectField.allConst]
  | x :: xs => by
    rw [ObjectField.allConst, Bool.and_eq_true, ObjectField.isConst_iff x,
      ObjectField.allConst_iff_hasNoVariable xs, List.forall_mem_cons]
termination_by structural xs => xs

theorem ObjectField.isConst_iff : ∀ x : ObjectField α,
    x.isConst = true ↔ (Node.objectField x).HasNoVariable
  | ⟨name, value, tag⟩ => by
    rw [Node.hasNoVariable_iff, ObjectField.isConst, Value.isConst_iff value]
    have hname : (Node.name name).HasNoVariable := by
      rw [Node.hasNoVariable_iff]
      simp [Node.kind, Node.children, Node.slots]
    simp only [Node.kind, Node.children, Node.slots, Slot.one, List.flatMap_cons,
      List.flatMap_nil, List.cons_append, List.nil_append, List.forall_mem_cons, ne_eq,
      reduceCtorEq, not_false_eq_true, true_and, List.not_mem_nil, false_implies,
      implies_true, and_true]
    exact (and_iff_right hname).symm
termination_by structural x => x

end

/-! ## In view -/

namespace NodeKind

/-- Whether a node of the kind may hold the content. -/
def Spells : NodeKind → Content → Prop
  | .name, .text s => isName s = true
  | .intValue, .text s => IsInteger s.toList
  | .floatValue, .text s => IsFloat s.toList
  | .enumValue, .text s => isName s = true ∧ s ≠ "true" ∧ s ≠ "false"
  | _, _ => True

end NodeKind

namespace Node

/-- What the name of a field holds, if the node is a field of an object. -/
def fieldName (n : Node α) : Option Content :=
  n.children.head?.map content

/-- What the grammar asks of a node, as far as it can be seen in the view. -/
@[mk_iff]
structure GrammaticalInView (n : Node α) : Prop where
  spelled : n.kind.Spells n.content
  filled : ∀ slot ∈ n.slots, slot.arity = .atLeastOne → slot.nodes ≠ []
  notOn : n.kind = .fragmentSpread ∨ n.kind = .fragmentDefinition →
    ∀ c ∈ n.children, c.content ≠ .text "on"
  distinct : n.kind = .objectValue → (n.children.map fieldName).Nodup
  constant : n.kind = .variableDefinition ∨ n.kind = .argumentDefinition ∨
      n.kind = .inputFieldDefinition →
    ∀ slot ∈ n.slots, slot.arity = .optional → ∀ c ∈ slot.nodes, c.HasNoVariable

theorem grammatical_iff (n : Node α) : n.Grammatical ↔ n.GrammaticalInView := by
  rw [grammaticalInView_iff]
  cases n
  case fragmentSpread x =>
    simp [Grammatical, NodeKind.Spells, kind, content, children, slots, Slot.one, Slot.many,
      Part.toNode]
  case fragmentDefinition x =>
    have hchildren : (∀ c ∈ (fragmentDefinition x).children, c.content ≠ .text "on") ↔
        x.name.value ≠ "on" := by
      simp only [children, slots, Slot.one, Slot.many, List.flatMap_cons, List.flatMap_nil,
        List.append_nil, List.forall_mem_append, List.forall_mem_singleton, List.forall_mem_map]
      simp [Part.toNode, content]
    simp [Grammatical, NodeKind.Spells, kind, hchildren, slots, Slot.one, Slot.many]
  case objectValue x =>
    have hnames : (objectValue x).children.map fieldName =
        (x.fields.map fun field => field.name.value).map fun s => some (.text s) := by
      simp [children, slots, Slot.many, fieldName, Slot.one, Part.toNode, content]
    have hinjective : Function.Injective fun s => some (Content.text s) := by
      intro s t h
      simpa using h
    rw [hnames, List.nodup_map_iff hinjective]
    simp [Grammatical, NodeKind.Spells, kind, slots, Slot.many]
  case variableDefinition x | argumentDefinition x | inputFieldDefinition x =>
    simp [Grammatical, NodeKind.Spells, kind, content, slots, Slot.one, Slot.optional,
      Value.isConst_iff]
  all_goals
    simp [Grammatical, NodeKind.Spells, kind, content, slots, Slot.one, Slot.optional,
      Slot.many, Slot.atLeastOne]

end Node

end GraphQLSyntax
