import Mathlib.Data.List.Forall2
import GraphQLSyntax.Tree.Tag

/-!
# Tags and the view of a tree

Changing tags keeps what a node shows besides its tag: the kind, the content, the slots
and, through these, all that is defined by recursion into children.  Two trees are copies
of each other if they agree after everything but the locations is taken off their tags,
and that again can be seen node by node.
-/

namespace GraphQLSyntax

variable {α β : Type} (f : α → β)

/-! ## What is told by a tag -/

namespace Tag

/-- The offset where the node begins, if its location is kept. -/
def start (tag : Tag) : UInt32 :=
  tag.location.elim 0 Location.start

/-- The offset where the node ends, if its location is kept. -/
def stop (tag : Tag) : UInt32 :=
  tag.location.elim 0 Location.stop

end Tag

/-! ## Parts and slots -/

/-- Changing the tags in a part changes them in the node that it is. -/
class Part.Retags (γ : Type → Type) [∀ α, SizeOf (γ α)] [Part γ] where
  map {α β : Type} (f : α → β) : γ α → γ β
  toNode_map {α β : Type} (f : α → β) (x : γ α) :
    Part.toNode (map f x) = (Part.toNode x).map f

namespace Part.Retags

instance : Retags Name := ⟨Name.map, fun _ _ => rfl⟩
instance : Retags Variable := ⟨Variable.map, fun _ _ => rfl⟩
instance : Retags NamedType := ⟨NamedType.map, fun _ _ => rfl⟩
instance : Retags Argument := ⟨Argument.map, fun _ _ => rfl⟩
instance : Retags Directive := ⟨Directive.map, fun _ _ => rfl⟩
instance : Retags SelectionSet := ⟨SelectionSet.map, fun _ _ => rfl⟩
instance : Retags VariableDefinition := ⟨VariableDefinition.map, fun _ _ => rfl⟩
instance : Retags ObjectField := ⟨ObjectField.map, fun _ _ => rfl⟩
instance : Retags FieldDefinition := ⟨FieldDefinition.map, fun _ _ => rfl⟩
instance : Retags ArgumentDefinition := ⟨ArgumentDefinition.map, fun _ _ => rfl⟩
instance : Retags InputFieldDefinition := ⟨InputFieldDefinition.map, fun _ _ => rfl⟩
instance : Retags EnumValueDefinition := ⟨EnumValueDefinition.map, fun _ _ => rfl⟩
instance : Retags TypeRef := ⟨TypeRef.map, fun _ x => by cases x <;> rfl⟩
instance : Retags NullableTypeRef := ⟨NullableTypeRef.map, fun _ x => by cases x <;> rfl⟩
instance : Retags Value := ⟨Value.map, fun _ x => by cases x <;> rfl⟩
instance : Retags Selection := ⟨Selection.map, fun _ x => by cases x <;> rfl⟩
instance : Retags Definition := ⟨Definition.map, fun _ x => by cases x <;> rfl⟩
instance : Retags SchemaDefinition := ⟨SchemaDefinition.map, fun _ x => by cases x <;> rfl⟩

end Part.Retags

namespace Slot

/-- Changes all tags of the children in a slot. -/
def map (slot : Slot α) : Slot β :=
  ⟨slot.arity, slot.nodes.map (Node.map f)⟩

variable {γ : Type → Type} [∀ α, SizeOf (γ α)] [Part γ] [Part.Retags γ]

theorem map_one (x : γ α) : (one x).map f = one (Part.Retags.map f x) := by
  simp [one, map, Part.Retags.toNode_map]

theorem map_optional (x : Option (γ α)) :
    (optional x).map f = optional (x.map (Part.Retags.map f)) := by
  cases x <;> simp [optional, map, Part.Retags.toNode_map]

theorem map_many (xs : List (γ α)) :
    (many xs).map f = many (xs.map (Part.Retags.map f)) := by
  simp [many, map, Part.Retags.toNode_map]

theorem map_atLeastOne (xs : List (γ α)) :
    (atLeastOne xs).map f = atLeastOne (xs.map (Part.Retags.map f)) := by
  simp [atLeastOne, map, Part.Retags.toNode_map]

end Slot

/-! ## Nodes -/

namespace Node

@[simp] theorem tag_map (n : Node α) : (n.map f).tag = f n.tag := by
  cases n <;> first | rfl | (rename_i x; cases x; rfl)

@[simp] theorem content_map (n : Node α) : (n.map f).content = n.content := by
  cases n <;> rfl

theorem slots_map (n : Node α) : (n.map f).slots = n.slots.map (Slot.map f) := by
  cases n <;> rename_i x <;> cases x <;>
    simp only [map, SelectionSet.map, Field.map, InlineFragment.map, ListValue.map,
      ObjectValue.map, ObjectField.map, ListType.map, NonNullType.map, Selection.mapAll_eq_map,
      SelectionSet.mapOption_eq_map, Value.mapAll_eq_map, ObjectField.mapAll_eq_map, slots,
      List.map_cons, List.map_nil, Slot.map_one, Slot.map_optional, Slot.map_many,
      Slot.map_atLeastOne] <;>
    rfl

theorem map_nodes_slots_map (n : Node α) :
    (n.map f).slots.map Slot.nodes = (n.slots.map Slot.nodes).map (List.map (Node.map f)) := by
  rw [slots_map, List.map_map, List.map_map]
  rfl

theorem children_map (n : Node α) : (n.map f).children = n.children.map (Node.map f) := by
  rw [children, slots_map, children, List.flatMap_map, List.map_flatMap]
  rfl

theorem preorder_map (n : Node α) : (n.map f).preorder = n.preorder.map (Node.map f) := by
  induction n using inductionOn with
  | step n ih =>
    rw [preorder_eq, preorder_eq n, children_map, List.flatMap_map, List.map_cons,
      List.map_flatMap, List.flatMap_congr ih]

/-- Tags may be changed twice or once. -/
theorem map_map {γ : Type} (g : β → γ) (n : Node α) : (n.map f).map g = n.map (g ∘ f) := by
  induction n using inductionOn with
  | step n ih =>
    refine eq_of_view (by simp) (by simp) (by simp) ?_
    simp only [slots_map, List.map_map]
    refine List.map_congr_left fun slot hslot => ?_
    simp only [Function.comp_apply, Slot.map, List.map_map]
    exact List.map_congr_left fun c hc => ih c (List.mem_flatMap.2 ⟨slot, hslot, hc⟩)

/-- Where no tag changes, the tree stays as it is. -/
theorem map_id (n : Node α) : n.map id = n := by
  induction n using inductionOn with
  | step n ih =>
    refine eq_of_view (by simp) (by simp) (by simp) ?_
    rw [map_nodes_slots_map]
    refine (List.map_congr_left fun ns hns => ?_).trans (List.map_id _)
    obtain ⟨slot, hslot, rfl⟩ := List.mem_map.1 hns
    refine (List.map_congr_left fun c hc => ?_).trans (List.map_id _)
    exact ih c (List.mem_flatMap.2 ⟨slot, hslot, hc⟩)

end Node

/-! ## Copies -/

/-- Lists have the same image if their members have, one by one. -/
theorem map_eq_map_iff_forall₂ {γ δ : Type} {g : γ → β} {h : δ → β} {xs : List γ}
    {ys : List δ} : xs.map g = ys.map h ↔ List.Forall₂ (fun x y => g x = h y) xs ys := by
  rw [← List.forall₂_eq_eq_eq, List.forall₂_map_left_iff, List.forall₂_map_right_iff]

namespace Node

/-- The trees agree in everything but the identities of their nodes. -/
def Copies (n m : Node Tag) : Prop :=
  n.map Tag.location = m.map Tag.location

theorem isCopyOf_iff {n m : Node Tag} : n.isCopyOf m = true ↔ n.Copies m :=
  beq_iff_eq

end Node

/-- The slots are of the same arity and hold copies. -/
structure Slot.Copies (a b : Slot Tag) : Prop where
  arity_eq : a.arity = b.arity
  nodes : List.Forall₂ Node.Copies a.nodes b.nodes

theorem Slot.copies_iff {a b : Slot Tag} :
    a.Copies b ↔ a.map Tag.location = b.map Tag.location := by
  obtain ⟨arity, ns⟩ := a
  obtain ⟨arity', ms⟩ := b
  have hnodes : List.Forall₂ Node.Copies ns ms ↔
      ns.map (Node.map Tag.location) = ms.map (Node.map Tag.location) :=
    map_eq_map_iff_forall₂.symm
  simp only [Slot.map, Slot.mk.injEq, ← hnodes]
  exact ⟨fun h => ⟨h.arity_eq, h.nodes⟩, fun h => ⟨h.1, h.2⟩⟩

namespace Node.Copies

variable {n m k : Node Tag}

theorem refl (n : Node Tag) : n.Copies n := rfl

theorem symm (h : n.Copies m) : m.Copies n := Eq.symm h

theorem trans (h : n.Copies m) (h' : m.Copies k) : n.Copies k := Eq.trans h h'

theorem kind_eq (h : n.Copies m) : n.kind = m.kind := by
  rw [← n.kind_map Tag.location, h, kind_map]

theorem content_eq (h : n.Copies m) : n.content = m.content := by
  rw [← n.content_map Tag.location, h, content_map]

theorem location_eq (h : n.Copies m) : n.tag.location = m.tag.location := by
  rw [← n.tag_map Tag.location, h, tag_map]

theorem slots (h : n.Copies m) : List.Forall₂ Slot.Copies n.slots m.slots := by
  have heq : n.slots.map (Slot.map Tag.location) = m.slots.map (Slot.map Tag.location) := by
    rw [← n.slots_map, h, slots_map]
  exact (map_eq_map_iff_forall₂.1 heq).imp fun _ _ => Slot.copies_iff.2

/-- Whether nodes are copies can be told from what they show. -/
theorem of_view (hkind : n.kind = m.kind) (hcontent : n.content = m.content)
    (hlocation : n.tag.location = m.tag.location)
    (hslots : List.Forall₂ (List.Forall₂ Copies) (n.slots.map Slot.nodes)
      (m.slots.map Slot.nodes)) : n.Copies m := by
  refine eq_of_view (by simpa using hkind) (by simpa using hcontent) (by simpa using hlocation) ?_
  rw [map_nodes_slots_map, map_nodes_slots_map]
  exact map_eq_map_iff_forall₂.2 (hslots.imp fun _ _ => map_eq_map_iff_forall₂.2)

end Node.Copies

end GraphQLSyntax
