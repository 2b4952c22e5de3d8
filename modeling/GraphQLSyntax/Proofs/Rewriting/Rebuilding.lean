import Mathlib.Data.List.Forall2
import GraphQLSyntax.Rewriting.Update
import GraphQLSyntax.Tree.Order

/-!
# Rebuilding nodes

A node can be rebuilt as soon as what is put in each slot could have been put there by
replacing or deleting the nodes of that slot one at a time, each by a node of its own
kind.  The rebuilt node shows exactly the children that it was given, and shares its
kind, content and location with the old one.
-/

namespace GraphQLSyntax

variable {α : Type}

/-- A node may stand in its own place.  Rewriters name this fact, so that no definition of
one carries a proof of its own. -/
theorem Node.kind_self (n : Node α) : n.kind = n.kind :=
  rfl

/-! ## What the slots of a node are read from -/

namespace Slot

variable {β : Type → Type} [∀ α, SizeOf (β α)] [Part β]

theorem one?_eq_some_iff {ns : List (Node α)} {x : β α} :
    one? ns = some x ↔ (one x).nodes = ns := by
  match ns with
  | [] => simp [one?, one]
  | [n] => simp [one?, one, Part.ofNode?_eq_some_iff, @eq_comm _ n]
  | _ :: _ :: _ => simp [one?, one]

theorem optional?_eq_some_iff {ns : List (Node α)} {x : Option (β α)} :
    optional? ns = some x ↔ (optional x).nodes = ns := by
  match ns, x with
  | [], none | [], some _ => simp [optional?, optional]
  | [n], none | [n], some _ =>
    simp [optional?, optional, Part.ofNode?_eq_some_iff, @eq_comm _ n]
  | _ :: _ :: _, none | _ :: _ :: _, some _ => simp [optional?, optional]

theorem many?_eq_some_iff {ns : List (Node α)} {xs : List (β α)} :
    many? ns = some xs ↔ (many xs).nodes = ns := by
  constructor
  · intro h
    induction ns generalizing xs with
    | nil => simp_all [many?, many]
    | cons n ns ih =>
      simp only [many?, List.mapM_cons, bind, Option.bind_eq_some_iff, pure,
        Option.some.injEq] at h
      obtain ⟨y, hy, ys, hys, rfl⟩ := h
      rw [(Part.ofNode?_eq_some_iff n y).1 hy, ← ih hys]
      rfl
  · rintro rfl
    exact many?_many xs

end Slot

namespace Node

/-- What is built shows what it was built from. -/
theorem view_of_build? {kind : NodeKind} {content : Content} {ns : List (List (Node α))}
    {tag : α} {m : Node α} (h : build? kind content ns tag = some m) :
    m.content = content ∧ m.tag = tag ∧ m.slots.map Slot.nodes = ns := by
  unfold build? at h
  split at h <;>
    simp only [bind, Option.bind_eq_some_iff, Option.some.injEq, reduceCtorEq,
      Slot.one?_eq_some_iff, Slot.optional?_eq_some_iff, Slot.many?_eq_some_iff] at h
  all_goals
    -- what is left names the slots one after the other, and then the node
    repeat obtain ⟨_, rfl, h⟩ := h
    exact ⟨rfl, rfl, rfl⟩

end Node

/-! ## What a slot admits -/

/-- Whether a node can be read as a part is a matter of its kind. -/
class Part.ByKind (β : Type → Type) [∀ α, SizeOf (β α)] [Part β] where
  /-- The kinds of the nodes that can be. -/
  kinds : List NodeKind
  isSome_ofNode? {α : Type} (n : Node α) :
    (Part.ofNode? n : Option (β α)).isSome = kinds.contains n.kind

/-- The kinds of the nodes that can be read as a part. -/
abbrev Part.kinds (β : Type → Type) [∀ α, SizeOf (β α)] [Part β] [Part.ByKind β] :
    List NodeKind :=
  Part.ByKind.kinds (β := β)

namespace Part

variable {β : Type → Type} [∀ α, SizeOf (β α)] [Part β]

theorem exists_toNode_of_mem_kinds [Part.ByKind β] {n : Node α} (h : n.kind ∈ kinds β) :
    ∃ y : β α, n = Part.toNode y := by
  have hsome : (Part.ofNode? n : Option (β α)).isSome := by
    rw [ByKind.isSome_ofNode?]
    exact List.contains_iff_mem.2 h
  obtain ⟨y, hy⟩ := Option.isSome_iff_exists.1 hsome
  exact ⟨y, (Part.ofNode?_eq_some_iff n y).1 hy⟩

theorem kind_toNode_mem_kinds [Part.ByKind β] (x : β α) : (Part.toNode x).kind ∈ kinds β := by
  rw [← List.contains_iff_mem, ← ByKind.isSome_ofNode?, Part.ofNode?_toNode, Option.isSome_some]

theorem ByKind.exists_toNode [Part.ByKind β] {x : β α} {n : Node α}
    (h : n.kind = (Part.toNode x).kind) : ∃ y : β α, n = Part.toNode y :=
  exists_toNode_of_mem_kinds (h ▸ kind_toNode_mem_kinds x)

instance : Part.ByKind Name := ⟨[.name], fun n => by cases n <;> rfl⟩
instance : Part.ByKind Variable := ⟨[.variableReference], fun n => by cases n <;> rfl⟩
instance : Part.ByKind NamedType := ⟨[.namedType], fun n => by cases n <;> rfl⟩
instance : Part.ByKind Argument := ⟨[.argument], fun n => by cases n <;> rfl⟩
instance : Part.ByKind Directive := ⟨[.directive], fun n => by cases n <;> rfl⟩
instance : Part.ByKind SelectionSet := ⟨[.selectionSet], fun n => by cases n <;> rfl⟩
instance : Part.ByKind VariableDefinition :=
  ⟨[.variableDefinition], fun n => by cases n <;> rfl⟩
instance : Part.ByKind ObjectField := ⟨[.objectField], fun n => by cases n <;> rfl⟩
instance : Part.ByKind FieldDefinition := ⟨[.fieldDefinition], fun n => by cases n <;> rfl⟩
instance : Part.ByKind ArgumentDefinition :=
  ⟨[.argumentDefinition], fun n => by cases n <;> rfl⟩
instance : Part.ByKind InputFieldDefinition :=
  ⟨[.inputFieldDefinition], fun n => by cases n <;> rfl⟩
instance : Part.ByKind EnumValueDefinition :=
  ⟨[.enumValueDefinition], fun n => by cases n <;> rfl⟩
instance : Part.ByKind TypeRef :=
  ⟨[.namedType, .listType, .nonNullType], fun n => by cases n <;> rfl⟩
instance : Part.ByKind NullableTypeRef :=
  ⟨[.namedType, .listType], fun n => by cases n <;> rfl⟩
instance : Part.ByKind Value :=
  ⟨[.variableReference, .intValue, .floatValue, .stringValue, .booleanValue, .enumValue,
    .listValue, .objectValue], fun n => by cases n <;> rfl⟩
instance : Part.ByKind Selection :=
  ⟨[.field, .fragmentSpread, .inlineFragment], fun n => by cases n <;> rfl⟩
instance : Part.ByKind Definition :=
  ⟨[.operationDefinition, .fragmentDefinition], fun n => by cases n <;> rfl⟩
instance : Part.ByKind SchemaDefinition :=
  ⟨[.typeDefinition, .interfaceDefinition, .unionDefinition, .scalarDefinition,
    .enumDefinition, .inputObjectDefinition], fun n => by cases n <;> rfl⟩

end Part

/-- What can be put in a slot when its nodes are replaced or deleted one at a time: no
more nodes than stood there, each of a kind that stood there, and one if there has to be
one. -/
structure Slot.Admits (slot : Slot α) (ns : List (Node α)) : Prop where
  exists_kind : ∀ n ∈ ns, ∃ m ∈ slot.nodes, n.kind = m.kind
  length_le : ns.length ≤ slot.nodes.length
  ne_nil : slot.arity.isNeeded → slot.nodes ≠ [] → ns ≠ []

namespace Slot

variable {β : Type → Type} [∀ α, SizeOf (β α)] [Part β] [Part.ByKind β]

theorem Admits.exists_one? {x : β α} {ns : List (Node α)} (h : (one x).Admits ns) :
    ∃ y : β α, one? ns = some y := by
  have hne : ns ≠ [] := h.ne_nil rfl (by simp [one])
  have hlen : ns.length = 1 := Nat.le_antisymm h.length_le (List.length_pos_iff.2 hne)
  obtain ⟨n, rfl⟩ := List.length_eq_one_iff.1 hlen
  obtain ⟨m, hm, hkind⟩ := h.exists_kind n (by simp)
  rw [one, List.mem_singleton] at hm
  obtain ⟨y, rfl⟩ := Part.ByKind.exists_toNode (hm ▸ hkind)
  exact ⟨y, one?_eq_some_iff.2 rfl⟩

theorem Admits.exists_optional? {x : Option (β α)} {ns : List (Node α)}
    (h : (optional x).Admits ns) : ∃ y : Option (β α), optional? ns = some y := by
  have hlen : ns.length ≤ 1 :=
    Nat.le_trans h.length_le (by cases x <;> simp [optional])
  obtain hlen | hlen := Nat.le_one_iff_eq_zero_or_eq_one.1 hlen
  · obtain rfl := List.length_eq_zero_iff.1 hlen
    exact ⟨none, rfl⟩
  · obtain ⟨n, rfl⟩ := List.length_eq_one_iff.1 hlen
    obtain ⟨m, hm, hkind⟩ := h.exists_kind n (by simp)
    obtain ⟨x, -, rfl⟩ := List.mem_map.1 hm
    obtain ⟨y, rfl⟩ := Part.ByKind.exists_toNode hkind
    exact ⟨some y, optional?_eq_some_iff.2 rfl⟩

theorem exists_many? {xs : List (β α)} {ns : List (Node α)}
    (h : ∀ n ∈ ns, ∃ m ∈ (many xs).nodes, n.kind = m.kind) :
    ∃ ys : List (β α), many? ns = some ys := by
  induction ns with
  | nil => exact ⟨[], rfl⟩
  | cons n ns ih =>
    obtain ⟨ys, hys⟩ := ih fun n hn => h n (List.mem_cons_of_mem _ hn)
    obtain ⟨m, hm, hkind⟩ := h n List.mem_cons_self
    obtain ⟨x, -, rfl⟩ := List.mem_map.1 hm
    obtain ⟨y, rfl⟩ := Part.ByKind.exists_toNode hkind
    refine ⟨y :: ys, many?_eq_some_iff.2 ?_⟩
    rw [← many?_eq_some_iff.1 hys]
    rfl

theorem Admits.exists_many? {xs : List (β α)} {ns : List (Node α)} (h : (many xs).Admits ns) :
    ∃ ys : List (β α), many? ns = some ys :=
  Slot.exists_many? h.exists_kind

theorem Admits.exists_atLeastOne? {xs : List (β α)} {ns : List (Node α)}
    (h : (atLeastOne xs).Admits ns) : ∃ ys : List (β α), many? ns = some ys :=
  Slot.exists_many? h.exists_kind

end Slot

namespace Node

/-- A node of any kind can be built again with what its slots admit. -/
theorem exists_build? (n : Node α) {ns : List (List (Node α))}
    (h : List.Forall₂ Slot.Admits n.slots ns) (tag : α) :
    ∃ m, build? n.kind n.content ns tag = some m := by
  cases n <;>
    simp only [slots, List.forall₂_cons_left_iff, List.forall₂_nil_left_iff] at h
  all_goals
    repeat
      obtain ⟨_, _, hslot, h, rfl⟩ := h
      first
        | have hread := hslot.exists_one?
        | have hread := hslot.exists_optional?
        | have hread := hslot.exists_many?
        | have hread := hslot.exists_atLeastOne?
      obtain ⟨_, hread⟩ := hread
    simp [kind, content, build?, *]

/-- The second node stands for the first one with the given children in its slots: it is
of the same kind, holds the same content, and is located at the same place. -/
structure RebuiltWith (n m : Node Tag) (ns : List (List (Node Tag))) : Prop where
  kind : m.kind = n.kind
  content : m.content = n.content
  location : m.tag.location = n.tag.location
  slots : m.slots.map Slot.nodes = ns

theorem RebuiltWith.refl (n : Node Tag) : n.RebuiltWith n (n.slots.map Slot.nodes) :=
  ⟨rfl, rfl, rfl, rfl⟩

theorem RebuiltWith.trans {n m l : Node Tag} {ns ks : List (List (Node Tag))}
    (h : n.RebuiltWith m ns) (h' : m.RebuiltWith l ks) : n.RebuiltWith l ks :=
  ⟨h'.kind.trans h.kind, h'.content.trans h.content, h'.location.trans h.location, h'.slots⟩

theorem update_of_eq {n : Node Tag} {new : Replacement}
    (h : n.replacedSlots new = n.slots.map Slot.nodes) (nextId : Nat) :
    n.update new nextId = (n, nextId) :=
  if_pos h

/-- If a node can be built with the children of an update, other children make another node, under
the first unused identity. -/
theorem exists_update_of_build? {n : Node Tag} {new : Replacement}
    (h : n.replacedSlots new ≠ n.slots.map Slot.nodes)
    (hbuild : ∀ tag, ∃ m, build? n.kind n.content (n.replacedSlots new) tag = some m)
    (nextId : Nat) :
    ∃ m, n.update new nextId = (m, nextId + 1) ∧ m.tag.id = nextId ∧
      n.RebuiltWith m (n.replacedSlots new) := by
  obtain ⟨m, hm⟩ := hbuild { n.tag with id := nextId }
  obtain ⟨hcontent, htag, hslots⟩ := view_of_build? hm
  refine ⟨m, ?_, by rw [htag], kind_of_build? hm, hcontent, by rw [htag], hslots⟩
  rw [update, if_neg h, withSlots?, hm]

/-- Whether it is another node or not, the updated node has the children of the update. -/
theorem rebuiltWith_update_of_build? {n : Node Tag} {new : Replacement}
    (hbuild : ∀ tag, ∃ m, build? n.kind n.content (n.replacedSlots new) tag = some m)
    (nextId : Nat) : n.RebuiltWith (n.update new nextId).1 (n.replacedSlots new) := by
  by_cases h : n.replacedSlots new = n.slots.map Slot.nodes
  · rw [update_of_eq h, h]
    exact .refl n
  · obtain ⟨m, hm, -, hrebuilt⟩ := exists_update_of_build? h hbuild nextId
    rwa [hm]

/-- Other children that are admitted make another node. -/
theorem exists_update_of_ne {n : Node Tag} {new : Replacement}
    (h : n.replacedSlots new ≠ n.slots.map Slot.nodes)
    (hadmits : List.Forall₂ Slot.Admits n.slots (n.replacedSlots new)) (nextId : Nat) :
    ∃ m, n.update new nextId = (m, nextId + 1) ∧ m.tag.id = nextId ∧
      n.RebuiltWith m (n.replacedSlots new) :=
  exists_update_of_build? h (n.exists_build? hadmits) nextId

end Node

end GraphQLSyntax
