import GraphQLSyntax.Proofs.Rewriting.Rebuilding
import GraphQLSyntax.Proofs.Tree.Tags

/-!
# Updates as lenses

The slots of a node are read and written together: `slots` reads them, and `update` writes those
that are supplied and keeps the others.  Writing what is there gives the node itself back, what was
written is read, and of two writes the last one counts.

Whether something is there already is a matter of identity.  A node that looks the same but was
made apart is another node, and an update with it is a change.  So it is assumed of identities that
no two different nodes at hand have one in common.

Which children a node may be given depends on its kind.  `NodeKind.shape` says it slot by slot, and
a node can be built with whatever its shape takes.
-/

namespace GraphQLSyntax

variable {α : Type}

/-! ## What may stand in a slot -/

/-- How many children stand in a slot, and of which kinds they are. -/
structure SlotShape where
  arity : Arity
  kinds : List NodeKind

/-- So many children may stand in a slot.  A list may have any length. -/
def Arity.Allows : Arity → Nat → Prop
  | one, length => length = 1
  | optional, length => length ≤ 1
  | many, _ | atLeastOne, _ => True

namespace SlotShape

variable (β : Type → Type) [∀ α, SizeOf (β α)] [Part β] [Part.ByKind β]

/-- One part. -/
def one : SlotShape := ⟨.one, Part.kinds β⟩

/-- One part or none. -/
def optional : SlotShape := ⟨.optional, Part.kinds β⟩

/-- A list of parts. -/
def many : SlotShape := ⟨.many, Part.kinds β⟩

/-- A list of parts that documents never leave empty. -/
def atLeastOne : SlotShape := ⟨.atLeastOne, Part.kinds β⟩

/-- The children may stand in the slot. -/
structure Takes (shape : SlotShape) (ns : List (Node α)) : Prop where
  length : shape.arity.Allows ns.length
  kind : ∀ n ∈ ns, n.kind ∈ shape.kinds

variable {β} {ns : List (Node α)}

theorem takes_one (x : β α) : (one β).Takes (Slot.one x).nodes where
  length := rfl
  kind n hn := by
    obtain rfl := List.mem_singleton.1 hn
    exact Part.kind_toNode_mem_kinds x

theorem takes_optional (x : Option (β α)) : (optional β).Takes (Slot.optional x).nodes where
  length := by cases x <;> simp [optional, Slot.optional, Arity.Allows]
  kind n hn := by
    obtain ⟨y, -, rfl⟩ := List.mem_map.1 hn
    exact Part.kind_toNode_mem_kinds y

theorem takes_many (xs : List (β α)) : (many β).Takes (Slot.many xs).nodes where
  length := trivial
  kind n hn := by
    obtain ⟨y, -, rfl⟩ := List.mem_map.1 hn
    exact Part.kind_toNode_mem_kinds y

theorem takes_atLeastOne (xs : List (β α)) : (atLeastOne β).Takes (Slot.atLeastOne xs).nodes where
  length := trivial
  kind n hn := by
    obtain ⟨y, -, rfl⟩ := List.mem_map.1 hn
    exact Part.kind_toNode_mem_kinds y

theorem Takes.exists_one? (h : (one β).Takes ns) : ∃ y : β α, Slot.one? ns = some y := by
  obtain ⟨n, rfl⟩ := List.length_eq_one_iff.1 h.length
  obtain ⟨y, rfl⟩ := Part.exists_toNode_of_mem_kinds (h.kind n List.mem_cons_self)
  exact ⟨y, Slot.one?_eq_some_iff.2 rfl⟩

theorem Takes.exists_optional? (h : (optional β).Takes ns) :
    ∃ y : Option (β α), Slot.optional? ns = some y := by
  obtain hlength | hlength := Nat.le_one_iff_eq_zero_or_eq_one.1 h.length
  · obtain rfl := List.length_eq_zero_iff.1 hlength
    exact ⟨none, rfl⟩
  · obtain ⟨n, rfl⟩ := List.length_eq_one_iff.1 hlength
    obtain ⟨y, rfl⟩ := Part.exists_toNode_of_mem_kinds (h.kind n List.mem_cons_self)
    exact ⟨some y, Slot.optional?_eq_some_iff.2 rfl⟩

theorem exists_many? (h : ∀ n ∈ ns, n.kind ∈ Part.kinds β) :
    ∃ ys : List (β α), Slot.many? ns = some ys := by
  induction ns with
  | nil => exact ⟨[], rfl⟩
  | cons n ns ih =>
    rw [List.forall_mem_cons] at h
    obtain ⟨y, rfl⟩ := Part.exists_toNode_of_mem_kinds h.1
    obtain ⟨ys, hys⟩ := ih h.2
    refine ⟨y :: ys, Slot.many?_eq_some_iff.2 ?_⟩
    rw [← Slot.many?_eq_some_iff.1 hys]
    rfl

theorem Takes.exists_many? (h : (many β).Takes ns) : ∃ ys : List (β α), Slot.many? ns = some ys :=
  SlotShape.exists_many? h.kind

theorem Takes.exists_atLeastOne? (h : (atLeastOne β).Takes ns) :
    ∃ ys : List (β α), Slot.many? ns = some ys :=
  SlotShape.exists_many? h.kind

end SlotShape

open SlotShape in
/-- What the slots of a node of the kind take, in order. -/
def NodeKind.shape : NodeKind → List SlotShape
  | name => []
  | document => [atLeastOne Definition]
  | operationDefinition => [optional Name, many VariableDefinition, many Directive,
      one SelectionSet]
  | variableDefinition => [one Variable, one TypeRef, optional Value]
  | variableReference => [one Name]
  | selectionSet => [atLeastOne Selection]
  | field => [optional Name, one Name, many Argument, many Directive, optional SelectionSet]
  | argument => [one Name, one Value]
  | fragmentSpread => [one Name, many Directive]
  | inlineFragment => [one NamedType, many Directive, one SelectionSet]
  | fragmentDefinition => [one Name, one NamedType, many Directive, one SelectionSet]
  | intValue | floatValue | stringValue | booleanValue | enumValue => []
  | listValue => [many Value]
  | objectValue => [many ObjectField]
  | objectField => [one Name, one Value]
  | directive => [one Name, many Argument]
  | namedType => [one Name]
  | listType => [one TypeRef]
  | nonNullType => [one NullableTypeRef]
  | schemaDocument => [atLeastOne SchemaDefinition]
  | typeDefinition => [one Name, many NamedType, many FieldDefinition]
  | fieldDefinition => [one Name, many ArgumentDefinition, one TypeRef]
  | argumentDefinition => [one Name, one TypeRef, optional Value]
  | interfaceDefinition => [one Name, many FieldDefinition]
  | unionDefinition => [one Name, atLeastOne NamedType]
  | scalarDefinition => [one Name]
  | enumDefinition => [one Name, atLeastOne EnumValueDefinition]
  | enumValueDefinition => [one Name]
  | inputObjectDefinition => [one Name, many InputFieldDefinition]
  | inputFieldDefinition => [one Name, one TypeRef, optional Value]

namespace Node

/-- The children of a node may stand where they stand. -/
theorem takes_slots (n : Node α) :
    List.Forall₂ SlotShape.Takes n.kind.shape (n.slots.map Slot.nodes) := by
  cases n <;>
    simp [kind, NodeKind.shape, slots, SlotShape.takes_one, SlotShape.takes_optional,
      SlotShape.takes_many, SlotShape.takes_atLeastOne]

/-- A node of any kind can be built again with what its shape takes. -/
theorem exists_build?_of_takes (n : Node α) {ns : List (List (Node α))}
    (h : List.Forall₂ SlotShape.Takes n.kind.shape ns) (tag : α) :
    ∃ m, build? n.kind n.content ns tag = some m := by
  cases n <;>
    simp only [kind, NodeKind.shape, List.forall₂_cons_left_iff, List.forall₂_nil_left_iff] at h
  all_goals
    repeat
      obtain ⟨_, _, hslot, h, rfl⟩ := h
      first
        | have hread := hslot.exists_one?
        | have hread := hslot.exists_optional?
        | have hread := hslot.exists_many?
        | have hread := hslot.exists_atLeastOne?
      obtain ⟨_, hread⟩ := hread
    simp [kind, content, build?, *]

/-! ## The same nodes -/

/-- The two are the same node, and not only alike. -/
def IsSameAs (n m : Node Tag) : Prop :=
  n.tag.id = m.tag.id

/-- No two different nodes have an identity in common. -/
def Identified (ns : List (Node Tag)) : Prop :=
  ∀ n ∈ ns, ∀ m ∈ ns, n.IsSameAs m → n = m

theorem eq_of_forall₂_isSameAs {ns ms : List (Node Tag)}
    (hids : ∀ n ∈ ns, ∀ m ∈ ms, n.IsSameAs m → n = m) (h : List.Forall₂ IsSameAs ns ms) :
    ns = ms := by
  induction h with
  | nil => rfl
  | cons hsame _ ih =>
    rw [hids _ List.mem_cons_self _ List.mem_cons_self hsame,
      ih fun n hn m hm => hids n (List.mem_cons_of_mem _ hn) m (List.mem_cons_of_mem _ hm)]

/-! ## What is supplied -/

/-- The children that a replacement supplies for a slot, if it does not keep those that are
there. -/
def suppliedAt (new : Replacement) (i : Nat) : Option (List (Node Tag)) :=
  new[i]?.join

/-- All nodes that a replacement supplies. -/
def supplied (new : Replacement) : List (Node Tag) :=
  new.flatMap fun entry => entry.getD []

theorem mem_supplied {new : Replacement} {i : Nat} {ns : List (Node Tag)} {m : Node Tag}
    (h : suppliedAt new i = some ns) (hm : m ∈ ns) : m ∈ supplied new :=
  List.mem_flatMap.2 ⟨some ns, List.mem_of_getElem? (Option.join_eq_some_iff.1 h), hm⟩

/-- Whatever is supplied may stand in its slot. -/
def Fits (n : Node Tag) (new : Replacement) : Prop :=
  ∀ i shape ns, n.kind.shape[i]? = some shape → suppliedAt new i = some ns →
    SlotShape.Takes shape ns

/-- Whatever is supplied stands in its slot already: the same nodes at the same places, and no
others. -/
def IsKeptBy (n : Node Tag) (new : Replacement) : Prop :=
  ∀ i slot ns, n.slots[i]? = some slot → suppliedAt new i = some ns →
    List.Forall₂ IsSameAs (Slot.nodes slot) ns

variable {n m : Node Tag} {new : Replacement} {nextId : Nat}

theorem getElem?_replacedSlots (n : Node Tag) (new : Replacement) (i : Nat) :
    (n.replacedSlots new)[i]? =
      n.slots[i]?.map fun slot => (suppliedAt new i).getD slot.nodes := by
  rw [replacedSlots, List.getElem?_mapIdx]
  rfl

theorem takes_replacedSlots (h : n.Fits new) :
    List.Forall₂ SlotShape.Takes n.kind.shape (n.replacedSlots new) := by
  obtain ⟨hlength, htakes⟩ := List.forall₂_iff_get.1 n.takes_slots
  rw [List.length_map] at hlength
  refine List.forall₂_iff_get.2 ⟨by simpa [replacedSlots] using hlength, fun i h₁ h₂ => ?_⟩
  have hslot := htakes i h₁ (by simpa using hlength ▸ h₁)
  simp only [List.get_eq_getElem, List.getElem_map, replacedSlots, List.getElem_mapIdx] at hslot ⊢
  cases hnew : suppliedAt new i with
  | none =>
    rw [show new[i]?.join = none from hnew]
    exact hslot
  | some ns =>
    rw [show new[i]?.join = some ns from hnew]
    exact h i _ ns (List.getElem?_eq_getElem h₁) hnew

/-- A replacement changes nothing exactly if it supplies what is there. -/
theorem replacedSlots_eq_iff :
    n.replacedSlots new = n.slots.map Slot.nodes ↔
      ∀ i slot ns, n.slots[i]? = some slot → suppliedAt new i = some ns →
        Slot.nodes slot = ns := by
  constructor
  · intro heq i slot ns hslot hnew
    have hi := n.getElem?_replacedSlots new i
    simp only [heq, List.getElem?_map, hslot, hnew] at hi
    exact Option.some.inj hi
  · intro h
    refine List.ext_getElem? fun i => ?_
    rw [getElem?_replacedSlots, List.getElem?_map]
    cases hslot : n.slots[i]? with
    | none => rfl
    | some slot =>
      cases hnew : suppliedAt new i with
      | none => rfl
      | some ns =>
        rw [Option.map_some, Option.map_some, Option.getD_some, h i slot ns hslot hnew]

/-- Of nodes that identities tell apart, none is replaced exactly if all are kept. -/
theorem isKeptBy_iff (hids : Identified (n.children ++ supplied new)) :
    n.IsKeptBy new ↔ n.replacedSlots new = n.slots.map Slot.nodes := by
  rw [replacedSlots_eq_iff]
  refine forall₃_congr fun i slot ns => forall₂_congr fun hslot hnew => ?_
  constructor
  · refine eq_of_forall₂_isSameAs fun n hn m hm => hids n ?_ m ?_
    · exact List.mem_append_left _
        (List.mem_flatMap.2 ⟨slot, List.mem_of_getElem? hslot, hn⟩)
    · exact List.mem_append_right _ (mem_supplied hnew hm)
  · rintro rfl
    exact List.forall₂_same.2 fun n _ => rfl

/-! ## Updates -/

theorem exists_build?_of_fits (hfits : n.Fits new) (tag : Tag) :
    ∃ m, build? n.kind n.content (n.replacedSlots new) tag = some m :=
  n.exists_build?_of_takes (takes_replacedSlots hfits) tag

theorem replacedSlots_map_some {ns : List (List (Node Tag))} (h : ns.length = n.slots.length) :
    n.replacedSlots (ns.map some) = ns := by
  refine List.ext_getElem? fun i => ?_
  rw [getElem?_replacedSlots, suppliedAt, List.getElem?_map]
  cases hslot : n.slots[i]? with
  | none =>
    have hle : ns.length ≤ i := h ▸ List.getElem?_eq_none_iff.1 hslot
    rw [List.getElem?_eq_none hle]
    rfl
  | some slot =>
    have hlt := h.symm ▸ (List.getElem?_eq_some_iff.1 hslot).1
    simp [List.getElem?_eq_getElem hlt]

/-- Nodes rebuilt from the same node with the same children are copies of each other. -/
theorem RebuiltWith.copies {m' : Node Tag} {ns : List (List (Node Tag))}
    (h : n.RebuiltWith m ns) (h' : n.RebuiltWith m' ns) : m.Copies m' := by
  refine .of_view (h.kind.trans h'.kind.symm) (h.content.trans h'.content.symm)
    (h.location.trans h'.location.symm) ?_
  rw [h.slots, h'.slots]
  exact List.forall₂_same.2 fun ms _ => List.forall₂_same.2 fun n _ => .refl n

/-- Updates obey the laws of lenses, where it is the identity of nodes that counts.  The result is
the node itself exactly if all that is supplied is there already; otherwise it is a new node, under
an identity of its own, that agrees with the old one in everything but the children supplied.  A
node's own children give the node back, what was supplied is read afterwards, and of two updates
the last one counts if it supplies all children. -/
theorem update_isLens (n : Node Tag) (new : Replacement) (nextId : Nat) (hfits : n.Fits new)
    (hids : Identified (n.children ++ supplied new)) (hfresh : nextId ≠ n.tag.id) :
    let m := (n.update new nextId).1
    (m.IsSameAs n ↔ n.IsKeptBy new) ∧
      (n.IsKeptBy new → n.update new nextId = (n, nextId)) ∧
      (¬ n.IsKeptBy new → n.update new nextId = (m, nextId + 1) ∧ m.tag.id = nextId) ∧
      (m.kind = n.kind ∧ m.content = n.content ∧ m.tag.location = n.tag.location) ∧
      (∀ i slot, n.slots[i]? = some slot →
        (m.slots.map Slot.nodes)[i]? = some ((suppliedAt new i).getD slot.nodes)) ∧
      ((∀ i slot ns, n.slots[i]? = some slot → suppliedAt new i = some ns → ns = slot.nodes) →
        n.update new nextId = (n, nextId)) ∧
      ∀ (last : List (List (Node Tag))) (nextId' nextId'' : Nat),
        last.length = n.slots.length → n.Fits (last.map some) →
        (m.update (last.map some) nextId').1.isCopyOf (n.update (last.map some) nextId'').1 =
          true := by
  intro m
  have hbuild := exists_build?_of_fits hfits
  have hm : n.RebuiltWith m (n.replacedSlots new) := rebuiltWith_update_of_build? hbuild nextId
  have hkept := isKeptBy_iff hids
  have hsame : n.IsKeptBy new → n.update new nextId = (n, nextId) :=
    fun h => update_of_eq (hkept.1 h) nextId
  have hother : ¬ n.IsKeptBy new → n.update new nextId = (m, nextId + 1) ∧ m.tag.id = nextId := by
    intro h
    obtain ⟨m', hm', hid, -⟩ :=
      exists_update_of_build? (fun heq => h (hkept.2 heq)) hbuild nextId
    have hmm' : m = m' := congrArg Prod.fst hm'
    rw [hmm']
    exact ⟨hm', hid⟩
  refine ⟨⟨fun h => ?_, fun h => ?_⟩, hsame, hother, ⟨hm.kind, hm.content, hm.location⟩,
    fun i slot hslot => ?_, fun hown => ?_,
    fun last nextId' nextId'' hlength hlast => ?_⟩
  · by_contra hchanged
    exact hfresh ((hother hchanged).2.symm.trans h)
  · have hmn : m = n := congrArg Prod.fst (hsame h)
    rw [hmn, IsSameAs]
  · rw [hm.slots, getElem?_replacedSlots, hslot]
    rfl
  · refine hsame (hkept.2 (replacedSlots_eq_iff.2 fun i slot ns hslot hnew => ?_))
    exact (hown i slot ns hslot hnew).symm
  · have hlength' : last.length = m.slots.length := by
      have hslots := congrArg List.length hm.slots
      simp only [replacedSlots, List.length_map, List.length_mapIdx] at hslots
      exact hlength.trans hslots.symm
    have hfits' : m.Fits (last.map some) := by
      rw [Fits, hm.kind]
      exact hlast
    have hlater := rebuiltWith_update_of_build? (exists_build?_of_fits hfits') nextId'
    have hsingle := rebuiltWith_update_of_build? (exists_build?_of_fits hlast) nextId''
    rw [replacedSlots_map_some hlength'] at hlater
    rw [replacedSlots_map_some hlength] at hsingle
    exact isCopyOf_iff.2 ((hm.trans hlater).copies hsingle)

/-- A name that reads the same but was made apart is a change, although the two fields cannot be
told apart otherwise. -/
theorem update_isLens_equalName :
    let field : Node Tag := .field ⟨none, ⟨"a", ⟨0, none⟩⟩, [], [], none, ⟨1, none⟩⟩
    let new : Replacement := [some [], some [.name ⟨"a", ⟨2, none⟩⟩], none, some [], some []]
    ∃ m, field.update new 3 = (m, 4) ∧ ¬ m.IsSameAs field ∧ m.isCopyOf field = true := by
  intro field new
  have hfits : field.Fits new := by
    intro i shape ns hshape hnew
    match i with
    | 0 | 1 | 3 | 4 =>
      cases hshape
      cases hnew
      refine ⟨?_, by decide⟩
      simp [SlotShape.one, SlotShape.optional, SlotShape.many, Arity.Allows]
    | 2 => cases hnew
    | i + 5 => cases hnew
  have hids : Identified (field.children ++ supplied new) := by
    simp [Identified, IsSameAs, field, new, children, slots, Slot.one, Slot.many, Slot.optional,
      supplied, Part.toNode, tag]
  have hchanged : ¬ field.IsKeptBy new := by
    intro h
    have hname := h 1 _ _ rfl rfl
    simp [IsSameAs, Slot.one, Part.toNode, tag] at hname
  obtain ⟨hsame, -, hother, -⟩ := update_isLens field new 3 hfits hids (by decide)
  exact ⟨_, (hother hchanged).1, fun h => hchanged (hsame.1 h), by decide +kernel⟩

end Node

end GraphQLSyntax
