import GraphQLSyntax.Proofs.Parsing.Unending
import GraphQLSyntax.Proofs.Parsing.UnendingSchema
import GraphQLSyntax.Proofs.Rewriting.Deletion
import GraphQLSyntax.Proofs.Tree.Grammatical

/-!
# Pruned trees are grammatical

What the grammar asks of nodes does not get lost when nodes are deleted, as long as a node
that needs a child goes with its last one.  So what a rewriter that only deletes leaves of
a parsed document is as grammatical as the document was, apart from operations that need
their names.
-/

namespace GraphQLSyntax

/-! ## Slots -/

/-- The arities of the slots of nodes of the kind. -/
def NodeKind.arities : NodeKind → List Arity
  | .name | .intValue | .floatValue | .stringValue | .booleanValue | .enumValue => []
  | .document | .selectionSet | .schemaDocument => [.atLeastOne]
  | .listValue | .objectValue => [.many]
  | .variableReference | .namedType | .listType | .nonNullType | .scalarDefinition
  | .enumValueDefinition => [.one]
  | .argument | .objectField => [.one, .one]
  | .fragmentSpread | .directive | .interfaceDefinition | .inputObjectDefinition =>
    [.one, .many]
  | .unionDefinition | .enumDefinition => [.one, .atLeastOne]
  | .variableDefinition | .argumentDefinition | .inputFieldDefinition =>
    [.one, .one, .optional]
  | .inlineFragment | .fieldDefinition => [.one, .many, .one]
  | .typeDefinition => [.one, .many, .many]
  | .operationDefinition => [.optional, .many, .many, .one]
  | .fragmentDefinition => [.one, .one, .many, .one]
  | .field => [.optional, .one, .many, .many, .optional]

theorem Node.map_arity_slots {α : Type} (n : Node α) :
    n.slots.map Slot.arity = n.kind.arities := by
  cases n <;> rfl

/-- What is left of a slot when nodes are deleted. -/
structure Slot.Prunes (old new : Slot Tag) : Prop where
  arity_eq : new.arity = old.arity
  exists_kept : ∃ kept : List (Node Tag × Node Tag),
    (kept.map Prod.fst).Sublist old.nodes ∧ kept.map Prod.snd = new.nodes ∧
      (old.arity.isNeeded → old.nodes ≠ [] → kept ≠ []) ∧
      ∀ pair ∈ kept, pair.1.Prunes pair.2

namespace Slot.Prunes

variable {old new : Slot Tag}

theorem exists_of_mem (h : old.Prunes new) {c : Node Tag} (hc : c ∈ new.nodes) :
    ∃ b ∈ old.nodes, b.Prunes c := by
  obtain ⟨kept, hold, hnew, -, hbelow⟩ := h.exists_kept
  rw [← hnew] at hc
  obtain ⟨pair, hpair, rfl⟩ := List.mem_map.1 hc
  exact ⟨pair.1, hold.mem (List.mem_map_of_mem hpair), hbelow pair hpair⟩

theorem nodes_ne_nil (h : old.Prunes new) (hneeded : old.arity.isNeeded)
    (hne : old.nodes ≠ []) : new.nodes ≠ [] := by
  obtain ⟨kept, -, hnew, hkept, -⟩ := h.exists_kept
  rw [← hnew, Ne, List.map_eq_nil_iff]
  exact hkept hneeded hne

/-- A single child that is needed is left. -/
theorem exists_eq_singleton (h : old.Prunes new) (hneeded : old.arity.isNeeded)
    {b : Node Tag} (hb : old.nodes = [b]) : ∃ c, new.nodes = [c] ∧ b.Prunes c := by
  obtain ⟨kept, hold, hnew, hkept, hbelow⟩ := h.exists_kept
  rw [hb] at hold hkept
  have hne := hkept hneeded (List.cons_ne_nil b [])
  obtain hnil | hone := List.sublist_singleton.1 hold
  · exact absurd (List.map_eq_nil_iff.1 hnil) hne
  · obtain ⟨pair, rfl, hpair⟩ := List.map_eq_singleton_iff.1 hone
    exact ⟨pair.2, hnew.symm, hpair ▸ hbelow pair List.mem_cons_self⟩

theorem of_kept {kept : List (List (Node Tag × Node Tag))} {old new : List (Slot Tag)}
    (harity : new.map arity = old.map arity)
    (hold : List.Forall₂ (fun pairs slot => (pairs.map Prod.fst).Sublist slot.nodes ∧
      (slot.arity.isNeeded → slot.nodes ≠ [] → pairs ≠ [])) kept old)
    (hnew : kept.map (·.map Prod.snd) = new.map nodes)
    (hbelow : ∀ pairs ∈ kept, ∀ pair ∈ pairs, pair.1.Prunes pair.2) :
    List.Forall₂ Prunes old new := by
  induction hold generalizing new with
  | nil =>
    rw [List.map_eq_nil_iff.1 harity]
    exact .nil
  | @cons pairs slot _ _ hslot _ ih =>
    cases new with
    | nil => cases harity
    | cons other new =>
      rw [List.forall_mem_cons] at hbelow
      obtain ⟨harity, harities⟩ := List.cons.inj harity
      obtain ⟨hnodes, hnew⟩ := List.cons.inj hnew
      exact .cons ⟨harity, pairs, hslot.1, hnodes, hslot.2, hbelow.1⟩
        (ih harities hnew hbelow.2)

variable {olds news : List (Slot Tag)}

theorem exists_slot (h : List.Forall₂ Prunes olds news) (hnew : new ∈ news) :
    ∃ old ∈ olds, old.Prunes new := by
  induction h with
  | nil => cases hnew
  | cons hslot _ ih =>
    rw [List.exists_mem_cons_iff]
    cases hnew with
    | head => exact .inl hslot
    | tail _ hnew => exact .inr (ih hnew)

theorem exists_nodes (h : List.Forall₂ Prunes olds news) :
    ∃ kept : List (Node Tag × Node Tag),
      (kept.map Prod.fst).Sublist (olds.flatMap nodes) ∧
        kept.map Prod.snd = news.flatMap nodes ∧ ∀ pair ∈ kept, pair.1.Prunes pair.2 := by
  induction h with
  | nil => exact ⟨[], .slnil, rfl, List.forall_mem_nil _⟩
  | cons hslot _ ih =>
    obtain ⟨first, hold, hnew, -, hbelow⟩ := hslot.exists_kept
    obtain ⟨rest, holds, hnews, hrest⟩ := ih
    refine ⟨first ++ rest, ?_, ?_, List.forall_mem_append.2 ⟨hbelow, hrest⟩⟩
    · rw [List.map_append, List.flatMap_cons]
      exact hold.append holds
    · rw [List.map_append, List.flatMap_cons, hnew, hnews]

end Slot.Prunes

/-! ## Nodes -/

namespace Node.Prunes

variable {n m : Node Tag}

theorem kind_eq : n.Prunes m → m.kind = n.kind
  | .intro hkind _ _ _ _ _ _ => hkind

theorem content_eq : n.Prunes m → m.content = n.content
  | .intro _ hcontent _ _ _ _ _ => hcontent

theorem forall₂_slots (h : n.Prunes m) : List.Forall₂ Slot.Prunes n.slots m.slots := by
  obtain ⟨hkind, -, -, kept, hold, hnew, hbelow⟩ := h
  refine Slot.Prunes.of_kept ?_ hold hnew hbelow
  rw [map_arity_slots, map_arity_slots, hkind]

theorem exists_slot (h : n.Prunes m) {new : Slot Tag} (hnew : new ∈ m.slots) :
    ∃ old ∈ n.slots, old.Prunes new :=
  Slot.Prunes.exists_slot h.forall₂_slots hnew

theorem exists_child (h : n.Prunes m) {c : Node Tag} (hc : c ∈ m.children) :
    ∃ b ∈ n.children, b.Prunes c := by
  obtain ⟨new, hnew, hc⟩ := List.mem_flatMap.1 hc
  obtain ⟨old, hold, hslot⟩ := h.exists_slot hnew
  obtain ⟨b, hb, hbelow⟩ := hslot.exists_of_mem hc
  exact ⟨b, List.mem_flatMap.2 ⟨old, hold, hb⟩, hbelow⟩

/-- What is left of a tree are prunings of its nodes. -/
theorem exists_of_mem_preorder (h : n.Prunes m) {l : Node Tag} (hl : l ∈ m.preorder) :
    ∃ k ∈ n.preorder, k.Prunes l := by
  induction m using Node.inductionOn generalizing n with
  | step m ih =>
    rw [preorder_eq, List.mem_cons, List.mem_flatMap] at hl
    obtain rfl | ⟨c, hc, hl⟩ := hl
    · rw [n.preorder_eq]
      exact ⟨n, List.mem_cons_self, h⟩
    · obtain ⟨b, hb, hbelow⟩ := h.exists_child hc
      obtain ⟨k, hk, hprunes⟩ := ih c hc hbelow hl
      rw [n.preorder_eq]
      exact ⟨k, List.mem_cons_of_mem _ (List.mem_flatMap.2 ⟨b, hb, hk⟩), hprunes⟩

theorem hasNoVariable (h : n.Prunes m) (hn : n.HasNoVariable) : m.HasNoVariable := by
  intro l hl
  obtain ⟨k, hk, hprunes⟩ := h.exists_of_mem_preorder hl
  rw [hprunes.kind_eq]
  exact hn k hk

/-- The name of a field of an object is not deleted without the field. -/
theorem fieldName_eq (h : n.Prunes m) (hkind : n.kind = .objectField) :
    m.fieldName = n.fieldName := by
  have hslots := h.forall₂_slots
  cases n <;> cases hkind
  rename_i x
  obtain ⟨name, rest, hname, -, heq⟩ := List.forall₂_cons_left_iff.1 hslots
  obtain ⟨c, hc, hprunes⟩ := hname.exists_eq_singleton rfl rfl
  have hm : m.children.head? = some c := by
    rw [children, heq, List.flatMap_cons, hc]
    rfl
  rw [fieldName, hm]
  exact congrArg some hprunes.content_eq

theorem exists_children (h : n.Prunes m) : ∃ kept : List (Node Tag × Node Tag),
    (kept.map Prod.fst).Sublist n.children ∧ kept.map Prod.snd = m.children ∧
      ∀ pair ∈ kept, pair.1.Prunes pair.2 :=
  Slot.Prunes.exists_nodes h.forall₂_slots

/-- The grammar is content with what is left of a node that it was content with. -/
theorem grammatical (h : n.Prunes m) (hn : n.Grammatical) : m.Grammatical := by
  rw [grammatical_iff] at hn ⊢
  constructor
  case spelled =>
    rw [h.kind_eq, h.content_eq]
    exact hn.spelled
  case filled =>
    intro new hnew harity
    obtain ⟨old, hold, hslot⟩ := h.exists_slot hnew
    have harity : old.arity = .atLeastOne := hslot.arity_eq ▸ harity
    exact hslot.nodes_ne_nil (by rw [harity]; rfl) (hn.filled old hold harity)
  case notOn =>
    intro hkind c hc
    obtain ⟨b, hb, hbelow⟩ := h.exists_child hc
    rw [hbelow.content_eq]
    exact hn.notOn (h.kind_eq ▸ hkind) b hb
  case distinct =>
    intro hkind
    rw [h.kind_eq] at hkind
    obtain ⟨kept, hold, hnew, hbelow⟩ := h.exists_children
    have hfields : ∀ b ∈ n.children, b.kind = .objectField := by
      cases n <;> cases hkind
      simp only [children, slots, Slot.many, List.flatMap_singleton, List.forall_mem_map]
      exact fun _ _ => rfl
    have hnames : m.children.map fieldName = (kept.map Prod.fst).map fieldName := by
      rw [← hnew, List.map_map, List.map_map]
      refine List.map_congr_left fun pair hpair => ?_
      exact (hbelow pair hpair).fieldName_eq
        (hfields _ (hold.mem (List.mem_map_of_mem hpair)))
    rw [hnames]
    exact (hn.distinct hkind).sublist (hold.map fieldName)
  case constant =>
    intro hkind new hnew harity c hc
    obtain ⟨old, hold, hslot⟩ := h.exists_slot hnew
    obtain ⟨b, hb, hbelow⟩ := hslot.exists_of_mem hc
    exact hbelow.hasNoVariable
      (hn.constant (h.kind_eq ▸ hkind) old hold (hslot.arity_eq ▸ harity) b hb)

end Node.Prunes

/-! ## What a rewrite leaves -/

/-- Rewriting the tree leaves a grammatical one.  Nothing but the rewriter itself stops it,
and it comes to an end if the rewriter never does.  What is left is a pruned tree, made up
of what is left of the nodes of the old one; and what is left of any occurrence of a node
has in its slots what has come of the nodes that stood there, in their order. -/
structure Rewriter.LeavesGrammatical {σ : Type} (rewriter : Rewriter σ) (n : Node Tag)
    (s : Session σ) : Prop where
  eq_stopped : ∀ halt s', rewriter.rewrite n s = .error halt s' → halt = .stopped
  exists_ok : rewriter.NeverHalts → ∃ result s', rewriter.rewrite n s = .ok result s'
  prunes : ∀ m s', rewriter.rewrite n s = .ok (some m) s' → n.Prunes m
  origin : ∀ m s', rewriter.rewrite n s = .ok (some m) s' →
    ∀ l ∈ m.preorder, ∃ k ∈ n.preorder, k.Prunes l
  grammatical : ∀ m s', rewriter.rewrite n s = .ok (some m) s' →
    ∀ l ∈ m.preorder, l.Grammatical
  slots : ∀ result s', rewriter.rewrite n s = .ok result s' →
    ∃ run, rewriter.runWithin n.height n s = .ok run s' ∧ run.result = result ∧
      ∀ path occurrence m, run.at? path = some occurrence → occurrence.result = some m →
        occurrence.slots.map (·.map Run.given) = occurrence.given.slots.map Slot.nodes ∧
          occurrence.given.RebuiltWith m (occurrence.slots.map Run.results)

namespace Rewriter

variable {σ : Type} {rewriter : Rewriter σ} {n m : Node Tag} {s s' : Session σ}

open Rewriting

theorem exists_run_of_rewrite {result : Option (Node Tag)}
    (h : rewriter.rewrite n s = .ok result s') :
    ∃ run, rewriter.runWithin n.height n s = .ok run s' ∧ run.result = result := by
  obtain ⟨substitute, t, hwithin, h⟩ := bind_eq_ok.1 h
  obtain ⟨rfl, rfl⟩ := pure_eq_ok.1 h
  exact rewriteWithin_eq_ok.1 hwithin

theorem OnlyDeletes.prunes_of_rewrite (hdeletes : rewriter.OnlyDeletes)
    (h : rewriter.rewrite n s = .ok (some m) s') : n.Prunes m := by
  obtain ⟨run, hrun, hresult⟩ := exists_run_of_rewrite h
  exact hdeletes.prunes hrun hresult

/-- The grammar is content with all that is left of a tree that it was content with. -/
theorem OnlyDeletes.grammatical_of_rewrite (hdeletes : rewriter.OnlyDeletes)
    (hgrammatical : ∀ k ∈ n.preorder, k.Grammatical)
    (h : rewriter.rewrite n s = .ok (some m) s') {l : Node Tag} (hl : l ∈ m.preorder) :
    l.Grammatical := by
  obtain ⟨k, hk, hprunes⟩ := (hdeletes.prunes_of_rewrite h).exists_of_mem_preorder hl
  exact hprunes.grammatical (hgrammatical k hk)

theorem OnlyDeletes.leavesGrammatical (hdeletes : rewriter.OnlyDeletes)
    (hgrammatical : ∀ k ∈ n.preorder, k.Grammatical) (s : Session σ) :
    rewriter.LeavesGrammatical n s where
  eq_stopped :=
    HaltsOnly.bind (hdeletes.haltsOnly (Nat.le_refl n.height)) (fun _ _ _ _ => .pure _) s
  exists_ok hgoes := by
    obtain ⟨result, s', hwithin⟩ := hdeletes.exists_ok hgoes (Nat.le_refl n.height) s
    exact ⟨_, s', bind_eq_ok.2 ⟨result, s', hwithin, rfl⟩⟩
  prunes _ _ h := hdeletes.prunes_of_rewrite h
  origin _ _ h _ hl := (hdeletes.prunes_of_rewrite h).exists_of_mem_preorder hl
  grammatical _ _ h _ hl := hdeletes.grammatical_of_rewrite hgrammatical h hl
  slots result s' h := by
    obtain ⟨run, hrun, hresult⟩ := exists_run_of_rewrite h
    refine ⟨run, hrun, hresult, fun path occurrence m hat hm => ?_⟩
    obtain ⟨_, _, _, hoccurrence⟩ := exists_run_of_at? hrun hat
    obtain ⟨hcomplete, hrebuilt⟩ := hdeletes.rebuiltWith hoccurrence hm
    exact ⟨hcomplete.given_eq, hrebuilt⟩

end Rewriter

/-- The grammar is content with every node of what is parsed. -/
theorem Source.grammatical_of_parse {source : Source} {options : ParseOptions}
    {d : Document Tag} (h : source.parse options = .ok d) :
    ∀ k ∈ (Node.document d).preorder, k.Grammatical := fun k hk =>
  ((Node.document d).wellFormed_iff_forall_mem.1 (wellFormed_of_parse h) k hk).1

theorem Source.grammatical_of_parseSchema {source : Source} {options : ParseOptions}
    {d : SchemaDocument Tag} (h : source.parseSchema options = .ok d) :
    ∀ k ∈ (Node.schemaDocument d).preorder, k.Grammatical := fun k hk =>
  ((Node.schemaDocument d).wellFormed_iff_forall_mem.1 (wellFormed_of_parseSchema h) k hk).1

/-- Deletion keeps documents grammatical.  Whatever is parsed, a rewriter whose calls keep or
delete their nodes leaves nothing of it or a pruned document that breaks no rule of the
grammar but that operations need names. -/
theorem deletion_keeps_grammar {σ : Type} {rewriter : Rewriter σ}
    (hdeletes : rewriter.OnlyDeletes) (source : Source) (options : ParseOptions)
    (s : Session σ) :
    (∀ d, source.parse options = .ok d → rewriter.LeavesGrammatical (.document d) s) ∧
      ∀ d, source.parseSchema options = .ok d →
        rewriter.LeavesGrammatical (.schemaDocument d) s := by
  constructor
  · intro d hd
    exact hdeletes.leavesGrammatical (Source.grammatical_of_parse hd) s
  · intro d hd
    exact hdeletes.leavesGrammatical (Source.grammatical_of_parseSchema hd) s

/-! ## One of two fields deleted -/

section FieldDeleted

/-- Two fields in braces, as parsed. -/
def Document.twoFields : Document Tag :=
  ⟨[.operation ⟨.query, none, [], [], ⟨[.field ⟨none, ⟨"a", ⟨0, none⟩⟩, [], [], none, ⟨1, none⟩⟩,
    .field ⟨none, ⟨"b", ⟨2, none⟩⟩, [], [], none, ⟨3, none⟩⟩], ⟨4, none⟩⟩, ⟨5, none⟩⟩], ⟨6, none⟩⟩

/-- The first of the fields, in nodes that were made for it. -/
def Document.firstField : Document Tag :=
  ⟨[.operation ⟨.query, none, [], [], ⟨[.field ⟨none, ⟨"a", ⟨0, none⟩⟩, [], [], none, ⟨1, none⟩⟩],
    ⟨7, none⟩⟩, ⟨8, none⟩⟩], ⟨9, none⟩⟩

theorem deletion_keeps_grammar_name :
    (Rewriter.deleting (·.content == .text "b")).OnlyDeletes ∧
      (Rewriter.deleting (·.content == .text "b")).NeverHalts ∧
      (Source.mk "\x7ba b\x7d" "").parse ⟨true, true⟩ = .ok .twoFields ∧
      (Rewriter.deleting (·.content == .text "b")).rewrite (.document .twoFields) ⟨7, ()⟩ =
        .ok (some (.document .firstField)) ⟨10, ()⟩ ∧
      (Node.document .twoFields).Prunes (.document .firstField) ∧
      ∀ l ∈ (Node.document .firstField).preorder, l.Grammatical := by
  have hparse : (Source.mk "\x7ba b\x7d" "").parse ⟨true, true⟩ = .ok .twoFields := by
    decide +kernel
  have hrewrite : (Rewriter.deleting (·.content == .text "b")).rewrite
      (.document .twoFields) ⟨7, ()⟩ = .ok (some (.document .firstField)) ⟨10, ()⟩ := by
    decide +kernel
  have hdeletes := Rewriter.deleting_onlyDeletes (·.content == .text "b")
  have hleaves := (deletion_keeps_grammar hdeletes _ _ ⟨7, ()⟩).1 _ hparse
  exact ⟨hdeletes, Rewriter.deleting_neverHalts _, hparse, hrewrite,
    hleaves.prunes _ _ hrewrite, hleaves.grammatical _ _ hrewrite⟩

end FieldDeleted

end GraphQLSyntax
