import GraphQLSyntax.Proofs.Printing.Limit
import GraphQLSyntax.Proofs.Rewriting.Pruning

/-!
# Printing what deletion leaves

A document that is left after deleting nodes of a parsed one is printed as a document that
can be parsed, unless an operation has lost the name that it needs: there is no other way
in which deletion makes a document ungrammatical.
-/

namespace GraphQLSyntax

variable {σ : Type}

/-- What deletion leaves of a parsed document is parsed again from its printed text, up to
tags, exactly if the operations without a name are queries without variables and directives,
and the text has no more bytes than there are offsets. -/
theorem parse_print_pruned_iff {rewriter : Rewriter σ} (hdeletes : rewriter.OnlyDeletes)
    {source : Source} {options : ParseOptions} {d d' : Document Tag} {s s' : Session σ}
    (hparse : source.parse options = .ok d)
    (hrewrite : rewriter.rewrite (.document d) s = .ok (some (.document d')) s') (name : String)
    (options' : ParseOptions) :
    (∃ t, (Source.mk d'.print name).parse options' = .ok t ∧ t.map untag = d'.map untag) ↔
      (∀ x, .operation x ∈ d'.definitions → x.name = none →
        x.operation = .query ∧ x.variableDefinitions = [] ∧ x.directives = []) ∧
      d'.print.utf8ByteSize ≤ UInt32.size := by
  have hgrammatical : ∀ l ∈ (Node.document d').preorder, l.Grammatical := fun _ hl =>
    hdeletes.grammatical_of_rewrite (Source.grammatical_of_parse hparse) hrewrite hl
  constructor
  · rintro ⟨t, ht, htags⟩
    have hd' : d'.WellFormed .strict := by
      have ht' := Source.wellFormed_of_parse ht
      rwa [← Document.wellFormed_map untag, htags, Document.wellFormed_map] at ht'
    exact ⟨(d'.wellFormed_iff_grammatical.1 hd').2,
      (exists_parse_print_iff hd' name options').1 ⟨t, ht, htags⟩⟩
  · rintro ⟨hnamed, hfits⟩
    exact (exists_parse_print_iff (d'.wellFormed_iff_grammatical.2 ⟨hgrammatical, hnamed⟩) name
      options').2 hfits

/-! ## Operations that have lost their names -/

section NameDeleted

/-- A query with a name, as parsed. -/
def Document.namedQuery : Document Tag :=
  ⟨[.operation ⟨.query, some ⟨"Q", ⟨0, none⟩⟩, [], [],
    ⟨[.field ⟨none, ⟨"a", ⟨1, none⟩⟩, [], [], none, ⟨2, none⟩⟩], ⟨3, none⟩⟩, ⟨4, none⟩⟩], ⟨5, none⟩⟩

/-- The query without its name, in nodes that were made for it. -/
def Document.namelessQuery : Document Tag :=
  ⟨[.operation ⟨.query, none, [], [],
    ⟨[.field ⟨none, ⟨"a", ⟨1, none⟩⟩, [], [], none, ⟨2, none⟩⟩], ⟨3, none⟩⟩, ⟨6, none⟩⟩], ⟨7, none⟩⟩

/-- The name of a query is not missed. -/
theorem parse_print_pruned_query :
    (Rewriter.deleting (·.content == .text "Q")).OnlyDeletes ∧
      (Source.mk "query Q\x7ba\x7d" "").parse ⟨true, true⟩ = .ok .namedQuery ∧
      (Rewriter.deleting (·.content == .text "Q")).rewrite (.document .namedQuery) ⟨6, ()⟩ =
        .ok (some (.document .namelessQuery)) ⟨8, ()⟩ ∧
      ∃ t, (Source.mk Document.namelessQuery.print "").parse {} = .ok t ∧
        t.map untag = Document.namelessQuery.map untag := by
  have hdeletes := Rewriter.deleting_onlyDeletes (·.content == .text "Q")
  have hparse : (Source.mk "query Q\x7ba\x7d" "").parse ⟨true, true⟩ = .ok .namedQuery := by
    decide +kernel
  have hrewrite : (Rewriter.deleting (·.content == .text "Q")).rewrite (.document .namedQuery)
      ⟨6, ()⟩ = .ok (some (.document .namelessQuery)) ⟨8, ()⟩ := by decide +kernel
  refine ⟨hdeletes, hparse, hrewrite,
    (parse_print_pruned_iff hdeletes hparse hrewrite "" {}).2 ⟨?_, ?_⟩⟩
  · intro x hx _
    have hx' : x = ⟨.query, none, [], [],
        ⟨[.field ⟨none, ⟨"a", ⟨1, none⟩⟩, [], [], none, ⟨2, none⟩⟩], ⟨3, none⟩⟩, ⟨6, none⟩⟩ := by
      simpa [Document.namelessQuery] using hx
    rw [hx']
    exact ⟨rfl, rfl, rfl⟩
  · have hprint : Document.namelessQuery.print = "\x7b\n  a\n\x7d\n" := by rfl
    rw [hprint]
    decide

/-- A mutation with a name, as parsed. -/
def Document.namedMutation : Document Tag :=
  ⟨[.operation ⟨.mutation, some ⟨"M", ⟨0, none⟩⟩, [], [],
    ⟨[.field ⟨none, ⟨"a", ⟨1, none⟩⟩, [], [], none, ⟨2, none⟩⟩], ⟨3, none⟩⟩, ⟨4, none⟩⟩], ⟨5, none⟩⟩

/-- The mutation without its name, in nodes that were made for it. -/
def Document.namelessMutation : Document Tag :=
  ⟨[.operation ⟨.mutation, none, [], [],
    ⟨[.field ⟨none, ⟨"a", ⟨1, none⟩⟩, [], [], none, ⟨2, none⟩⟩], ⟨3, none⟩⟩, ⟨6, none⟩⟩], ⟨7, none⟩⟩

/-- Not everything that deletion leaves can be parsed again: nothing is, if it is a mutation
without a name. -/
theorem not_parse_print_namelessMutation :
    (Rewriter.deleting (·.content == .text "M")).OnlyDeletes ∧
      (Source.mk "mutation M\x7ba\x7d" "").parse ⟨true, true⟩ = .ok .namedMutation ∧
      (Rewriter.deleting (·.content == .text "M")).rewrite (.document .namedMutation) ⟨6, ()⟩ =
        .ok (some (.document .namelessMutation)) ⟨8, ()⟩ ∧
      Document.namelessMutation.print = "mutation \x7b\n  a\n\x7d\n" ∧
      ¬ ∃ t, (Source.mk Document.namelessMutation.print "").parse {} = .ok t ∧
        t.map untag = Document.namelessMutation.map untag := by
  have hprint : Document.namelessMutation.print = "mutation \x7b\n  a\n\x7d\n" := by rfl
  refine ⟨Rewriter.deleting_onlyDeletes _, by decide +kernel, by decide +kernel, hprint, ?_⟩
  rintro ⟨t, ht, -⟩
  have hfault : (Source.mk "mutation \x7b\n  a\n\x7d\n" "").parse {} =
      .error ⟨⟨"mutation \x7b\n  a\n\x7d\n", ""⟩,
        ⟨9, .expectedKind .name (.bare .braceOpen)⟩⟩ := by decide +kernel
  rw [hprint, hfault] at ht
  cases ht

end NameDeleted

end GraphQLSyntax
