import GraphQLSyntax.Proofs.Parsing.SchemaInverse
import GraphQLSyntax.Proofs.Printing.Schema
import GraphQLSyntax.Proofs.Printing.Tags

/-!
# Parsing a schema that was printed

The printed text of a well-formed schema document is written from the lexemes of the
document and is therefore parsed as this very document, whatever its layout and
whichever keywords are among its names.
-/

namespace GraphQLSyntax

variable {α : Type}

/-- A text that is written from the lexemes of a well-formed schema document is parsed as
that document. -/
theorem parseSchema_of_written {body : String} {d : SchemaDocument α} (hd : d.WellFormed .strict)
    (h : Written body.toList d.yield) (hfits : body.utf8ByteSize < UInt32.size) (name : String)
    (options : ParseOptions) :
    ∃ t, (Source.mk body name).parseSchema options = .ok t ∧ t.map untag = d.map untag := by
  have hfits : (Source.mk body name).byteCount < UInt32.size := hfits
  obtain ⟨ts, token, htokens, hkind, hlexemes⟩ := Source.tokens_of_written hfits h
  exact Source.parseSchema_complete (Source.tokens_isStream hfits) options (by simpa using hd)
    htokens hkind (by simpa using hlexemes.symm)

/-- What is printed for a well-formed schema document is parsed as the document again, up
to tags, and so it is printed in the same way. -/
theorem parseSchema_print {d : SchemaDocument α} (hd : d.WellFormed .strict)
    (hfits : d.print.utf8ByteSize < UInt32.size) (name : String) (options : ParseOptions) :
    ∃ t, (Source.mk d.print name).parseSchema options = .ok t ∧ t.map untag = d.map untag ∧
      t.print = d.print := by
  obtain ⟨t, ht, htags⟩ := parseSchema_of_written hd hd.written hfits name options
  refine ⟨t, ht, htags, ?_⟩
  rw [← t.print_map untag, htags, SchemaDocument.print_map]

/-- A type whose name and whose interface's name is `implements`, a union with a definition
right after its last member, and a default value with a line end in it. -/
def keywordSchema : SchemaDocument Unit :=
  ⟨[.type ⟨⟨"implements", ()⟩, [⟨⟨"implements", ()⟩, ()⟩], [], ()⟩,
    .union ⟨⟨"union", ()⟩, [⟨⟨"type", ()⟩, ()⟩, ⟨⟨"union", ()⟩, ()⟩], ()⟩,
    .inputObject ⟨⟨"input", ()⟩,
      [⟨⟨"a", ()⟩, .nonNull ⟨.list ⟨.named ⟨⟨"b", ()⟩, ()⟩, ()⟩, ()⟩,
        some (.list ⟨[.object ⟨[⟨⟨"c", ()⟩, .string ⟨"x\ny", ()⟩, ()⟩], ()⟩], ()⟩), ()⟩], ()⟩],
    ()⟩

theorem keywordSchema_wellFormed : keywordSchema.WellFormed .strict := by
  have hnames : isName "implements" = true ∧ isName "union" = true ∧ isName "type" = true ∧
      isName "input" = true ∧ isName "a" = true ∧ isName "b" = true ∧ isName "c" = true := by
    decide
  simp [keywordSchema, SchemaDocument.WellFormed, SchemaDefinition.WellFormed,
    TypeDefinition.WellFormed, UnionDefinition.WellFormed, InputObjectDefinition.WellFormed,
    InputFieldDefinition.WellFormed, NamedType.WellFormed, TypeRef.WellFormed,
    NonNullType.WellFormed, NullableTypeRef.WellFormed, ListType.WellFormed,
    Value.DefaultWellFormed, Value.WellFormed, ListValue.WellFormed, ObjectValue.WellFormed,
    ObjectField.WellFormed, Value.isConst, ListValue.isConst, ObjectValue.isConst,
    ObjectField.isConst, Name.WellFormed, hnames]

theorem parseSchema_print_keywords :
    keywordSchema.WellFormed .strict ∧
      keywordSchema.print =
        "type implements implements implements \x7b\x7d\n\nunion union = type | union\n\n" ++
          "input input \x7b\n  a: [b]! = [\x7bc: \"x\\ny\"\x7d]\n\x7d\n" ∧
      keywordSchema.print.utf8ByteSize < UInt32.size ∧
      ∃ t, (Source.mk keywordSchema.print "").parseSchema {} = .ok t ∧
        t.map untag = keywordSchema.map untag ∧ t.print = keywordSchema.print := by
  have hprint : keywordSchema.print =
      "type implements implements implements \x7b\x7d\n\nunion union = type | union\n\n" ++
        "input input \x7b\n  a: [b]! = [\x7bc: \"x\\ny\"\x7d]\n\x7d\n" := by decide +kernel
  have hfits : keywordSchema.print.utf8ByteSize < UInt32.size := by
    rw [hprint]
    decide
  exact ⟨keywordSchema_wellFormed, hprint, hfits,
    parseSchema_print keywordSchema_wellFormed hfits "" {}⟩

end GraphQLSyntax
