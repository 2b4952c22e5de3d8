import GraphQLSyntax.Proofs.Parsing.Unending
import GraphQLSyntax.Proofs.Printing.Executable
import GraphQLSyntax.Proofs.Printing.Tags

/-!
# Parsing what was printed

The printed text of a well-formed document is written from the lexemes of the document,
so it is read as these lexemes and parsed as this very document.  Nothing but the tags
can be different, and those are not printed.
-/

namespace GraphQLSyntax

variable {α : Type}

/-- A text that is written from the lexemes of a well-formed document is parsed as that
document. -/
theorem parse_of_written {body : String} {d : Document α} (hd : d.WellFormed .strict)
    (h : Written body.toList d.yield) (hfits : body.utf8ByteSize < UInt32.size) (name : String)
    (options : ParseOptions) :
    ∃ t, (Source.mk body name).parse options = .ok t ∧ t.map untag = d.map untag := by
  have hfits : (Source.mk body name).byteCount < UInt32.size := hfits
  obtain ⟨ts, token, htokens, hkind, hlexemes⟩ := Source.tokens_of_written hfits h
  exact Source.parse_complete (Source.tokens_isStream hfits) options (by simpa using hd) htokens
    hkind (by simpa using hlexemes.symm)

/-- What is printed for a well-formed document is parsed as the document again, up to
tags, and printed in the same way; and every document that is parsed is well formed. -/
theorem parse_print {d : Document α} (hd : d.WellFormed .strict)
    (hfits : d.print.utf8ByteSize < UInt32.size) (name : String) (options : ParseOptions) :
    (∃ t, (Source.mk d.print name).parse options = .ok t ∧ t.map untag = d.map untag ∧
      t.print = d.print) ∧
    ∀ (source : Source) (options' : ParseOptions) (t : Document Tag),
      source.parse options' = .ok t → t.WellFormed .strict := by
  refine ⟨?_, fun source options' t => Source.wellFormed_of_parse⟩
  obtain ⟨t, ht, htags⟩ := parse_of_written hd hd.written hfits name options
  refine ⟨t, ht, htags, ?_⟩
  rw [← t.print_map untag, htags, Document.print_map]

/-- A field with a string, the line end in which is escaped and so not indented. -/
def lineEndDocument : Document Unit :=
  ⟨[.operation ⟨.query, none, [], [], ⟨[.field ⟨none, ⟨"a", ()⟩,
    [⟨⟨"b", ()⟩, .string ⟨"x\ny", ()⟩, ()⟩], [], none, ()⟩], ()⟩, ()⟩], ()⟩

theorem lineEndDocument_wellFormed : lineEndDocument.WellFormed .strict := by
  have hfield : isName "a" = true := by decide
  have hargument : isName "b" = true := by decide
  simp [lineEndDocument, Document.WellFormed, Definition.WellFormed,
    OperationDefinition.WellFormed, SelectionSet.WellFormed, Selection.AllWellFormed,
    Selection.WellFormed, Field.WellFormed, SelectionSet.OptionWellFormed, Argument.WellFormed,
    Value.WellFormed, Name.WellFormed, hfield, hargument]

theorem parse_print_lineEnd :
    lineEndDocument.WellFormed .strict ∧
      lineEndDocument.print = "\x7b\n  a(b: \"x\\ny\")\n\x7d\n" ∧
      lineEndDocument.print.utf8ByteSize < UInt32.size ∧
      ∃ t, (Source.mk lineEndDocument.print "").parse {} = .ok t ∧
        t.map untag = lineEndDocument.map untag ∧ t.print = lineEndDocument.print := by
  have hprint : lineEndDocument.print = "\x7b\n  a(b: \"x\\ny\")\n\x7d\n" := by rfl
  have hfits : lineEndDocument.print.utf8ByteSize < UInt32.size := by
    rw [hprint]
    decide
  exact ⟨lineEndDocument_wellFormed, hprint, hfits,
    (parse_print lineEndDocument_wellFormed hfits "" {}).1⟩

end GraphQLSyntax
