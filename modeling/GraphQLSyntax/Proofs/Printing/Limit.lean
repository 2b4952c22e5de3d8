import GraphQLSyntax.Proofs.Lexical.Overlong
import GraphQLSyntax.Proofs.Parsing.Unending
import GraphQLSyntax.Proofs.Printing.Executable

/-!
# How long a printed document may be

The last line of a printed document is a closing brace.  So the document can be parsed again
if its text has no more bytes than there are offsets, and in a longer text the end is never
reached.
-/

namespace GraphQLSyntax

variable {α : Type}

/-! ## The end of a printed document -/

/-- The text ends with a line that a closing brace begins. -/
def EndsBlock (text : String) : Prop :=
  ['\n', '\x7d'] <:+ text.toList

theorem EndsBlock.ne_empty {text : String} (h : EndsBlock text) : text ≠ "" := by
  rintro rfl
  cases List.suffix_nil.1 h

theorem EndsBlock.append {text : String} (h : EndsBlock text) (before : String) :
    EndsBlock (before ++ text) := by
  rw [EndsBlock, String.toList_append]
  exact h.trans (List.suffix_append _ _)

/-- Joined parts end as the last one does. -/
theorem EndsBlock.joinParts {last : String} (h : EndsBlock last) (parts : List String)
    (separator : String) : EndsBlock (joinParts (parts ++ [last]) separator) := by
  induction parts with
  | nil => rwa [List.nil_append, joinParts_singleton]
  | cons part parts ih =>
    rw [List.cons_append]
    by_cases hpart : part = ""
    · rwa [hpart, joinParts_cons_empty]
    · obtain ⟨hnothing, -⟩ | ⟨-, heq⟩ := joinParts_cons hpart (parts ++ [last]) separator
      · exact absurd hnothing ih.ne_empty
      · rw [heq]
        exact ih.append _

theorem endsBlock_block {items : List String} (h : joinParts items "\n" ≠ "") :
    EndsBlock (block items) := by
  rw [block_of_ne_empty h, EndsBlock, String.toList_append]
  exact List.suffix_append _ _

variable {degree : Degree}

/-- A selection is printed with some text. -/
theorem Selection.WellFormed.print_ne_empty {x : Selection α} (h : x.WellFormed degree) :
    x.print ≠ "" := by
  refine (Selection.WellFormed.written h).ne_empty ?_
  cases x with
  | field x =>
    cases x
    simp [Selection.terminals, Field.terminals, Name.terminals]
  | spread x => simp [Selection.terminals, FragmentSpread.terminals]
  | inline x =>
    cases x
    simp [Selection.terminals, InlineFragment.terminals]

theorem SelectionSet.WellFormed.endsBlock {x : SelectionSet α} (h : x.WellFormed degree) :
    EndsBlock x.print := by
  obtain ⟨selections, tag⟩ := x
  obtain ⟨hne, hselections⟩ := h
  rw [Selection.allWellFormed_iff] at hselections
  obtain ⟨first, others, rfl⟩ := List.exists_cons_of_ne_nil hne
  have hfirst := (hselections first List.mem_cons_self).print_ne_empty
  rw [SelectionSet.print, Selection.printAll_eq_map, List.map_cons]
  exact endsBlock_block (joinParts_cons_ne_empty hfirst _ _)

theorem Definition.WellFormed.endsBlock {x : Definition α} (h : x.WellFormed degree) :
    EndsBlock x.print := by
  cases x with
  | operation x =>
    have hset : EndsBlock x.selectionSet.print := h.2.2.2.2.endsBlock
    show EndsBlock x.print
    rw [OperationDefinition.print]
    split
    · exact hset
    · exact hset.joinParts [_, _, _] " "
  | fragment x =>
    have hset : EndsBlock x.selectionSet.print := h.2.2.2.2.endsBlock
    exact hset.joinParts [_, _] " "

/-- The last line of a printed document is a closing brace. -/
theorem Document.WellFormed.exists_print_eq {x : Document α} (h : x.WellFormed degree) :
    ∃ front, x.print.toList = front ++ ['\n'] ++ '\x7d' :: ['\n'] := by
  obtain ⟨hne, hdefinitions⟩ := h
  have hlast := (hdefinitions _ (List.getLast_mem hne)).endsBlock
  have hsplit := List.dropLast_concat_getLast hne
  have hends : EndsBlock (joinParts (x.definitions.map Definition.print) "\n\n") := by
    rw [← hsplit, List.map_append]
    exact hlast.joinParts _ _
  obtain ⟨front, hfront⟩ := hends
  refine ⟨front, ?_⟩
  rw [Document.print, String.toList_append, ← hfront]
  simp

/-! ## Parsing it again -/

/-- A well-formed document is parsed again from its printed text exactly if this has no more
bytes than there are offsets. -/
theorem exists_parse_print_iff {d : Document α} (hd : d.WellFormed .strict) (name : String)
    (options : ParseOptions) :
    (∃ t, (Source.mk d.print name).parse options = .ok t ∧ t.map untag = d.map untag) ↔
      d.print.utf8ByteSize ≤ UInt32.size := by
  obtain ⟨front, hprint⟩ := hd.exists_print_eq
  have hchars : (Source.mk d.print name).chars = front ++ ['\n'] ++ '\x7d' :: ['\n'] := hprint
  constructor
  · rintro ⟨t, ht, -⟩
    obtain ⟨token, htoken, hkind⟩ := Source.parse_exists_eof ht
    refine Nat.le_of_not_lt fun hlong => ?_
    have hcount := utf8ByteSize_eq_byteLength d.print
    rw [hprint, byteLength_append] at hcount
    have hbrace : byteLength ['\x7d', '\n'] = 2 := rfl
    exact Source.tokens_ne_eof hchars ⟨by decide, by decide⟩ (by omega) htoken hkind
  · intro hfits
    have hfits : (Source.mk d.print name).byteCount ≤ UInt32.size := hfits
    have hwritten : Written (Source.mk d.print name).chars d.yield := hd.written
    have hblank : ∀ c, (Source.mk d.print name).chars.getLast? = some c → isBlank c = true := by
      intro c hc
      rw [hchars, List.getLast?_append] at hc
      obtain rfl := Option.some.inj hc
      decide
    obtain ⟨ts, token, htokens, hkind, hlexemes⟩ :=
      Source.tokens_of_written_blank hfits hwritten hblank
    have htoken : .ok token ∈ (Source.mk d.print name).tokens := by
      rw [htokens]
      simp
    obtain hstream | hnone := (Source.mk d.print name).readOn_isStream_or (Source.isScan_scan 0 _)
    case inr => exact absurd hkind (hnone token htoken)
    exact Source.parse_complete hstream options (by simpa using hd) htokens hkind
      (by simpa using hlexemes.symm)

end GraphQLSyntax
