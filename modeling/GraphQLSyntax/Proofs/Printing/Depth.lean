import GraphQLSyntax.Proofs.Parsing.UnendingSchema
import GraphQLSyntax.Proofs.Printing.Indentation
import GraphQLSyntax.Proofs.Printing.RoundTrip
import GraphQLSyntax.Proofs.Printing.SchemaRoundTrip

/-!
# Documents printed by depth

The blocks of a document are its selection sets, fields and enum values; all else is printed on
one line.  So definitions are passages, and it is by their depth that the lines of a printed
document are indented.  This holds of every well-formed document, whatever its strings are, since
line ends in strings are escaped.
-/

namespace GraphQLSyntax

variable {α β : Type} {degree : Degree}

/-! ## Passages of executable documents -/

/-- What is printed of a field on the line with its name. -/
def Field.phrase (aliasName : Option (Name α)) (name : Name α) (arguments : List (Argument α))
    (directives : List (Directive α)) : String :=
  joinParts
    [enclose "" ((aliasName.map Name.print).getD "") ": " ++ name.print ++
        Argument.printList arguments,
      Directive.printList directives]
    " "

mutual

/-- A selection set behind a phrase. -/
def SelectionSet.passage (phrase : String) : SelectionSet α → Passage
  | ⟨selections, _⟩ => .block phrase (Selection.passages selections)
termination_by structural x => x

def Selection.passages : List (Selection α) → List Passage
  | [] => []
  | x :: xs => x.passage :: Selection.passages xs
termination_by structural xs => xs

def Selection.passage : Selection α → Passage
  | .field x => x.passage
  | .spread x => .line x.print
  | .inline x => x.passage
termination_by structural x => x

def Field.passage : Field α → Passage
  | ⟨aliasName, name, arguments, directives, selectionSet, _⟩ =>
    SelectionSet.passageOption (Field.phrase aliasName name arguments directives) selectionSet
termination_by structural x => x

/-- A selection set behind a phrase, or just the phrase if there is none. -/
def SelectionSet.passageOption (phrase : String) : Option (SelectionSet α) → Passage
  | none => .line phrase
  | some x => x.passage phrase
termination_by structural x => x

def InlineFragment.passage : InlineFragment α → Passage
  | ⟨typeCondition, directives, selectionSet, _⟩ =>
    selectionSet.passage
      (joinParts ["... on " ++ typeCondition.print, Directive.printList directives] " ")
termination_by structural x => x

end

@[simp] theorem Selection.passages_eq_map (xs : List (Selection α)) :
    Selection.passages xs = xs.map Selection.passage := by
  induction xs with
  | nil => rfl
  | cons x xs ih => simp [Selection.passages, ih]

/-- What is printed of an operation on the line with its name. -/
def OperationDefinition.phrase (x : OperationDefinition α) : String :=
  if x.isBare then ""
  else
    joinParts
      [x.operation.keyword,
        ((x.name.map Name.print).getD "") ++ VariableDefinition.printList x.variableDefinitions,
        Directive.printList x.directives]
      " "

/-- What is printed of a fragment on the line with its name. -/
def FragmentDefinition.phrase (x : FragmentDefinition α) : String :=
  joinParts
    ["fragment " ++ x.name.value ++ " on " ++ x.typeCondition.print,
      Directive.printList x.directives]
    " "

def Definition.passage : Definition α → Passage
  | .operation x => x.selectionSet.passage x.phrase
  | .fragment x => x.selectionSet.passage x.phrase

/-- An executable document as it is printed by depth. -/
def Document.printByDepth (x : Document α) : String :=
  Passage.printSeparated (x.definitions.map Definition.passage)

/-! ## Passages of schema documents -/

/-- A block with a line for each item. -/
def Passage.blockOfLines (phrase : String) (print : β → String) (xs : List β) : Passage :=
  .block phrase (xs.map fun x => .line (print x))

/-- What is printed of an object type on the line with its name. -/
def TypeDefinition.phrase (x : TypeDefinition α) : String :=
  "type " ++ x.name.value ++
    enclose " implements " (joinParts (x.interfaces.map NamedType.print) ", ") ""

def SchemaDefinition.passage : SchemaDefinition α → Passage
  | .type x => .blockOfLines x.phrase FieldDefinition.print x.fields
  | .interface x => .blockOfLines ("interface " ++ x.name.value) FieldDefinition.print x.fields
  | .union x => .line x.print
  | .scalar x => .line x.print
  | .enum x => .blockOfLines ("enum " ++ x.name.value) EnumValueDefinition.print x.values
  | .inputObject x => .blockOfLines ("input " ++ x.name.value) InputFieldDefinition.print x.fields

/-- A schema document as it is printed by depth. -/
def SchemaDocument.printByDepth (x : SchemaDocument α) : String :=
  Passage.printSeparated (x.definitions.map SchemaDefinition.passage)

/-! ## Phrases of executable documents -/

/-- A phrase and the directives behind it. -/
theorem IsPhrase.withDirectives {head : String} {directives : List (Directive α)}
    (hhead : IsPhrase head) (h : ∀ x ∈ directives, x.WellFormed degree) :
    IsPhrase (joinParts [head, Directive.printList directives] " ") := by
  refine hhead.joinParts_cons (by decide) ?_
  rw [joinParts_singleton]
  exact Directive.isPhraseOrEmpty_printList h

theorem FragmentSpread.WellFormed.isPhrase {x : FragmentSpread α} (h : x.WellFormed degree) :
    IsPhrase x.print := by
  obtain ⟨hname, -, hdirectives⟩ := h
  exact (hname.isPhrase.behind (by decide) (by decide)).append_enclose
    (Directive.isPhraseOrEmpty_printList hdirectives) (by decide)

theorem Field.isPhrase_phrase {aliasName : Option (Name α)} {name : Name α}
    {arguments : List (Argument α)} {directives : List (Directive α)}
    (halias : ∀ x ∈ aliasName, x.WellFormed) (hname : name.WellFormed)
    (harguments : ∀ x ∈ arguments, x.WellFormed degree)
    (hdirectives : ∀ x ∈ directives, x.WellFormed degree) :
    IsPhrase (Field.phrase aliasName name arguments directives) := by
  have hnames : IsPhrase (enclose "" ((aliasName.map Name.print).getD "") ": " ++ name.print) := by
    cases aliasName with
    | none =>
      rw [Option.map_none, Option.getD_none, enclose_empty, String.empty_append]
      exact hname.isPhrase
    | some x =>
      have hx : IsPhrase x.print := (halias x rfl).isPhrase
      rw [Option.map_some, Option.getD_some, enclose_of_ne hx.ne_empty, String.empty_append]
      exact hx.join (by decide) hname.isPhrase
  exact (hnames.append_or_empty (Argument.isPhraseOrEmpty_printList harguments)).withDirectives
    hdirectives

theorem VariableDefinition.WellFormed.isPhrase {x : VariableDefinition α}
    (h : x.WellFormed degree) : IsPhrase x.print :=
  h.2.2.isPhrase (h.1.isPhrase.join (by decide) h.2.1.isPhrase)

/-! ## Passages that are rendered -/

mutual

/-- Where parts and then a selection set are printed, the parts are a phrase in front of it. -/
theorem SelectionSet.WellFormed.renders : ∀ {x : SelectionSet α} (parts : List String),
    IsPhraseOrEmpty (joinParts parts " ") → x.WellFormed degree →
      (x.passage (joinParts parts " ")).Renders (joinParts (parts ++ [x.print]) " ")
  | ⟨selections, tag⟩, parts, hparts, h => by
    have hselections : ∀ y ∈ selections, y.passage.Renders y.print :=
      Selection.AllWellFormed.renders h.2
    have hprint : (SelectionSet.mk selections tag).print =
        block (selections.map Selection.print) := by
      rw [SelectionSet.print, Selection.printAll_eq_map]
    rw [SelectionSet.passage, Selection.passages_eq_map, hprint,
      joinParts_concat (block_ne_empty _)]
    exact .block hparts hselections

theorem Selection.AllWellFormed.renders :
    ∀ {xs : List (Selection α)}, Selection.AllWellFormed degree xs →
      ∀ x ∈ xs, x.passage.Renders x.print
  | [], _ => nofun
  | _ :: _, h =>
    List.forall_mem_cons.2 ⟨Selection.WellFormed.renders h.1, Selection.AllWellFormed.renders h.2⟩

theorem Selection.WellFormed.renders :
    ∀ {x : Selection α}, x.WellFormed degree → x.passage.Renders x.print
  | .field _, h => Field.WellFormed.renders h
  | .spread _, h => .line (FragmentSpread.WellFormed.isPhrase h)
  | .inline _, h => InlineFragment.WellFormed.renders h

theorem Field.WellFormed.renders :
    ∀ {x : Field α}, x.WellFormed degree → x.passage.Renders x.print
  | ⟨_, _, _, _, _, _⟩, ⟨halias, hname, harguments, hdirectives, hset⟩ =>
    SelectionSet.OptionWellFormed.renders [_, _]
      (Field.isPhrase_phrase halias hname harguments hdirectives) hset

theorem SelectionSet.OptionWellFormed.renders :
    ∀ {x : Option (SelectionSet α)} (parts : List String), IsPhrase (joinParts parts " ") →
      SelectionSet.OptionWellFormed degree x →
      (SelectionSet.passageOption (joinParts parts " ") x).Renders
        (joinParts (parts ++ [SelectionSet.printOption x]) " ")
  | none, parts, hparts, _ => by
    rw [SelectionSet.printOption, joinParts_concat_empty]
    exact .line hparts
  | some _, parts, hparts, h => SelectionSet.WellFormed.renders parts (.inr hparts) h

theorem InlineFragment.WellFormed.renders :
    ∀ {x : InlineFragment α}, x.WellFormed degree → x.passage.Renders x.print
  | ⟨typeCondition, _, _, _⟩, ⟨htype, hdirectives, hset⟩ => by
    have hhead : IsPhrase ("... on " ++ typeCondition.print) :=
      htype.isPhrase.behind (by decide) (by decide)
    exact SelectionSet.WellFormed.renders [_, _] (.inr (hhead.withDirectives hdirectives)) hset

end

/-! ## Executable definitions -/

theorem OperationDefinition.WellFormed.renders {x : OperationDefinition α}
    (h : x.WellFormed degree) : (x.selectionSet.passage x.phrase).Renders x.print := by
  obtain ⟨-, hname, hvariables, hdirectives, hset⟩ := h
  by_cases hbare : x.isBare = true
  · rw [OperationDefinition.phrase, OperationDefinition.print, if_pos hbare, if_pos hbare]
    have hrenders := hset.renders [] (.inl rfl)
    rwa [List.nil_append, joinParts_singleton] at hrenders
  · rw [OperationDefinition.phrase, OperationDefinition.print, if_neg hbare, if_neg hbare]
    have hkeyword : IsPhrase x.operation.keyword :=
      isPhrase_of_isName (by cases x.operation <;> decide)
    have hlist : IsPhraseOrEmpty (VariableDefinition.printList x.variableDefinitions) :=
      isPhraseOrEmpty_parenthesized fun y hy => (hvariables y hy).isPhrase
    have hhead : IsPhraseOrEmpty (((x.name.map Name.print).getD "") ++
        VariableDefinition.printList x.variableDefinitions) := by
      cases hx : x.name with
      | none => rwa [Option.map_none, Option.getD_none, String.empty_append]
      | some name => exact .inr ((hname name hx).isPhrase.append_or_empty hlist)
    refine hset.renders [_, _, _] (.inr (hkeyword.joinParts_cons (by decide) ?_))
    exact isPhraseOrEmpty_joinParts (by decide) (List.forall_mem_cons.2
      ⟨hhead, List.forall_mem_singleton.2 (Directive.isPhraseOrEmpty_printList hdirectives)⟩)

theorem FragmentDefinition.WellFormed.renders {x : FragmentDefinition α}
    (h : x.WellFormed degree) : (x.selectionSet.passage x.phrase).Renders x.print := by
  obtain ⟨hname, -, htype, hdirectives, hset⟩ := h
  have hlead : IsPhrase ("fragment " ++ x.name.value) :=
    hname.isPhrase.behind (by decide) (by decide)
  have hhead := hlead.join (t := " on ") (by decide) htype.isPhrase
  exact hset.renders [_, _] (.inr (hhead.withDirectives hdirectives))

theorem Definition.WellFormed.renders {x : Definition α} (h : x.WellFormed degree) :
    x.passage.Renders x.print := by
  cases x with
  | operation x => exact OperationDefinition.WellFormed.renders h
  | fragment x => exact FragmentDefinition.WellFormed.renders h

theorem Document.print_eq_printByDepth {x : Document α} (h : x.WellFormed degree) :
    x.print = x.printByDepth :=
  Passage.joinParts_eq_printSeparated h.1 fun y hy => (h.2 y hy).renders

/-! ## Schema definitions -/

theorem ArgumentDefinition.WellFormed.isPhrase {x : ArgumentDefinition α}
    (h : x.WellFormed degree) : IsPhrase x.print :=
  h.2.2.isPhrase (h.1.isPhrase.join (by decide) h.2.1.isPhrase)

theorem InputFieldDefinition.WellFormed.isPhrase {x : InputFieldDefinition α}
    (h : x.WellFormed degree) : IsPhrase x.print :=
  h.2.2.isPhrase (h.1.isPhrase.join (by decide) h.2.1.isPhrase)

theorem FieldDefinition.WellFormed.isPhrase {x : FieldDefinition α} (h : x.WellFormed degree) :
    IsPhrase x.print := by
  obtain ⟨hname, harguments, htype⟩ := h
  have hlist := isPhraseOrEmpty_parenthesized fun y hy => (harguments y hy).isPhrase
  exact (hname.isPhrase.append_or_empty hlist).join (by decide) htype.isPhrase

theorem UnionDefinition.WellFormed.isPhrase {x : UnionDefinition α} (h : x.WellFormed) :
    IsPhrase x.print := by
  obtain ⟨hname, hne, htypes⟩ := h
  have hlead : IsPhrase ("union " ++ x.name.value) :=
    hname.isPhrase.behind (by decide) (by decide)
  have htypes : IsPhrase (joinParts (x.types.map NamedType.print) " | ") := by
    obtain ⟨y, ys, heq⟩ := List.exists_cons_of_ne_nil hne
    rw [heq] at htypes ⊢
    obtain ⟨hy, hys⟩ := List.forall_mem_cons.1 htypes
    exact hy.isPhrase.joinParts_cons (by decide)
      (isPhraseOrEmpty_joinParts_map (by decide) fun z hz => (hys z hz).isPhrase)
  exact hlead.join (by decide) htypes

theorem ScalarDefinition.WellFormed.isPhrase {x : ScalarDefinition α} (h : x.WellFormed) :
    IsPhrase x.print :=
  (Name.WellFormed.isPhrase h).behind (by decide) (by decide)

/-- A block with a line for each item, as it is printed behind a phrase. -/
theorem Passage.renders_blockOfLines {phrase : String} {print : β → String} {xs : List β}
    (hphrase : IsPhrase phrase) (h : ∀ x ∈ xs, IsPhrase (print x)) :
    (blockOfLines phrase print xs).Renders
      (phrase ++ " " ++ GraphQLSyntax.block (xs.map print)) := by
  rw [← heading_of_ne_empty hphrase.ne_empty (block_ne_empty _)]
  exact .block (.inr hphrase) fun x hx => .line (h x hx)

/-- A space between interfaces and a block may as well stand in front of the block. -/
theorem TypeDefinition.print_eq (x : TypeDefinition α) :
    x.print = x.phrase ++ " " ++ block (x.fields.map FieldDefinition.print) := by
  unfold TypeDefinition.print TypeDefinition.phrase
  by_cases hnone : joinParts (x.interfaces.map NamedType.print) ", " = ""
  · rw [hnone, enclose_empty, enclose_empty, String.append_empty, String.append_empty]
  · have hspace : " implements " = " " ++ "implements " := by decide
    rw [enclose_of_ne hnone, enclose_of_ne hnone, String.append_empty, hspace]
    simp only [String.append_assoc]

theorem SchemaDefinition.WellFormed.renders {x : SchemaDefinition α} (h : x.WellFormed degree) :
    x.passage.Renders x.print := by
  cases x with
  | type x =>
    obtain ⟨hname, hinterfaces, hfields⟩ := h
    have hlead : IsPhrase ("type " ++ x.name.value) :=
      hname.isPhrase.behind (by decide) (by decide)
    have hphrase : IsPhrase x.phrase :=
      hlead.append_enclose
        (isPhraseOrEmpty_joinParts_map (by decide) fun y hy => (hinterfaces y hy).isPhrase)
        (by decide)
    have hrenders := Passage.renders_blockOfLines hphrase fun y hy => (hfields y hy).isPhrase
    rwa [← x.print_eq] at hrenders
  | interface x =>
    exact Passage.renders_blockOfLines (h.1.isPhrase.behind (by decide) (by decide))
      fun y hy => (h.2 y hy).isPhrase
  | union x => exact .line (UnionDefinition.WellFormed.isPhrase h)
  | scalar x => exact .line (ScalarDefinition.WellFormed.isPhrase h)
  | enum x =>
    exact Passage.renders_blockOfLines (h.1.isPhrase.behind (by decide) (by decide))
      fun y hy => Name.WellFormed.isPhrase (h.2.2 y hy)
  | inputObject x =>
    exact Passage.renders_blockOfLines (h.1.isPhrase.behind (by decide) (by decide))
      fun y hy => (h.2 y hy).isPhrase

theorem SchemaDocument.print_eq_printByDepth {x : SchemaDocument α} (h : x.WellFormed degree) :
    x.print = x.printByDepth :=
  Passage.joinParts_eq_printSeparated h.1 fun y hy => (h.2 y hy).renders

/-! ## The main result -/

/-- Every well-formed document, and so every one that is parsed, is printed as the printer by
depth does it.  Its lines are indented by the blocks that are open around them and have no spaces
at the end, definitions have one empty line between them, and a single line feed is the last
character. -/
theorem documents_are_printed_by_depth :
    (∀ (α : Type) (degree : Degree) (d : Document α), d.WellFormed degree →
      d.print = d.printByDepth ∧ IsIndented d.print (d.definitions.map Definition.print)) ∧
    (∀ (α : Type) (degree : Degree) (d : SchemaDocument α), d.WellFormed degree →
      d.print = d.printByDepth ∧ IsIndented d.print (d.definitions.map SchemaDefinition.print)) ∧
    (∀ (source : Source) (options : ParseOptions) (t : Document Tag),
      source.parse options = .ok t → t.WellFormed .strict) ∧
    ∀ (source : Source) (options : ParseOptions) (t : SchemaDocument Tag),
      source.parseSchema options = .ok t → t.WellFormed .strict := by
  refine ⟨fun α degree d hd => ?_, fun α degree d hd => ?_, fun _ _ _ => Source.wellFormed_of_parse,
    fun _ _ _ => Source.wellFormed_of_parseSchema⟩
  · have heq := Document.print_eq_printByDepth hd
    refine ⟨heq, heq ▸ ?_⟩
    exact Passage.isIndented_printSeparated hd.1 fun y hy => (hd.2 y hy).renders
  · have heq := SchemaDocument.print_eq_printByDepth hd
    refine ⟨heq, heq ▸ ?_⟩
    exact Passage.isIndented_printSeparated hd.1 fun y hy => (hd.2 y hy).renders

/-- A document with blocks in blocks and with braces and a line end in a string. -/
def nestedDocument : Document Unit :=
  let leaf (name : String) : Selection Unit := .field ⟨none, ⟨name, ()⟩, [], [], none, ()⟩
  let inner : SelectionSet Unit :=
    ⟨[leaf "b", .inline ⟨⟨⟨"T", ()⟩, ()⟩, [], ⟨[leaf "c"], ()⟩, ()⟩], ()⟩
  ⟨[.operation ⟨.query, none, [], [], ⟨[.field ⟨none, ⟨"a", ()⟩,
      [⟨⟨"x", ()⟩, .object ⟨[⟨⟨"y", ()⟩, .string ⟨"\x7d\n\x7b", ()⟩, ()⟩], ()⟩, ()⟩], [],
      some inner, ()⟩], ()⟩, ()⟩,
    .fragment ⟨⟨"F", ()⟩, ⟨⟨"T", ()⟩, ()⟩, [], ⟨[leaf "d"], ()⟩, ()⟩], ()⟩

/-- A schema document with an empty block. -/
def emptyBlockDocument : SchemaDocument Unit :=
  ⟨[.type ⟨⟨"A", ()⟩, [⟨⟨"I", ()⟩, ()⟩], [], ()⟩,
    .enum ⟨⟨"E", ()⟩, [⟨⟨"V", ()⟩, ()⟩], ()⟩], ()⟩

theorem nestedDocument_wellFormed : nestedDocument.WellFormed .strict := by
  have hnames : ∀ text ∈ ["a", "b", "c", "d", "x", "y", "F", "T"], isName text = true := by decide
  simp only [List.forall_mem_cons] at hnames
  simp [nestedDocument, Document.WellFormed, Definition.WellFormed, OperationDefinition.WellFormed,
    FragmentDefinition.WellFormed, SelectionSet.WellFormed, Selection.AllWellFormed,
    Selection.WellFormed, Field.WellFormed, InlineFragment.WellFormed,
    SelectionSet.OptionWellFormed, Argument.WellFormed, Value.WellFormed, ObjectValue.WellFormed,
    ObjectField.WellFormed, ObjectField.AllWellFormed, NamedType.WellFormed, Name.WellFormed,
    hnames]

theorem emptyBlockDocument_wellFormed : emptyBlockDocument.WellFormed .strict := by
  have hnames : ∀ text ∈ ["A", "E", "I", "V"], isName text = true := by decide
  simp only [List.forall_mem_cons] at hnames
  simp [emptyBlockDocument, SchemaDocument.WellFormed, SchemaDefinition.WellFormed,
    TypeDefinition.WellFormed, EnumDefinition.WellFormed, EnumValueDefinition.WellFormed,
    NamedType.WellFormed, Name.WellFormed, hnames]

/-- What is written in the string is neither indented nor taken for blocks. -/
theorem documents_are_printed_by_depth_nested :
    nestedDocument.WellFormed .strict ∧ emptyBlockDocument.WellFormed .strict ∧
      nestedDocument.printByDepth =
        "\x7b\n  a(x: \x7by: \"\x7d\\n\x7b\"\x7d) \x7b\n    b\n    ... on T \x7b\n" ++
          "      c\n    \x7d\n  \x7d\n\x7d\n\nfragment F on T \x7b\n  d\n\x7d\n" ∧
      nestedDocument.print = nestedDocument.printByDepth ∧
      IsIndented nestedDocument.print (nestedDocument.definitions.map Definition.print) ∧
      emptyBlockDocument.printByDepth =
        "type A implements I \x7b\x7d\n\nenum E \x7b\n  V\n\x7d\n" ∧
      emptyBlockDocument.print = emptyBlockDocument.printByDepth ∧
      IsIndented emptyBlockDocument.print
        (emptyBlockDocument.definitions.map SchemaDefinition.print) ∧
      (∃ t, (Source.mk nestedDocument.print "").parse {} = .ok t ∧ t.WellFormed .strict) ∧
      ∃ t, (Source.mk emptyBlockDocument.print "").parseSchema {} = .ok t ∧
        t.WellFormed .strict := by
  have hprint : nestedDocument.printByDepth =
      "\x7b\n  a(x: \x7by: \"\x7d\\n\x7b\"\x7d) \x7b\n    b\n    ... on T \x7b\n" ++
        "      c\n    \x7d\n  \x7d\n\x7d\n\nfragment F on T \x7b\n  d\n\x7d\n" := by
    rfl
  have hprint' : emptyBlockDocument.printByDepth =
      "type A implements I \x7b\x7d\n\nenum E \x7b\n  V\n\x7d\n" := by
    rfl
  have hd := nestedDocument_wellFormed
  have hd' := emptyBlockDocument_wellFormed
  obtain ⟨hdocument, hschema, hparse, hparseSchema⟩ := documents_are_printed_by_depth
  obtain ⟨heq, hindented⟩ := hdocument Unit .strict nestedDocument hd
  obtain ⟨heq', hindented'⟩ := hschema Unit .strict emptyBlockDocument hd'
  have hfits : nestedDocument.print.utf8ByteSize < UInt32.size := by
    rw [heq, hprint]
    decide
  have hfits' : emptyBlockDocument.print.utf8ByteSize < UInt32.size := by
    rw [heq', hprint']
    decide
  obtain ⟨t, ht, -⟩ := parse_of_written hd hd.written hfits "" {}
  obtain ⟨t', ht', -⟩ := parseSchema_of_written hd' hd'.written hfits' "" {}
  exact ⟨hd, hd', hprint, heq, hindented, hprint', heq', hindented',
    ⟨t, ht, hparse _ _ t ht⟩, ⟨t', ht', hparseSchema _ _ t' ht'⟩⟩

end GraphQLSyntax
