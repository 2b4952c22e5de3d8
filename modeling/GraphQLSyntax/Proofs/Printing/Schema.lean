import GraphQLSyntax.Printing.Schema
import GraphQLSyntax.Proofs.Printing.Value
import GraphQLSyntax.Proofs.Yield.Schema

/-!
# Printed schema documents

What is printed for a well-formed schema document is written from just the lexemes of the
document.  Commas between interfaces are blanks and leave no trace; the bars between the
members of a union are lexemes, so these are joined by a lemma of their own.
-/

namespace GraphQLSyntax

variable {α β : Type} {degree : Degree}

/-! ## Heads and blocks -/

/-- A keyword and the name that is defined. -/
theorem Written.head {lead word : String} (hword : isName word = true)
    (hlead : lead.toList = word.toList ++ [' ']) {x : Name α} (hx : x.WellFormed) :
    Written (lead ++ x.value).toList (.ofName word :: spell x.terminals) := by
  refine (written_keyword hword hlead).concat (t := x.value) hx.written (apart_of_all ?_)
  rw [hlead, List.getLast?_concat]
  decide

/-- A text after a space. -/
theorem Written.afterSpace {text rest : String} {ls ms : List Lexeme} (h : Written text.toList ls)
    (h' : Written rest.toList ms) : Written (text ++ " " ++ rest).toList (ls ++ ms) := by
  rw [String.append_assoc]
  refine h.concat ?_ (apart_of_endsWord (endsWord_concat (by decide) (endsWord_of_all ?_) rest))
  · rw [String.toList_append]
    exact .blank ' ' rfl h'
  · decide

theorem Written.braced {print : β → String} {write : β → List Terminal} {xs : List β}
    (h : ∀ x ∈ xs, Written (print x).toList (spell (write x))) :
    Written (GraphQLSyntax.block (xs.map print)).toList (spell (bracedTerminals write xs)) := by
  rw [bracedTerminals, spell_append, spell_cons]
  exact .block h

theorem endsWord_block (items : List String) : EndsWord (block items).toList := by
  unfold block
  dsimp only
  split
  · exact endsWord_of_all (by decide)
  · rw [String.append_assoc]
    exact endsWord_concat (by decide) (endsWord_of_all (by decide)) _

/-! ## Fields -/

/-- A name, its type and the value it has by default. -/
theorem Written.typed {x : Name α} {type : TypeRef α} {value : Option (Value α)}
    (hx : x.WellFormed) (htype : type.WellFormed) (hvalue : Value.DefaultWellFormed degree value) :
    Written (x.value ++ ": " ++ type.print ++ Value.printDefault value).toList
      (spell (x.terminals ++ .bare .colon :: type.terminals ++ Value.defaultTerminals value)) := by
  have hnamed : Written (x.value ++ ": " ++ type.print).toList
      (spell x.terminals ++ .bare .colon :: spell type.terminals) :=
    Written.colon hx.written htype.written
  have hall := hnamed.concat hvalue.written
    (apart_of_endsWord (endsWord_enclose (by decide) (endsWord_of_all (by decide)) _ _))
  simpa using hall

theorem ArgumentDefinition.WellFormed.written {x : ArgumentDefinition α}
    (h : x.WellFormed degree) : Written x.print.toList (spell x.terminals) :=
  .typed h.1 h.2.1 h.2.2

theorem InputFieldDefinition.WellFormed.written {x : InputFieldDefinition α}
    (h : x.WellFormed degree) : Written x.print.toList (spell x.terminals) :=
  .typed h.1 h.2.1 h.2.2

theorem FieldDefinition.WellFormed.written {x : FieldDefinition α} (h : x.WellFormed degree) :
    Written x.print.toList (spell x.terminals) := by
  obtain ⟨hname, harguments, htype⟩ := h
  have hparenthesized := Written.parenthesized (fun y hy => (harguments y hy).written)
    fun y => by simp [ArgumentDefinition.terminals]
  have hhead := hname.written.concat hparenthesized
    (apart_of_endsWord (endsWord_enclose (by decide) (endsWord_of_all (by decide)) _ _))
  simpa [FieldDefinition.terminals, FieldDefinition.print, Name.print] using
    hhead.colon htype.written

/-! ## Lists of types -/

theorem NamedType.terminals_ne_nil (x : NamedType α) : x.terminals ≠ [] := by
  simp [NamedType.terminals, Name.terminals]

/-- A keyword and interfaces, or nothing if there are none. -/
theorem NamedType.written_interfaces {xs : List (NamedType α)} (h : ∀ x ∈ xs, x.WellFormed) :
    Written (enclose "implements " (joinParts (xs.map NamedType.print) ", ") " ").toList
      (spell (NamedType.interfacesTerminals xs)) := by
  have hnames := Written.joinParts_map isSeparator_comma fun x hx => (h x hx).written
  cases xs with
  | nil => exact .nil
  | cons x xs =>
    have hspace : Written " ".toList [] := .blank ' ' rfl .nil
    have hkeyword : Written "implements ".toList [.ofName "implements"] :=
      written_keyword (by decide) (by decide)
    have henclosed := hnames.enclose (by simp [spell, x.terminals_ne_nil]) hkeyword hspace
      (apart_of_all (by decide)) (endsWord_of_all (by decide))
    simpa [NamedType.interfacesTerminals] using henclosed

theorem NamedType.membersTerminals_cons_cons (x y : NamedType α) (xs : List (NamedType α)) :
    NamedType.membersTerminals (x :: y :: xs) =
      x.terminals ++ .bare .pipe :: NamedType.membersTerminals (y :: xs) := by
  simp [NamedType.membersTerminals, NamedType.barTerminals]

/-- Types with bars between them. -/
theorem NamedType.written_members {xs : List (NamedType α)} (h : ∀ x ∈ xs, x.WellFormed) :
    Written (joinParts (xs.map NamedType.print) " | ").toList
      (spell (NamedType.membersTerminals xs)) := by
  induction xs with
  | nil => exact .nil
  | cons x xs ih =>
    obtain ⟨hx, hxs⟩ := List.forall_mem_cons.1 h
    cases xs with
    | nil => simpa [NamedType.membersTerminals, NamedType.barTerminals] using hx.written
    | cons y xs =>
      have hrest := ih hxs
      have hbar : Written " | ".toList [.bare .pipe] :=
        .blank ' ' rfl ((written_punctuator rfl).append (.blank ' ' rfl .nil)
          (apart_of_all (by decide)))
      have htail := hbar.concat hrest (apart_of_all (by decide))
      have hall := hx.written.concat htail
        (apart_of_endsWord (endsWord_concat (by decide) (endsWord_of_all (by decide)) _))
      -- There is a name on either side, so neither of the two is left out.
      have hname : x.print ≠ "" := hx.written.ne_empty (by simp [spell, x.terminals_ne_nil])
      have hothers : joinParts ((y :: xs).map NamedType.print) " | " ≠ "" :=
        hrest.ne_empty (by simp [spell, NamedType.membersTerminals, y.terminals_ne_nil])
      obtain ⟨hnothing, -⟩ | ⟨-, heq⟩ := joinParts_cons hname ((y :: xs).map NamedType.print) " | "
      · exact absurd hnothing hothers
      · rw [List.map_cons, heq, String.append_assoc, NamedType.membersTerminals_cons_cons]
        simpa using hall

/-! ## Definitions -/

theorem TypeDefinition.WellFormed.written {x : TypeDefinition α} (h : x.WellFormed degree) :
    Written x.print.toList (spell x.terminals) := by
  obtain ⟨hname, hinterfaces, hfields⟩ := h
  have hhead : Written ("type " ++ x.name.value).toList
      (.ofName "type" :: spell x.name.terminals) :=
    .head (by decide) (by decide) hname
  have hblock := Written.braced fun y hy => (hfields y hy).written
  have hbody := (NamedType.written_interfaces hinterfaces).concat hblock
    (apart_of_endsWord (endsWord_block _))
  have hall := hhead.afterSpace hbody
  simpa [TypeDefinition.terminals, TypeDefinition.print, String.append_assoc] using hall

theorem InterfaceDefinition.WellFormed.written {x : InterfaceDefinition α}
    (h : x.WellFormed degree) : Written x.print.toList (spell x.terminals) := by
  have hhead : Written ("interface " ++ x.name.value).toList
      (.ofName "interface" :: spell x.name.terminals) :=
    .head (by decide) (by decide) h.1
  have hblock := Written.braced fun y hy => (h.2 y hy).written
  simpa [InterfaceDefinition.terminals, InterfaceDefinition.print] using hhead.afterSpace hblock

theorem UnionDefinition.WellFormed.written {x : UnionDefinition α} (h : x.WellFormed) :
    Written x.print.toList (spell x.terminals) := by
  obtain ⟨hname, -, htypes⟩ := h
  have hhead : Written ("union " ++ x.name.value).toList
      (.ofName "union" :: spell x.name.terminals) :=
    .head (by decide) (by decide) hname
  have hequals : Written " = ".toList [.bare .equals] :=
    .blank ' ' rfl ((written_punctuator rfl).append (.blank ' ' rfl .nil)
      (apart_of_all (by decide)))
  have hbody := hequals.concat (NamedType.written_members htypes) (apart_of_all (by decide))
  have hall := hhead.concat hbody
    (apart_of_endsWord (endsWord_concat (by decide) (endsWord_of_all (by decide)) _))
  simpa [UnionDefinition.terminals, UnionDefinition.print, String.append_assoc] using hall

theorem ScalarDefinition.WellFormed.written {x : ScalarDefinition α} (h : x.WellFormed) :
    Written x.print.toList (spell x.terminals) :=
  .head (by decide) (by decide) h

theorem EnumDefinition.WellFormed.written {x : EnumDefinition α} (h : x.WellFormed) :
    Written x.print.toList (spell x.terminals) := by
  obtain ⟨hname, -, hvalues⟩ := h
  have hhead : Written ("enum " ++ x.name.value).toList
      (.ofName "enum" :: spell x.name.terminals) :=
    .head (by decide) (by decide) hname
  have hblock : Written (block (x.values.map EnumValueDefinition.print)).toList
      (spell (bracedTerminals EnumValueDefinition.terminals x.values)) :=
    .braced fun y hy => Name.WellFormed.written (hvalues y hy)
  simpa [EnumDefinition.terminals, EnumDefinition.print] using hhead.afterSpace hblock

theorem InputObjectDefinition.WellFormed.written {x : InputObjectDefinition α}
    (h : x.WellFormed degree) : Written x.print.toList (spell x.terminals) := by
  have hhead : Written ("input " ++ x.name.value).toList
      (.ofName "input" :: spell x.name.terminals) :=
    .head (by decide) (by decide) h.1
  have hblock := Written.braced fun y hy => (h.2 y hy).written
  simpa [InputObjectDefinition.terminals, InputObjectDefinition.print] using
    hhead.afterSpace hblock

theorem SchemaDefinition.WellFormed.written {x : SchemaDefinition α} (h : x.WellFormed degree) :
    Written x.print.toList (spell x.terminals) := by
  cases x with
  | type x => exact TypeDefinition.WellFormed.written h
  | interface x => exact InterfaceDefinition.WellFormed.written h
  | union x => exact UnionDefinition.WellFormed.written h
  | scalar x => exact ScalarDefinition.WellFormed.written h
  | enum x => exact EnumDefinition.WellFormed.written h
  | inputObject x => exact InputObjectDefinition.WellFormed.written h

/-- What is printed for a schema document is written from the lexemes of the document. -/
theorem SchemaDocument.WellFormed.written {x : SchemaDocument α} (h : x.WellFormed degree) :
    Written x.print.toList x.yield := by
  have hdefinitions := Written.joinParts_map isSeparator_emptyLine
    fun y hy => (h.2 y hy).written
  have hall := hdefinitions.concat (t := "\n") (.blank '\n' rfl .nil)
    (apart_of_endsWord (endsWord_of_all (by decide)))
  rwa [List.append_nil] at hall

end GraphQLSyntax
