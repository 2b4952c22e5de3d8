import GraphQLSyntax.Proofs.Yield.Executable
import GraphQLSyntax.Proofs.Yield.Schema

/-!
# Ordinary terminals

What a well-formed tree is written with can be read: names and numbers are spelled
as such, and the end of the text is not among the terminals.  The one place where a
reserved name is objected to is the name of a fragment definition, so whatever has
no such name in it is written with ordinary terminals.
-/

namespace GraphQLSyntax

variable {α β : Type}

/-- A token that can be read.  If it is objected to for repeating a name, it is that
name. -/
structure Terminal.IsProper (t : Terminal) : Prop where
  lexeme_isProper : t.lexeme.IsProper
  not_eof : t.lexeme.kind ≠ .eof
  eq_ofName : ∀ name, t.objection = some (.repeatedField name) → t.lexeme = .ofName name

/-- A token that can be read, and is not objected to for being a reserved name. -/
structure Terminal.IsOrdinary (t : Terminal) : Prop extends t.IsProper where
  not_reserved : ∀ name, t.objection ≠ some (.reservedName name)

/-- All of the terminals are ordinary. -/
def Terminal.AllOrdinary (w : List Terminal) : Prop :=
  ∀ t ∈ w, t.IsOrdinary

namespace Terminal

@[simp] theorem allOrdinary_nil : AllOrdinary [] := by
  simp [AllOrdinary]

@[simp] theorem allOrdinary_cons (t : Terminal) (w : List Terminal) :
    AllOrdinary (t :: w) ↔ t.IsOrdinary ∧ AllOrdinary w := by
  simp [AllOrdinary]

@[simp] theorem allOrdinary_append (v w : List Terminal) :
    AllOrdinary (v ++ w) ↔ AllOrdinary v ∧ AllOrdinary w :=
  List.forall_mem_append

@[simp] theorem allOrdinary_flatMap (xs : List β) (f : β → List Terminal) :
    AllOrdinary (xs.flatMap f) ↔ ∀ x ∈ xs, AllOrdinary (f x) := by
  induction xs with
  | nil => simp
  | cons x xs ih => simp [ih]

theorem isOrdinary_plain {lexeme : Lexeme} (h : lexeme.IsProper) (hkind : lexeme.kind ≠ .eof) :
    (plain lexeme).IsOrdinary :=
  ⟨⟨h, hkind, nofun⟩, nofun⟩

@[simp] theorem isOrdinary_ofName {text : String} :
    (ofName text).IsOrdinary ↔ isName text = true :=
  ⟨fun h => h.lexeme_isProper, fun h => isOrdinary_plain h nofun⟩

@[simp] theorem isOrdinary_bare {kind : TokenKind} :
    (bare kind).IsOrdinary ↔ kind.hasValue = false ∧ kind ≠ .eof := by
  refine ⟨fun h => ⟨?_, h.not_eof⟩, fun h => isOrdinary_plain (Lexeme.isProper_bare h.1) h.2⟩
  have hproper : (Lexeme.bare kind).IsProper := h.lexeme_isProper
  cases kind <;> first | rfl | cases hproper

end Terminal

open Terminal

/-! ## Names, types and values -/

theorem Name.WellFormed.ordinary {x : Name α} (h : x.WellFormed) : AllOrdinary x.terminals := by
  have hname : isName x.value = true := h
  simp [Name.terminals, hname]

theorem NamedType.WellFormed.ordinary {x : NamedType α} (h : x.WellFormed) :
    AllOrdinary x.terminals :=
  Name.WellFormed.ordinary h

theorem Variable.WellFormed.ordinary {x : Variable α} (h : x.WellFormed) :
    AllOrdinary x.terminals := by
  simp [Variable.terminals, TokenKind.hasValue, Name.WellFormed.ordinary h]

mutual

theorem TypeRef.WellFormed.ordinary : ∀ {x : TypeRef α}, x.WellFormed → AllOrdinary x.terminals
  | .named _, h => NamedType.WellFormed.ordinary h
  | .list _, h => ListType.WellFormed.ordinary h
  | .nonNull _, h => NonNullType.WellFormed.ordinary h

theorem ListType.WellFormed.ordinary : ∀ {x : ListType α}, x.WellFormed → AllOrdinary x.terminals
  | ⟨item, _⟩, h => by
    have hitem : AllOrdinary item.terminals := TypeRef.WellFormed.ordinary h
    simp [ListType.terminals, TokenKind.hasValue, hitem]

theorem NullableTypeRef.WellFormed.ordinary :
    ∀ {x : NullableTypeRef α}, x.WellFormed → AllOrdinary x.terminals
  | .named _, h => NamedType.WellFormed.ordinary h
  | .list _, h => ListType.WellFormed.ordinary h

theorem NonNullType.WellFormed.ordinary :
    ∀ {x : NonNullType α}, x.WellFormed → AllOrdinary x.terminals
  | ⟨inner, _⟩, h => by
    have hinner : AllOrdinary inner.terminals := NullableTypeRef.WellFormed.ordinary h
    simp [NonNullType.terminals, TokenKind.hasValue, hinner]

end

theorem Literal.ordinary {kind : TokenKind} {x : Literal α}
    (h : (Lexeme.mk kind (some x.text)).IsProper) (hkind : kind ≠ .eof) :
    AllOrdinary (x.terminals kind) := by
  simpa [Literal.terminals] using isOrdinary_plain h hkind

theorem BooleanValue.ordinary (x : BooleanValue α) : AllOrdinary x.terminals := by
  rcases x with ⟨_ | _, _⟩ <;> simp [BooleanValue.terminals] <;> decide

variable {degree : Degree}

mutual

theorem Value.WellFormed.ordinary :
    ∀ {x : Value α}, x.WellFormed degree → AllOrdinary x.terminals
  | .var _, h => Variable.WellFormed.ordinary h
  | .int _, h => Literal.ordinary h nofun
  | .float _, h => Literal.ordinary h nofun
  | .string _, _ => Literal.ordinary trivial nofun
  | .boolean x, _ => x.ordinary
  | .enum _, h => Literal.ordinary h.1 nofun
  | .list ⟨values, _⟩, h => by
    have hvalues := Value.AllWellFormed.ordinary h
    simpa [Value.terminals, ListValue.terminals, TokenKind.hasValue] using hvalues
  | .object ⟨fields, _⟩, h => by
    have hfields := ObjectField.AllWellFormed.ordinary [] h.2
    simp [Value.terminals, ObjectValue.terminals, TokenKind.hasValue, hfields]

theorem Value.AllWellFormed.ordinary :
    ∀ {xs : List (Value α)}, Value.AllWellFormed degree xs → AllOrdinary (Value.terminalsAll xs)
  | [], _ => by simp
  | _ :: _, h => by
    simp only [Value.terminalsAll, allOrdinary_append]
    exact ⟨Value.WellFormed.ordinary h.1, Value.AllWellFormed.ordinary h.2⟩

theorem ObjectField.AllWellFormed.ordinary (taken : List String) :
    ∀ {xs : List (ObjectField α)}, ObjectField.AllWellFormed degree xs →
      AllOrdinary (ObjectField.terminalsAll taken xs)
  | [], _ => by simp [ObjectField.terminalsAll]
  | ⟨name, value, _⟩ :: xs, ⟨⟨hname, hvalue⟩, hxs⟩ => by
    have hobjection : (Terminal.mk (.ofName name.value)
        (ObjectField.objection? taken name.value)).IsOrdinary := by
      unfold ObjectField.objection?
      split
      · exact ⟨⟨hname, nofun, fun _ h => by cases h; rfl⟩, nofun⟩
      · exact ⟨⟨hname, nofun, nofun⟩, nofun⟩
    simp only [ObjectField.terminalsAll, ObjectField.terminals, allOrdinary_append,
      allOrdinary_cons, isOrdinary_bare]
    exact ⟨⟨hobjection, ⟨rfl, nofun⟩, Value.WellFormed.ordinary hvalue⟩,
      ObjectField.AllWellFormed.ordinary _ hxs⟩

end

theorem allOrdinary_parenthesizedTerminals {write : β → List Terminal} {xs : List β}
    (h : ∀ x ∈ xs, AllOrdinary (write x)) : AllOrdinary (parenthesizedTerminals write xs) := by
  unfold parenthesizedTerminals
  split
  · simp
  · simpa [TokenKind.hasValue] using h

theorem Argument.WellFormed.ordinary {x : Argument α} (h : x.WellFormed degree) :
    AllOrdinary x.terminals := by
  simp [Argument.terminals, TokenKind.hasValue, h.1.ordinary, h.2.ordinary]

theorem Directive.WellFormed.ordinary {x : Directive α} (h : x.WellFormed degree) :
    AllOrdinary x.terminals := by
  have harguments := allOrdinary_parenthesizedTerminals fun y hy => (h.2 y hy).ordinary
  simp [Directive.terminals, TokenKind.hasValue, h.1.ordinary, harguments]

theorem Value.DefaultWellFormed.ordinary {x : Option (Value α)}
    (h : Value.DefaultWellFormed degree x) : AllOrdinary (Value.defaultTerminals x) := by
  cases x with
  | none => simp [Value.defaultTerminals]
  | some x =>
    simp [Value.defaultTerminals, TokenKind.hasValue, (h x rfl).1.ordinary]

/-! ## Executable documents -/

theorem isName_on : isName "on" = true := by
  decide

theorem FragmentSpread.WellFormed.ordinary {x : FragmentSpread α} (h : x.WellFormed degree) :
    AllOrdinary x.terminals := by
  obtain ⟨hname, -, hdirectives⟩ := h
  have hdirectives' : ∀ y ∈ x.directives, AllOrdinary y.terminals :=
    fun y hy => (hdirectives y hy).ordinary
  simpa [FragmentSpread.terminals, TokenKind.hasValue, hname.ordinary] using hdirectives'

theorem Name.ordinary_aliasTerminals {x : Option (Name α)} (h : ∀ y ∈ x, y.WellFormed) :
    AllOrdinary (Name.aliasTerminals x) := by
  cases x with
  | none => simp [Name.aliasTerminals]
  | some x => simp [Name.aliasTerminals, TokenKind.hasValue, (h x rfl).ordinary]

mutual

theorem SelectionSet.WellFormed.ordinary :
    ∀ {x : SelectionSet α}, x.WellFormed degree → AllOrdinary x.terminals
  | ⟨selections, _⟩, h => by
    have hselections := Selection.AllWellFormed.ordinary h.2
    simpa [SelectionSet.terminals, TokenKind.hasValue] using hselections

theorem Selection.AllWellFormed.ordinary :
    ∀ {xs : List (Selection α)}, Selection.AllWellFormed degree xs →
      AllOrdinary (Selection.terminalsAll xs)
  | [], _ => by simp
  | _ :: _, h => by
    simp only [Selection.terminalsAll, allOrdinary_append]
    exact ⟨Selection.WellFormed.ordinary h.1, Selection.AllWellFormed.ordinary h.2⟩

theorem Selection.WellFormed.ordinary :
    ∀ {x : Selection α}, x.WellFormed degree → AllOrdinary x.terminals
  | .field _, h => Field.WellFormed.ordinary h
  | .spread _, h => FragmentSpread.WellFormed.ordinary h
  | .inline _, h => InlineFragment.WellFormed.ordinary h

theorem Field.WellFormed.ordinary :
    ∀ {x : Field α}, x.WellFormed degree → AllOrdinary x.terminals
  | ⟨_, _, _, directives, set, _⟩, ⟨halias, hname, harguments, hdirectives, hset⟩ => by
    have harguments' := allOrdinary_parenthesizedTerminals fun y hy => (harguments y hy).ordinary
    have hdirectives' : ∀ y ∈ directives, AllOrdinary y.terminals :=
      fun y hy => (hdirectives y hy).ordinary
    have hset' := SelectionSet.OptionWellFormed.ordinary hset
    simpa [Field.terminals, Name.ordinary_aliasTerminals halias, hname.ordinary, harguments',
      hset'] using hdirectives'

theorem SelectionSet.OptionWellFormed.ordinary :
    ∀ {x : Option (SelectionSet α)}, SelectionSet.OptionWellFormed degree x →
      AllOrdinary (SelectionSet.terminalsOption x)
  | none, _ => by simp [SelectionSet.terminalsOption]
  | some _, h => SelectionSet.WellFormed.ordinary h

theorem InlineFragment.WellFormed.ordinary :
    ∀ {x : InlineFragment α}, x.WellFormed degree → AllOrdinary x.terminals
  | ⟨_, directives, set, _⟩, ⟨htype, hdirectives, hset⟩ => by
    have hdirectives' : ∀ y ∈ directives, AllOrdinary y.terminals :=
      fun y hy => (hdirectives y hy).ordinary
    have hset' := SelectionSet.WellFormed.ordinary hset
    simpa [InlineFragment.terminals, TokenKind.hasValue, htype.ordinary, hset', isName_on]
      using hdirectives'

end

theorem VariableDefinition.WellFormed.ordinary {x : VariableDefinition α}
    (h : x.WellFormed degree) : AllOrdinary x.terminals := by
  simp [VariableDefinition.terminals, TokenKind.hasValue, h.1.ordinary, h.2.1.ordinary,
    h.2.2.ordinary]

theorem OperationDefinition.WellFormed.ordinary {x : OperationDefinition α}
    (h : x.WellFormed degree) : AllOrdinary x.terminals := by
  obtain ⟨-, hname, hvariables, hdirectives, hset⟩ := h
  unfold OperationDefinition.terminals
  split
  · exact hset.ordinary
  · rename_i name hsome
    have hkeyword : isName x.operation.keyword = true := by cases x.operation <;> decide
    have hvariables' := allOrdinary_parenthesizedTerminals fun y hy => (hvariables y hy).ordinary
    have hdirectives' : ∀ y ∈ x.directives, AllOrdinary y.terminals :=
      fun y hy => (hdirectives y hy).ordinary
    simpa [hkeyword, (hname name hsome).ordinary, hvariables', hset.ordinary] using hdirectives'

/-- Only the second token of a fragment definition may be objected to for being a
reserved name. -/
theorem FragmentDefinition.terminals_eq {x : FragmentDefinition α} (h : x.WellFormed degree) :
    ∃ w, x.terminals = .ofName "fragment" :: x.name.fragmentTerminals ++ w ∧ AllOrdinary w := by
  obtain ⟨-, -, htype, hdirectives, hset⟩ := h
  have hdirectives' : ∀ y ∈ x.directives, AllOrdinary y.terminals :=
    fun y hy => (hdirectives y hy).ordinary
  refine ⟨.ofName "on" :: (x.typeCondition.terminals ++
    (x.directives.flatMap Directive.terminals ++ x.selectionSet.terminals)), ?_, ?_⟩
  · simp [FragmentDefinition.terminals]
  · simpa [isName_on, htype.ordinary, hset.ordinary] using hdirectives'

theorem Definition.WellFormed.isProper {x : Definition α} (h : x.WellFormed degree) :
    ∀ t ∈ x.terminals, t.IsProper := by
  cases x with
  | operation x =>
    exact fun t ht => (OperationDefinition.WellFormed.ordinary h t ht).toIsProper
  | fragment x =>
    obtain ⟨w, hw, hordinary⟩ := FragmentDefinition.terminals_eq h
    have hname : isName x.name.value = true := h.1
    have hword : isName "fragment" = true := by decide
    intro t ht
    simp only [Definition.terminals, hw, Name.fragmentTerminals, List.cons_append,
      List.nil_append, List.mem_cons] at ht
    obtain rfl | rfl | ht := ht
    · exact ⟨hword, by simp, by simp⟩
    · refine ⟨hname, by simp, fun name hname => ?_⟩
      simp only [FragmentDefinition.objection?] at hname
      split at hname <;> cases hname
    · exact (hordinary t ht).toIsProper

theorem Document.WellFormed.isProper {x : Document α} (h : x.WellFormed degree) :
    ∀ t ∈ x.terminals, t.IsProper := by
  intro t ht
  obtain ⟨y, hy, ht⟩ := List.mem_flatMap.1 ht
  exact (h.2 y hy).isProper t ht

/-- A name that is objected to for being reserved comes right after the keyword of a
fragment definition. -/
theorem FragmentDefinition.WellFormed.reserved_at {x : FragmentDefinition α}
    (h : x.WellFormed degree) {k : Nat} {lexeme : Lexeme} {name : String}
    (hk : x.terminals[k]? = some ⟨lexeme, some (.reservedName name)⟩) :
    name = "on" ∧ lexeme = .ofName "on" ∧ x.terminals.take k = [.ofName "fragment"] := by
  obtain ⟨w, hw, hordinary⟩ := FragmentDefinition.terminals_eq h
  rw [hw, Name.fragmentTerminals] at hk ⊢
  obtain _ | _ | k := k
  · cases hk
  · simp only [List.cons_append, List.nil_append, List.getElem?_cons_succ,
      List.getElem?_cons_zero, Option.some.injEq, Terminal.mk.injEq] at hk
    obtain ⟨rfl, hobjection⟩ := hk
    unfold FragmentDefinition.objection? at hobjection
    split at hobjection
    · rename_i hon
      cases hobjection
      exact ⟨hon, by rw [hon], rfl⟩
    · cases hobjection
  · have hmem := List.mem_of_getElem? (show w[k]? = _ from hk)
    exact absurd rfl ((hordinary _ hmem).not_reserved name)

theorem Definition.reserved_at {xs : List (Definition α)} (h : ∀ x ∈ xs, x.WellFormed degree)
    {k : Nat} {lexeme : Lexeme} {name : String}
    (hk : (xs.flatMap Definition.terminals)[k]? = some ⟨lexeme, some (.reservedName name)⟩) :
    name = "on" ∧ lexeme = .ofName "on" ∧ ∃ ys, ys <+: xs ∧
      (xs.flatMap Definition.terminals).take k =
        ys.flatMap Definition.terminals ++ [.ofName "fragment"] := by
  induction xs generalizing k with
  | nil => cases hk
  | cons x xs ih =>
    obtain ⟨hx, hxs⟩ := List.forall_mem_cons.1 h
    rw [List.flatMap_cons] at hk ⊢
    by_cases hlt : k < x.terminals.length
    · rw [List.getElem?_append_left hlt] at hk
      rw [List.take_append_of_le_length (Nat.le_of_lt hlt)]
      cases x with
      | operation x =>
        have hordinary := OperationDefinition.WellFormed.ordinary hx _ (List.mem_of_getElem? hk)
        exact absurd rfl (hordinary.not_reserved name)
      | fragment x =>
        obtain ⟨hname, hlexeme, htake⟩ := FragmentDefinition.WellFormed.reserved_at hx hk
        exact ⟨hname, hlexeme, [], List.nil_prefix, htake⟩
    · rw [List.getElem?_append_right (Nat.le_of_not_lt hlt)] at hk
      obtain ⟨hname, hlexeme, ys, hys, htake⟩ := ih hxs hk
      refine ⟨hname, hlexeme, x :: ys, List.cons_prefix_cons.2 ⟨rfl, hys⟩, ?_⟩
      rw [List.take_append, List.take_of_length_le (Nat.le_of_not_lt hlt), htake,
        List.flatMap_cons, List.append_assoc]

/-! ## Schema documents -/

theorem ArgumentDefinition.WellFormed.ordinary {x : ArgumentDefinition α}
    (h : x.WellFormed degree) : AllOrdinary x.terminals := by
  simp [ArgumentDefinition.terminals, TokenKind.hasValue, h.1.ordinary, h.2.1.ordinary,
    h.2.2.ordinary]

theorem FieldDefinition.WellFormed.ordinary {x : FieldDefinition α} (h : x.WellFormed degree) :
    AllOrdinary x.terminals := by
  have harguments := allOrdinary_parenthesizedTerminals fun y hy => (h.2.1 y hy).ordinary
  simp [FieldDefinition.terminals, TokenKind.hasValue, h.1.ordinary, harguments, h.2.2.ordinary]

theorem InputFieldDefinition.WellFormed.ordinary {x : InputFieldDefinition α}
    (h : x.WellFormed degree) : AllOrdinary x.terminals := by
  simp [InputFieldDefinition.terminals, TokenKind.hasValue, h.1.ordinary, h.2.1.ordinary,
    h.2.2.ordinary]

theorem allOrdinary_bracedTerminals {write : β → List Terminal} {xs : List β}
    (h : ∀ x ∈ xs, AllOrdinary (write x)) : AllOrdinary (bracedTerminals write xs) := by
  simpa [bracedTerminals, TokenKind.hasValue] using h

theorem NamedType.ordinary_interfacesTerminals {xs : List (NamedType α)}
    (h : ∀ x ∈ xs, x.WellFormed) : AllOrdinary (NamedType.interfacesTerminals xs) := by
  have hword : isName "implements" = true := by decide
  have hxs : ∀ x ∈ xs, AllOrdinary x.terminals := fun x hx => (h x hx).ordinary
  unfold NamedType.interfacesTerminals
  split
  · simp
  · simpa [hword] using hxs

theorem NamedType.ordinary_membersTerminals {xs : List (NamedType α)}
    (h : ∀ x ∈ xs, x.WellFormed) : AllOrdinary (NamedType.membersTerminals xs) := by
  cases xs with
  | nil => simp [NamedType.membersTerminals]
  | cons x xs =>
    obtain ⟨hx, hxs⟩ := List.forall_mem_cons.1 h
    have hxs' : ∀ y ∈ xs, AllOrdinary y.terminals := fun y hy => (hxs y hy).ordinary
    simpa [NamedType.membersTerminals, NamedType.barTerminals, TokenKind.hasValue, hx.ordinary]
      using hxs'

theorem SchemaDefinition.WellFormed.ordinary {x : SchemaDefinition α} (h : x.WellFormed degree) :
    AllOrdinary x.terminals := by
  cases x with
  | type x =>
    obtain ⟨hname, hinterfaces, hfields⟩ := h
    have hword : isName "type" = true := by decide
    have hfields' := allOrdinary_bracedTerminals fun y hy => (hfields y hy).ordinary
    simp [SchemaDefinition.terminals, TypeDefinition.terminals, hword, hname.ordinary,
      NamedType.ordinary_interfacesTerminals hinterfaces, hfields']
  | interface x =>
    obtain ⟨hname, hfields⟩ := h
    have hword : isName "interface" = true := by decide
    have hfields' := allOrdinary_bracedTerminals fun y hy => (hfields y hy).ordinary
    simp [SchemaDefinition.terminals, InterfaceDefinition.terminals, hword, hname.ordinary,
      hfields']
  | union x =>
    obtain ⟨hname, -, htypes⟩ := h
    have hword : isName "union" = true := by decide
    simp [SchemaDefinition.terminals, UnionDefinition.terminals, hword, TokenKind.hasValue,
      hname.ordinary, NamedType.ordinary_membersTerminals htypes]
  | scalar x =>
    have hword : isName "scalar" = true := by decide
    have hname : AllOrdinary x.name.terminals := Name.WellFormed.ordinary h
    simp [SchemaDefinition.terminals, ScalarDefinition.terminals, hword, hname]
  | enum x =>
    obtain ⟨hname, -, hvalues⟩ := h
    have hword : isName "enum" = true := by decide
    have hvalues' : AllOrdinary (bracedTerminals EnumValueDefinition.terminals x.values) :=
      allOrdinary_bracedTerminals fun y hy => Name.WellFormed.ordinary (hvalues y hy)
    simp [SchemaDefinition.terminals, EnumDefinition.terminals, hword, hname.ordinary, hvalues']
  | inputObject x =>
    obtain ⟨hname, hfields⟩ := h
    have hword : isName "input" = true := by decide
    have hfields' := allOrdinary_bracedTerminals fun y hy => (hfields y hy).ordinary
    simp [SchemaDefinition.terminals, InputObjectDefinition.terminals, hword, hname.ordinary,
      hfields']

theorem SchemaDocument.WellFormed.ordinary {x : SchemaDocument α} (h : x.WellFormed degree) :
    AllOrdinary x.terminals := by
  have hdefinitions : ∀ y ∈ x.definitions, AllOrdinary y.terminals :=
    fun y hy => (h.2 y hy).ordinary
  simpa [SchemaDocument.terminals] using hdefinitions

end GraphQLSyntax
