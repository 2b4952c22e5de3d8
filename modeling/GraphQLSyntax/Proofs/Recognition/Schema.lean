import GraphQLSyntax.Grammar.Schema
import GraphQLSyntax.Proofs.Recognition.Value
import GraphQLSyntax.Proofs.Yield.Schema

/-!
# Recognition of schema documents

The productions of the six sorts of definitions read the languages of the
well-formed trees of their kinds.  The interfaces of a type end before its brace, and
the members of a union where no bar comes next.
-/

namespace GraphQLSyntax

/-! ## The languages -/

def ArgumentDefinition.language : Language (ArgumentDefinition Unit) :=
  .ofTree (WellFormed .lax) terminals

def FieldDefinition.language : Language (FieldDefinition Unit) :=
  .ofTree (WellFormed .lax) terminals

def InputFieldDefinition.language : Language (InputFieldDefinition Unit) :=
  .ofTree (WellFormed .lax) terminals

/-- The interfaces of a type, after their keyword. -/
def NamedType.interfacesLanguage : Language (List (NamedType Unit)) :=
  .ofTree (∀ x ∈ ·, x.WellFormed) interfacesTerminals

/-- The members of a union after the first. -/
def NamedType.barLanguage : Language (List (NamedType Unit)) :=
  .ofTree (∀ x ∈ ·, x.WellFormed) barTerminals

def TypeDefinition.language : Language (TypeDefinition Unit) :=
  .ofTree (WellFormed .lax) terminals

def InterfaceDefinition.language : Language (InterfaceDefinition Unit) :=
  .ofTree (WellFormed .lax) terminals

def UnionDefinition.language : Language (UnionDefinition Unit) :=
  .ofTree WellFormed terminals

def ScalarDefinition.language : Language (ScalarDefinition Unit) :=
  .ofTree WellFormed terminals

def EnumValueDefinition.language : Language (EnumValueDefinition Unit) :=
  .ofTree WellFormed terminals

def EnumDefinition.language : Language (EnumDefinition Unit) :=
  .ofTree WellFormed terminals

def InputObjectDefinition.language : Language (InputObjectDefinition Unit) :=
  .ofTree (WellFormed .lax) terminals

def SchemaDefinition.language : Language (SchemaDefinition Unit) :=
  .ofTree (WellFormed .lax) terminals

def SchemaDocument.language : Language (SchemaDocument Unit) :=
  .ofTree (WellFormed .lax) terminals

instance : ArgumentDefinition.language.Inhabited :=
  .of_ofTree (x := ⟨⟨"_", ()⟩, .named ⟨⟨"_", ()⟩, ()⟩, none, ()⟩)
    ⟨(by decide : isName "_" = true), (by decide : isName "_" = true), nofun⟩
    (by simp [ArgumentDefinition.terminals, Value.defaultTerminals])

instance : EnumValueDefinition.language.Inhabited :=
  .of_ofTree (x := ⟨⟨"_", ()⟩, ()⟩) (by decide : isName "_" = true)
    (by simp [EnumValueDefinition.terminals])

instance : NamedType.barLanguage.Inhabited :=
  .of_ofTree (x := []) (by simp) (by simp)

instance : NamedType.interfacesLanguage.Inhabited :=
  .of_ofTree (x := []) (by simp) (by simp)

end GraphQLSyntax

namespace GraphQLSyntax.Parser

variable {n limit : Nat} {starts : Lexeme → Prop}

/-! ## Fields -/

theorem argumentDefinition_language_eq :
    ArgumentDefinition.language =
      Name.language.seq fun name => (Language.symbol (.bare .colon)).seq fun _ =>
        TypeRef.language.seq fun type => Value.defaultLanguage.seq fun value =>
          .ret ⟨name, type, value, ()⟩ := by
  funext w x
  simp only [ArgumentDefinition.language, Name.language, TypeRef.language,
    Value.defaultLanguage, Language.seq_ofTree_iff, Language.seq_symbol_iff, Language.ofTree,
    Language.ret, eq_iff_iff]
  constructor
  · rintro ⟨⟨hname, htype, hvalue⟩, rfl⟩
    exact ⟨x.name, _, hname, List.append_assoc .., _, rfl, x.type, _, htype, rfl,
      x.defaultValue, [], hvalue, by simp, rfl, rfl⟩
  · rintro ⟨name, _, hname, rfl, _, rfl, type, _, htype, rfl, value, _, hvalue, rfl, rfl, rfl⟩
    exact ⟨⟨hname, htype, hvalue⟩, by simp [ArgumentDefinition.terminals, Terminal.bare]⟩

theorem inputFieldDefinition_language_eq :
    InputFieldDefinition.language =
      Name.language.seq fun name => (Language.symbol (.bare .colon)).seq fun _ =>
        TypeRef.language.seq fun type => Value.defaultLanguage.seq fun value =>
          .ret ⟨name, type, value, ()⟩ := by
  funext w x
  simp only [InputFieldDefinition.language, Name.language, TypeRef.language,
    Value.defaultLanguage, Language.seq_ofTree_iff, Language.seq_symbol_iff, Language.ofTree,
    Language.ret, eq_iff_iff]
  constructor
  · rintro ⟨⟨hname, htype, hvalue⟩, rfl⟩
    exact ⟨x.name, _, hname, List.append_assoc .., _, rfl, x.type, _, htype, rfl,
      x.defaultValue, [], hvalue, by simp, rfl, rfl⟩
  · rintro ⟨name, _, hname, rfl, _, rfl, type, _, htype, rfl, value, _, hvalue, rfl, rfl, rfl⟩
    exact ⟨⟨hname, htype, hvalue⟩, by simp [InputFieldDefinition.terminals, Terminal.bare]⟩

theorem recognizes_argumentDefinition (hn : n ≤ limit) :
    Recognizes n starts (argumentDefinition limit) (ArgumentDefinition.map untag)
      ArgumentDefinition.language afterDefault := by
  refine Recognizes.congr ?_ argumentDefinition_language_eq
  exact .here_bind fun start => .bind_anything recognizes_name fun name =>
    .bind_anything (.expect_bare (by decide) rfl) fun _ =>
      recognizes_typeAndDefault (fun _ _ _ => rfl) hn

theorem recognizes_inputFieldDefinition (hn : n ≤ limit) :
    Recognizes n starts (inputFieldDefinition limit) (InputFieldDefinition.map untag)
      InputFieldDefinition.language afterDefault := by
  refine Recognizes.congr ?_ inputFieldDefinition_language_eq
  exact .here_bind fun start => .bind_anything recognizes_name fun name =>
    .bind_anything (.expect_bare (by decide) rfl) fun _ =>
      recognizes_typeAndDefault (fun _ _ _ => rfl) hn

theorem starts_argumentDefinition : ArgumentDefinition.language.Starts (·.kind = .name) := by
  rintro w x ⟨-, rfl⟩
  exact ⟨_, _, rfl, rfl⟩

theorem recognizes_argumentDefinitions (hn : n ≤ limit) :
    Recognizes n starts (parenthesized (argumentDefinition limit) limit)
      (List.map (ArgumentDefinition.map untag)) ArgumentDefinition.language.parenthesized
      (·.kind ≠ .parenOpen) := by
  refine .mono (.parenthesized (recognizes_argumentDefinition hn) hn ?_ ?_) (Nat.le_succ n)
    fun _ => id
  · exact starts_argumentDefinition.mono fun x hx => by simp [afterDefault, hx]
  · simp [afterDefault]

theorem fieldDefinition_language_eq :
    FieldDefinition.language =
      Name.language.seq fun name => ArgumentDefinition.language.parenthesized.seq fun xs =>
        (Language.symbol (.bare .colon)).seq fun _ => TypeRef.language.seq fun type =>
          .ret ⟨name, xs, type, ()⟩ := by
  funext w x
  simp only [FieldDefinition.language, Name.language, ArgumentDefinition.language,
    TypeRef.language, parenthesized_ofTree, Language.seq_ofTree_iff, Language.seq_symbol_iff,
    Language.ofTree, Language.ret, eq_iff_iff]
  constructor
  · rintro ⟨⟨hname, hxs, htype⟩, rfl⟩
    exact ⟨x.name, _, hname, List.append_assoc .., x.arguments, _, hxs, rfl, _, rfl, x.type, [],
      htype, by simp, rfl, rfl⟩
  · rintro ⟨name, _, hname, rfl, xs, _, hxs, rfl, _, rfl, type, _, htype, rfl, rfl, rfl⟩
    exact ⟨⟨hname, hxs, htype⟩, by simp [FieldDefinition.terminals, Terminal.bare]⟩

theorem recognizes_fieldDefinition (hn : n ≤ limit) :
    Recognizes n starts (fieldDefinition limit) (FieldDefinition.map untag)
      FieldDefinition.language (·.kind ≠ .bang) := by
  refine Recognizes.congr ?_ fieldDefinition_language_eq
  refine .here_bind fun start => .bind_anything recognizes_name fun name => ?_
  refine .bind_leads (recognizes_argumentDefinitions hn) (fun xs => ?_) fun xs => ?_
  · exact .bind_anything (.expect_bare (by decide) rfl) fun _ =>
      .bind_leads (recognizes_typeRef.mono hn fun _ => id)
        (fun type => .of_anything (.mark_pure start fun _ => rfl)) fun type => .ret _ fun _ => id
  · refine .of_starts (.seq (.symbol _)) ?_
    rintro _ rfl
    decide

theorem starts_fieldDefinition : FieldDefinition.language.Starts (·.kind = .name) := by
  rintro w x ⟨-, rfl⟩
  exact ⟨_, _, rfl, rfl⟩

theorem starts_inputFieldDefinition :
    InputFieldDefinition.language.Starts (·.kind = .name) := by
  rintro w x ⟨-, rfl⟩
  exact ⟨_, _, rfl, rfl⟩

theorem enclosed_eq_bracedTerminals {γ : Type} (form : γ → Prop) (write : γ → List Terminal) :
    Language.enclosed .braceOpen .braceClose (.ofTree form write) =
      .ofTree (∀ x ∈ ·, form x) (bracedTerminals write) :=
  Language.enclosed_ofTree ..

theorem nonempty_ofTree {γ : Type} (form : List γ → Prop) (write : List γ → List Terminal) :
    Language.nonempty (.ofTree form write) = .ofTree (fun xs => form xs ∧ xs ≠ []) write := by
  funext w xs
  simp only [Language.nonempty, Language.ofTree, and_right_comm]

/-! ## Types and interfaces -/

theorem recognizes_namedTypesUntilBrace (hn : n ≤ limit) :
    Recognizes n starts (namedTypesUntilBrace limit) (List.map (NamedType.map untag))
      NamedType.language.star.nonempty (·.kind = .braceOpen) :=
  have hitem : Recognizes n anything namedType _ NamedType.language anything := recognizes_namedType
  .untilStop (fun s _ => ⟨s, rfl, rfl⟩) (fun _ => rfl) hitem hn
    (starts_namedType.mono fun x hx => by simp [hx, anything]) fun _ _ => trivial

theorem interfacesLanguage_eq :
    NamedType.interfacesLanguage =
      ((Language.symbol (.ofName "implements")).seq fun _ =>
        NamedType.language.star.nonempty).union (.ret []) := by
  funext w xs
  rw [NamedType.language, Language.star_ofTree]
  simp only [NamedType.interfacesLanguage, Language.union, Language.seq_symbol_iff,
    Language.nonempty, Language.ofTree, Language.ret, eq_iff_iff]
  constructor
  · rintro ⟨hxs, rfl⟩
    cases xs with
    | nil => exact .inr ⟨rfl, rfl⟩
    | cons x xs => exact .inl ⟨_, rfl, ⟨hxs, rfl⟩, by simp⟩
  · rintro (⟨_, rfl, ⟨hxs, rfl⟩, hne⟩ | ⟨rfl, rfl⟩)
    · exact ⟨hxs, by simp [NamedType.interfacesTerminals, hne, Terminal.ofName]⟩
    · exact ⟨by simp, rfl⟩

theorem recognizes_implementsInterfaces (hn : n ≤ limit) :
    Recognizes n starts (implementsInterfaces limit) (List.map (NamedType.map untag))
      NamedType.interfacesLanguage (·.kind = .braceOpen) := by
  have hword : (Lexeme.ofName "implements").IsProper :=
    (by decide : isName "implements" = true)
  refine Recognizes.congr ?_ interfacesLanguage_eq
  refine .ite_seesKeyword (.union_left ?_ (fun x (hx : x.kind = .braceOpen) => hx) ?_)
    (.union_right (.pure rfl) (fun _ _ => trivial) ?_)
  · exact .bind_anything (.advance_symbol hword (by simp) fun _ hy _ => hy.2)
      fun _ => recognizes_namedTypesUntilBrace hn
  · refine .ret [] ?_
    rintro x hx ⟨-, rfl⟩
    cases hx
  · refine .of_starts (.seq (.symbol _)) ?_
    rintro _ rfl ⟨-, hne⟩
    exact hne rfl

theorem typeDefinition_language_eq :
    TypeDefinition.language =
      (Language.symbol (.ofName "type")).seq fun _ => Name.language.seq fun name =>
        NamedType.interfacesLanguage.seq fun xs =>
          (FieldDefinition.language.enclosed .braceOpen .braceClose).seq fun ys =>
            .ret ⟨name, xs, ys, ()⟩ := by
  funext w x
  simp only [TypeDefinition.language, Name.language, NamedType.interfacesLanguage,
    FieldDefinition.language, enclosed_eq_bracedTerminals, Language.seq_symbol_iff,
    Language.seq_ofTree_iff, Language.ofTree, Language.ret, eq_iff_iff]
  constructor
  · rintro ⟨⟨hname, hxs, hys⟩, rfl⟩
    refine ⟨x.name.terminals ++ (NamedType.interfacesTerminals x.interfaces ++
      bracedTerminals FieldDefinition.terminals x.fields), ?_, x.name, _, hname, rfl,
      x.interfaces, _, hxs, rfl, x.fields, [], hys, (List.append_nil _).symm, rfl, rfl⟩
    simp [TypeDefinition.terminals, Terminal.ofName]
  · rintro ⟨_, rfl, name, _, hname, rfl, xs, _, hxs, rfl, ys, _, hys, rfl, rfl, rfl⟩
    exact ⟨⟨hname, hxs, hys⟩, by simp [TypeDefinition.terminals, Terminal.ofName]⟩

theorem recognizes_fields (hn : n ≤ limit) :
    Recognizes n starts (any .braceOpen (fieldDefinition limit) .braceClose limit)
      (List.map (FieldDefinition.map untag))
      (FieldDefinition.language.enclosed .braceOpen .braceClose) anything := by
  refine .mono (.any (recognizes_fieldDefinition hn) hn ?_ (by simp) ⟨by decide, rfl⟩
    ⟨by decide, rfl⟩) (Nat.le_succ n) fun _ => id
  exact starts_fieldDefinition.mono fun x hx => by simp [hx]

theorem recognizes_typeDefinition (hn : n ≤ limit) :
    Recognizes n starts (typeDefinition limit) (TypeDefinition.map untag)
      TypeDefinition.language anything := by
  refine Recognizes.congr ?_ typeDefinition_language_eq
  refine .here_bind fun start => .bind_anything (.expectKeyword (by decide)) fun _ =>
    .bind_anything recognizes_name fun name =>
      .bind_leads (recognizes_implementsInterfaces hn) (fun xs => ?_) fun xs => ?_
  · exact .bind_anything (recognizes_fields hn) fun ys => .mark_pure start fun _ => rfl
  · refine .of_starts (.seq (.enclosed _ _ _)) ?_
    rintro _ rfl
    rfl

theorem interfaceDefinition_language_eq :
    InterfaceDefinition.language =
      (Language.symbol (.ofName "interface")).seq fun _ => Name.language.seq fun name =>
        (FieldDefinition.language.enclosed .braceOpen .braceClose).seq fun xs =>
          .ret ⟨name, xs, ()⟩ := by
  funext w x
  simp only [InterfaceDefinition.language, Name.language, FieldDefinition.language,
    enclosed_eq_bracedTerminals, Language.seq_symbol_iff, Language.seq_ofTree_iff,
    Language.ofTree, Language.ret, eq_iff_iff]
  constructor
  · rintro ⟨⟨hname, hxs⟩, rfl⟩
    exact ⟨_, rfl, x.name, _, hname, rfl, x.fields, [], hxs, (List.append_nil _).symm, rfl, rfl⟩
  · rintro ⟨_, rfl, name, _, hname, rfl, xs, _, hxs, rfl, rfl, rfl⟩
    exact ⟨⟨hname, hxs⟩, by simp [InterfaceDefinition.terminals, Terminal.ofName]⟩

theorem recognizes_interfaceDefinition (hn : n ≤ limit) :
    Recognizes n starts (interfaceDefinition limit) (InterfaceDefinition.map untag)
      InterfaceDefinition.language anything := by
  refine Recognizes.congr ?_ interfaceDefinition_language_eq
  exact .here_bind fun start => .bind_anything (.expectKeyword (by decide)) fun _ =>
    .bind_anything recognizes_name fun name => .bind_anything (recognizes_fields hn) fun xs =>
      .mark_pure start fun _ => rfl

/-! ## Unions -/

/-- The members after the first are repeated like directives, each after its bar. -/
theorem unionMembers_eq (limit : Nat) :
    unionMembers limit = whileSees .pipe (do let _ ← advance; namedType) limit := by
  induction limit with
  | zero => rfl
  | succ limit ih =>
    simp only [unionMembers, whileSees, skip, round_eq, bind_assoc, ite_bind, pure_bind, ih,
      if_true, Bool.false_eq_true, if_false]
    rfl

theorem barLanguage_eq :
    NamedType.barLanguage =
      ((Language.symbol (.bare .pipe)).seq fun _ => NamedType.language).star := by
  have h : ((Language.symbol (.bare .pipe)).seq fun _ => NamedType.language) =
      .ofTree NamedType.WellFormed fun x => .bare .pipe :: x.terminals := by
    funext w x
    simp only [NamedType.language, Language.seq_symbol_iff, Language.ofTree, eq_iff_iff]
    constructor
    · rintro ⟨_, rfl, hx, rfl⟩
      exact ⟨hx, rfl⟩
    · rintro ⟨hx, rfl⟩
      exact ⟨_, rfl, hx, rfl⟩
  rw [h, Language.star_ofTree]
  rfl

theorem recognizes_unionMembers (hn : n ≤ limit) :
    Recognizes n starts (unionMembers limit) (List.map (NamedType.map untag))
      NamedType.barLanguage (·.kind ≠ .pipe) := by
  have hitem : Recognizes n (·.kind = .pipe) (do let _ ← advance; namedType)
      (NamedType.map untag) ((Language.symbol (.bare .pipe)).seq fun _ => NamedType.language)
      anything := by
    refine .bind_anything (.advance_symbol (Lexeme.isProper_bare rfl) (by decide) ?_)
      fun _ => recognizes_namedType
    rintro y hy hproper
    exact hy ▸ hproper.eq_bare (by rw [hy]; rfl)
  rw [unionMembers_eq]
  refine Recognizes.congr ?_ barLanguage_eq
  refine .follow (.whileSees hitem hn (.seq ?_)) fun x hx => ⟨hx, trivial⟩
  exact (Language.Starts.symbol _).mono fun x hx => ⟨hx ▸ rfl, trivial⟩

theorem unionDefinition_language_eq :
    UnionDefinition.language =
      (Language.symbol (.ofName "union")).seq fun _ => Name.language.seq fun name =>
        (Language.symbol (.bare .equals)).seq fun _ => NamedType.language.seq fun x =>
          NamedType.barLanguage.seq fun xs => .ret ⟨name, x :: xs, ()⟩ := by
  funext w x
  simp only [UnionDefinition.language, Name.language, NamedType.language, NamedType.barLanguage,
    Language.seq_symbol_iff, Language.seq_ofTree_iff, Language.ofTree, Language.ret, eq_iff_iff]
  constructor
  · rintro ⟨⟨hname, hne, hxs⟩, rfl⟩
    obtain ⟨name, types, tag⟩ := x
    obtain ⟨y, ys, rfl⟩ := List.exists_cons_of_ne_nil hne
    obtain ⟨hy, hys⟩ := List.forall_mem_cons.1 hxs
    exact ⟨_, rfl, name, _, hname, rfl, _, rfl, y, _, hy, rfl, ys, [], hys,
      (List.append_nil _).symm, rfl, rfl⟩
  · rintro ⟨_, rfl, name, _, hname, rfl, _, rfl, y, _, hy, rfl, ys, _, hys, rfl, rfl, rfl⟩
    refine ⟨⟨hname, by simp, List.forall_mem_cons.2 ⟨hy, hys⟩⟩, ?_⟩
    simp [UnionDefinition.terminals, NamedType.membersTerminals, Terminal.ofName, Terminal.bare]

theorem recognizes_unionDefinition (hn : n ≤ limit) :
    Recognizes n starts (unionDefinition limit) (UnionDefinition.map untag)
      UnionDefinition.language (·.kind ≠ .pipe) := by
  refine Recognizes.congr ?_ unionDefinition_language_eq
  exact .here_bind fun start => .bind_anything (.expectKeyword (by decide)) fun _ =>
    .bind_anything recognizes_name fun name => .bind_anything (.expect_bare (by decide) rfl)
      fun _ => .bind_anything recognizes_namedType fun x =>
        .bind_leads (recognizes_unionMembers hn)
          (fun xs => .of_anything (.mark_pure start fun _ => rfl)) fun xs => .ret _ fun _ => id

/-! ## Scalars, enums and input objects -/

theorem scalarDefinition_language_eq :
    ScalarDefinition.language =
      (Language.symbol (.ofName "scalar")).seq fun _ => Name.language.seq fun name =>
        .ret ⟨name, ()⟩ := by
  funext w x
  simp only [ScalarDefinition.language, Name.language, Language.seq_symbol_iff,
    Language.seq_ofTree_iff, Language.ofTree, Language.ret, eq_iff_iff]
  constructor
  · rintro ⟨hname, rfl⟩
    exact ⟨_, rfl, x.name, [], hname, (List.append_nil _).symm, rfl, rfl⟩
  · rintro ⟨_, rfl, name, _, hname, rfl, rfl, rfl⟩
    exact ⟨hname, by simp [ScalarDefinition.terminals, Terminal.ofName]⟩

theorem recognizes_scalarDefinition :
    Recognizes n starts scalarDefinition (ScalarDefinition.map untag) ScalarDefinition.language
      anything := by
  refine Recognizes.congr ?_ scalarDefinition_language_eq
  exact .here_bind fun start => .bind_anything (.expectKeyword (by decide)) fun _ =>
    .bind_anything recognizes_name fun name => .mark_pure start fun _ => rfl

theorem enumValueDefinition_language_eq :
    EnumValueDefinition.language = Name.language.seq fun name => .ret ⟨name, ()⟩ := by
  funext w x
  simp only [EnumValueDefinition.language, Name.language, Language.seq_ofTree_iff,
    Language.ofTree, Language.ret, eq_iff_iff]
  constructor
  · rintro ⟨hname, rfl⟩
    exact ⟨x.name, [], hname, (List.append_nil _).symm, rfl, rfl⟩
  · rintro ⟨name, _, hname, rfl, rfl, rfl⟩
    exact ⟨hname, by simp [EnumValueDefinition.terminals]⟩

theorem recognizes_enumValueDefinition :
    Recognizes n starts enumValueDefinition (EnumValueDefinition.map untag)
      EnumValueDefinition.language anything := by
  refine Recognizes.congr ?_ enumValueDefinition_language_eq
  exact .here_bind fun start => .bind_anything recognizes_name fun name =>
    .mark_pure start fun _ => rfl

theorem starts_enumValueDefinition : EnumValueDefinition.language.Starts (·.kind = .name) := by
  rintro w x ⟨-, rfl⟩
  exact ⟨_, _, rfl, rfl⟩

theorem enumDefinition_language_eq :
    EnumDefinition.language =
      (Language.symbol (.ofName "enum")).seq fun _ => Name.language.seq fun name =>
        (EnumValueDefinition.language.enclosed .braceOpen .braceClose).nonempty.seq fun xs =>
          .ret ⟨name, xs, ()⟩ := by
  funext w x
  simp only [EnumDefinition.language, Name.language, EnumValueDefinition.language,
    enclosed_eq_bracedTerminals, Language.seq_symbol_iff, Language.seq_ofTree_iff,
    nonempty_ofTree, Language.ofTree, Language.ret, eq_iff_iff]
  constructor
  · rintro ⟨⟨hname, hne, hxs⟩, rfl⟩
    exact ⟨_, rfl, x.name, _, hname, rfl, x.values, [], ⟨hxs, hne⟩, (List.append_nil _).symm, rfl,
      rfl⟩
  · rintro ⟨_, rfl, name, _, hname, rfl, xs, _, ⟨hxs, hne⟩, rfl, rfl, rfl⟩
    exact ⟨⟨hname, hne, hxs⟩, by simp [EnumDefinition.terminals, Terminal.ofName]⟩

theorem recognizes_enumDefinition (hn : n ≤ limit) :
    Recognizes n starts (enumDefinition limit) (EnumDefinition.map untag)
      EnumDefinition.language anything := by
  refine Recognizes.congr ?_ enumDefinition_language_eq
  refine .here_bind fun start => .bind_anything (.expectKeyword (by decide)) fun _ =>
    .bind_anything recognizes_name fun name => .bind_anything ?_ fun xs =>
      .mark_pure start fun _ => rfl
  have hitem : Recognizes n anything enumValueDefinition _ EnumValueDefinition.language anything :=
    recognizes_enumValueDefinition
  refine .mono (.many hitem hn ?_ trivial ⟨by decide, rfl⟩ ⟨by decide, rfl⟩) (Nat.le_succ n)
    fun _ => id
  exact starts_enumValueDefinition.mono fun x hx => by simp [hx, anything]

theorem inputObjectDefinition_language_eq :
    InputObjectDefinition.language =
      (Language.symbol (.ofName "input")).seq fun _ => Name.language.seq fun name =>
        (InputFieldDefinition.language.enclosed .braceOpen .braceClose).seq fun xs =>
          .ret ⟨name, xs, ()⟩ := by
  funext w x
  simp only [InputObjectDefinition.language, Name.language, InputFieldDefinition.language,
    enclosed_eq_bracedTerminals, Language.seq_symbol_iff, Language.seq_ofTree_iff,
    Language.ofTree, Language.ret, eq_iff_iff]
  constructor
  · rintro ⟨⟨hname, hxs⟩, rfl⟩
    exact ⟨_, rfl, x.name, _, hname, rfl, x.fields, [], hxs, (List.append_nil _).symm, rfl, rfl⟩
  · rintro ⟨_, rfl, name, _, hname, rfl, xs, _, hxs, rfl, rfl, rfl⟩
    exact ⟨⟨hname, hxs⟩, by simp [InputObjectDefinition.terminals, Terminal.ofName]⟩

theorem recognizes_inputObjectDefinition (hn : n ≤ limit) :
    Recognizes n starts (inputObjectDefinition limit) (InputObjectDefinition.map untag)
      InputObjectDefinition.language anything := by
  refine Recognizes.congr ?_ inputObjectDefinition_language_eq
  refine .here_bind fun start => .bind_anything (.expectKeyword (by decide)) fun _ =>
    .bind_anything recognizes_name fun name => .bind_anything ?_ fun xs =>
      .mark_pure start fun _ => rfl
  refine .mono (.any (recognizes_inputFieldDefinition hn) hn ?_ (by simp [afterDefault])
    ⟨by decide, rfl⟩ ⟨by decide, rfl⟩) (Nat.le_succ n) fun _ => id
  exact starts_inputFieldDefinition.mono fun x hx => by simp [afterDefault, hx]

/-! ## Documents -/

/-- The name that announces a definition. -/
def schemaKeyword : SchemaDefinition Unit → String
  | .type _ => "type"
  | .interface _ => "interface"
  | .union _ => "union"
  | .scalar _ => "scalar"
  | .enum _ => "enum"
  | .inputObject _ => "input"

theorem exists_terminals_eq_keyword_cons (x : SchemaDefinition Unit) :
    ∃ v, x.terminals = .ofName (schemaKeyword x) :: v := by
  cases x <;> exact ⟨_, rfl⟩

theorem starts_schemaDefinition :
    SchemaDefinition.language.Starts fun l => ∃ x, l = .ofName (schemaKeyword x) := by
  rintro w x ⟨-, rfl⟩
  obtain ⟨v, hv⟩ := exists_terminals_eq_keyword_cons x
  exact ⟨_, v, hv, x, rfl⟩

/-- After one of the names, only definitions of one sort can be read. -/
theorem schemaDefinition_language_beginning {γ : Type} {word : String}
    {f : γ → SchemaDefinition Unit} {L : Language γ}
    (hL : ∀ w x, L w x ↔ SchemaDefinition.language w (f x))
    (hword : ∀ x, schemaKeyword x = word ↔ ∃ y, x = f y) :
    SchemaDefinition.language.beginning (· = .ofName word) = L.image f := by
  have hfirst : ∀ x, BeginsWith (· = .ofName word) (spell x.terminals) ↔
      schemaKeyword x = word := by
    intro x
    obtain ⟨v, hv⟩ := exists_terminals_eq_keyword_cons x
    simp [hv]
  funext w x
  rw [eq_iff_iff]
  constructor
  · rintro ⟨hw, hbegins⟩
    obtain ⟨y, rfl⟩ := (hword x).1 ((hfirst x).1 (hw.2 ▸ hbegins))
    exact ⟨y, (hL w y).2 hw, rfl⟩
  · rintro ⟨y, hy, rfl⟩
    have hw := (hL w y).1 hy
    exact ⟨hw, hw.2 ▸ (hfirst (f y)).2 ((hword (f y)).2 ⟨y, rfl⟩)⟩

/-- Where such a name is ahead, it is enough to read the definitions of its sort. -/
theorem recognizes_schemaDefinition_of_keyword {β γ : Type} {word : String} {p : Parser β}
    {erase : β → γ} {L : Language γ} {follows : Lexeme → Prop} {g : β → SchemaDefinition Tag}
    {f : γ → SchemaDefinition Unit}
    (hp : Recognizes n (· = .ofName word) p erase L follows)
    (hf : ∀ x, x.kind ≠ .pipe → follows x)
    (hg : ∀ x, (g x).map untag = f (erase x))
    (hL : ∀ w x, L w x ↔ SchemaDefinition.language w (f x))
    (hword : ∀ x, schemaKeyword x = word ↔ ∃ y, x = f y) :
    Recognizes n (fun x => starts x ∧ x = .ofName word) (do return g (← p))
      (SchemaDefinition.map untag) SchemaDefinition.language (·.kind ≠ .pipe) := by
  refine .mono (.of_beginning ?_ starts_schemaDefinition) (Nat.le_refl n) fun x hx => hx.2
  rw [schemaDefinition_language_beginning hL hword]
  refine .bind_pure ?_
  simp only [hg]
  exact (hp.follow hf).image f

theorem recognizes_schemaDefinition (hn : n ≤ limit) :
    Recognizes n starts (schemaDefinition limit) (SchemaDefinition.map untag)
      SchemaDefinition.language (·.kind ≠ .pipe) := by
  refine .ite_seesKeyword ?_ (.ite_seesKeyword ?_ (.ite_seesKeyword ?_ (.ite_seesKeyword ?_
    (.ite_seesKeyword ?_ (.ite_seesKeyword ?_ ?_)))))
  · exact recognizes_schemaDefinition_of_keyword (recognizes_typeDefinition hn)
      (fun _ _ => trivial) (fun _ => rfl) (fun _ _ => Iff.rfl)
      fun x => by cases x <;> simp [schemaKeyword]
  · exact recognizes_schemaDefinition_of_keyword (recognizes_interfaceDefinition hn)
      (fun _ _ => trivial) (fun _ => rfl) (fun _ _ => Iff.rfl)
      fun x => by cases x <;> simp [schemaKeyword]
  · exact recognizes_schemaDefinition_of_keyword (recognizes_unionDefinition hn)
      (fun _ => id) (fun _ => rfl) (fun _ _ => Iff.rfl)
      fun x => by cases x <;> simp [schemaKeyword]
  · exact recognizes_schemaDefinition_of_keyword recognizes_scalarDefinition
      (fun _ _ => trivial) (fun _ => rfl) (fun _ _ => Iff.rfl)
      fun x => by cases x <;> simp [schemaKeyword]
  · exact recognizes_schemaDefinition_of_keyword (recognizes_enumDefinition hn)
      (fun _ _ => trivial) (fun _ => rfl) (fun _ _ => Iff.rfl)
      fun x => by cases x <;> simp [schemaKeyword]
  · exact recognizes_schemaDefinition_of_keyword (recognizes_inputObjectDefinition hn)
      (fun _ _ => trivial) (fun _ => rfl) (fun _ _ => Iff.rfl)
      fun x => by cases x <;> simp [schemaKeyword]
  · refine .unexpected_of_starts starts_schemaDefinition ?_
    rintro _ ⟨x, rfl⟩ ⟨⟨⟨⟨⟨⟨-, h₁⟩, h₂⟩, h₃⟩, h₄⟩, h₅⟩, h₆⟩
    cases x <;> simp_all [schemaKeyword]

theorem schemaDocument_language_eq :
    SchemaDocument.language =
      SchemaDefinition.language.star.nonempty.image fun definitions => ⟨definitions, ()⟩ := by
  funext w x
  rw [SchemaDefinition.language, Language.star_ofTree, eq_iff_iff]
  constructor
  · rintro ⟨⟨hne, hdefinitions⟩, rfl⟩
    exact ⟨x.definitions, ⟨⟨hdefinitions, rfl⟩, hne⟩, rfl⟩
  · rintro ⟨definitions, ⟨⟨hdefinitions, rfl⟩, hne⟩, rfl⟩
    exact ⟨⟨hne, hdefinitions⟩, rfl⟩

theorem recognizes_schemaDocument :
    Recognizes n starts (schemaDocument n) (SchemaDocument.map untag) SchemaDocument.language
      (·.kind = .eof) := by
  refine Recognizes.congr ?_ schemaDocument_language_eq
  rw [← Language.seq_ret]
  refine .here_bind fun start => .bind_leads
    (.untilEnd (recognizes_schemaDefinition (Nat.le_refl n)) (Nat.le_refl n)
      (starts_schemaDefinition.mono ?_) ?_)
    (fun definitions => .of_anything (.mark_pure start fun _ => rfl))
    fun definitions => .ret _ fun _ => id
  · rintro _ ⟨x, rfl⟩
    simp
  · intro x hx
    simp [hx]

end GraphQLSyntax.Parser
