import GraphQLSyntax.Grammar.Value
import GraphQLSyntax.Proofs.Recognition.Repetition
import GraphQLSyntax.Proofs.Yield.Value

/-!
# Recognition of names, types, values and directives

Each of these productions reads the language of the well-formed trees of its kind,
as their terminals spell them.
-/

namespace GraphQLSyntax

variable {α : Type}

/-- Takes off a tag. -/
def untag (_ : α) : Unit := ()

/-! ## The languages -/

def Name.language : Language (Name Unit) :=
  .ofTree WellFormed terminals

def NamedType.language : Language (NamedType Unit) :=
  .ofTree WellFormed terminals

def TypeRef.language : Language (TypeRef Unit) :=
  .ofTree WellFormed terminals

def NullableTypeRef.language : Language (NullableTypeRef Unit) :=
  .ofTree WellFormed terminals

def Variable.language : Language (Variable Unit) :=
  .ofTree WellFormed terminals

/-- A token of one kind, read as its text. -/
def Literal.language (kind : TokenKind) : Language (Literal Unit) :=
  (Language.lexeme (·.kind = kind)).image fun x => ⟨x.text, ()⟩

/-- A value that may stand where a constant or where any value has to stand. -/
def Value.Admissible (const : Bool) (x : Value α) : Prop :=
  x.WellFormed .lax ∧ (const = true → x.isConst = true)

/-- A field whose value may stand where it stands. -/
def ObjectField.Admissible (const : Bool) (x : ObjectField α) : Prop :=
  x.WellFormed .lax ∧ (const = true → x.isConst = true)

@[simp] theorem Value.admissible_list {const : Bool} {xs : List (Value α)} {tag : α} :
    (Value.list ⟨xs, tag⟩).Admissible const ↔ ∀ x ∈ xs, x.Admissible const := by
  simp only [Admissible, WellFormed, ListValue.WellFormed, allWellFormed_iff, isConst,
    ListValue.isConst, allConst_iff]
  exact ⟨fun h x hx => ⟨h.1 x hx, fun hconst => h.2 hconst x hx⟩,
    fun h => ⟨fun x hx => (h x hx).1, fun hconst x hx => (h x hx).2 hconst⟩⟩

@[simp] theorem Value.admissible_object {const : Bool} {xs : List (ObjectField α)} {tag : α} :
    (Value.object ⟨xs, tag⟩).Admissible const ↔ ∀ x ∈ xs, x.Admissible const := by
  simp only [Admissible, WellFormed, ObjectValue.WellFormed, ObjectField.allWellFormed_iff,
    isConst, ObjectValue.isConst, ObjectField.allConst_iff,
    reduceCtorEq, false_implies, true_and, ObjectField.Admissible]
  exact ⟨fun h x hx => ⟨h.1 x hx, fun hconst => h.2 hconst x hx⟩,
    fun h => ⟨fun x hx => (h x hx).1, fun hconst x hx => (h x hx).2 hconst⟩⟩

@[simp] theorem ObjectField.admissible_mk {const : Bool} {name : Name α} {value : Value α}
    {tag : α} :
    (ObjectField.mk name value tag).Admissible const ↔
      name.WellFormed ∧ value.Admissible const := by
  simp only [Admissible, WellFormed, isConst, Value.Admissible, and_assoc]

def Value.language (const : Bool) : Language (Value Unit) :=
  .ofTree (Admissible const) terminals

/-- A field that comes after fields with the names in `taken`. -/
def ObjectField.language (const : Bool) (taken : List String) : Language (ObjectField Unit) :=
  .ofTree (Admissible const) (terminals taken)

/-- What is left of an object after fields with the names in `taken`. -/
def ObjectField.languageAll (const : Bool) (taken : List String) :
    Language (List (ObjectField Unit)) :=
  .ofTree (∀ x ∈ ·, x.Admissible const) (terminalsAll taken · ++ [.bare .braceClose])

def Argument.language : Language (Argument Unit) :=
  .ofTree (WellFormed .lax) terminals

def Directive.language : Language (Directive Unit) :=
  .ofTree (WellFormed .lax) terminals

def Value.defaultLanguage : Language (Option (Value Unit)) :=
  .ofTree (DefaultWellFormed .lax) defaultTerminals

instance : Name.language.Inhabited :=
  .of_ofTree (x := ⟨"_", ()⟩) (by decide : isName "_" = true) (by simp [Name.terminals])

instance : NamedType.language.Inhabited :=
  .of_ofTree (x := ⟨⟨"_", ()⟩, ()⟩) (by decide : isName "_" = true)
    (by simp [Name.terminals, NamedType.terminals])

instance : TypeRef.language.Inhabited :=
  .of_ofTree (x := .named ⟨⟨"_", ()⟩, ()⟩) (by decide : isName "_" = true)
    (by simp [Name.terminals, NamedType.terminals, TypeRef.terminals])

instance (const : Bool) : (Value.language const).Inhabited :=
  .of_ofTree (x := .boolean ⟨true, ()⟩) ⟨trivial, fun _ => rfl⟩
    (by simp [Value.terminals, BooleanValue.terminals])

instance (const : Bool) (taken : List String) :
    (ObjectField.languageAll const taken).Inhabited :=
  .of_ofTree (x := []) (by simp) (by simp [ObjectField.terminalsAll])

instance : Value.defaultLanguage.Inhabited :=
  .of_ofTree (x := none) nofun (by simp [Value.defaultTerminals])

instance : Argument.language.Inhabited :=
  .of_ofTree (x := ⟨⟨"_", ()⟩, .boolean ⟨true, ()⟩, ()⟩)
    ⟨(by decide : isName "_" = true), trivial⟩
    (by simp [Argument.terminals, Name.terminals, Value.terminals, BooleanValue.terminals])

theorem starts_namedType : NamedType.language.Starts (·.kind = .name) := by
  rintro w x ⟨-, rfl⟩
  exact ⟨_, [], rfl, rfl⟩

end GraphQLSyntax

namespace GraphQLSyntax.Parser

variable {n limit : Nat} {starts : Lexeme → Prop}

theorem recognizes_name :
    Recognizes n starts name (Name.map untag) Name.language anything := by
  have h : Recognizes n starts name (Name.map untag)
      ((Language.lexeme (·.kind = .name)).seq fun x => .ret ⟨x.text, ()⟩) anything :=
    .here_bind fun start => .bind_anything (.expect (by decide)) fun _ =>
      .mark_pure start fun _ => rfl
  refine h.congr ?_
  funext w x
  simp only [Name.language, Language.ofTree, Language.seq, Language.lexeme, Language.ret,
    eq_iff_iff]
  constructor
  · rintro ⟨hx, rfl⟩
    exact ⟨_, [], .ofName x.value, rfl, ⟨rfl, rfl, hx⟩, rfl, rfl⟩
  · rintro ⟨_, _, l, rfl, ⟨rfl, hkind, hproper⟩, rfl, rfl⟩
    obtain ⟨hl, hname⟩ := hproper.eq_ofName hkind
    exact ⟨hname, by rw [hl]; rfl⟩

theorem recognizes_namedType :
    Recognizes n starts namedType (NamedType.map untag) NamedType.language anything := by
  have h : Recognizes n starts namedType (NamedType.map untag)
      (Name.language.seq fun x => .ret ⟨x, ()⟩) anything :=
    .here_bind fun start => .bind_anything recognizes_name fun _ =>
      .mark_pure start fun _ => rfl
  refine h.congr ?_
  funext w x
  simp only [NamedType.language, Name.language, Language.seq_ofTree_iff, Language.ofTree,
    Language.ret, eq_iff_iff]
  constructor
  · rintro ⟨hx, rfl⟩
    exact ⟨x.name, [], hx, by simp [NamedType.terminals], rfl, rfl⟩
  · rintro ⟨y, _, hy, rfl, rfl, rfl⟩
    exact ⟨hy, by simp [NamedType.terminals]⟩

theorem recognizes_var :
    Recognizes n starts var (Variable.map untag) Variable.language anything := by
  have h : Recognizes n starts var (Variable.map untag)
      ((Language.symbol (.bare .dollar)).seq fun _ => Name.language.seq fun x =>
        .ret ⟨x, ()⟩) anything :=
    .here_bind fun start => .bind_anything (.expect_bare (by decide) rfl) fun _ =>
      .bind_anything recognizes_name fun _ => .mark_pure start fun _ => rfl
  refine h.congr ?_
  funext w x
  simp only [Variable.language, Name.language, Language.seq_ofTree_iff, Language.seq_symbol_iff,
    Language.ofTree, Language.ret, eq_iff_iff]
  constructor
  · rintro ⟨hx, rfl⟩
    exact ⟨_, rfl, x.name, [], hx, by simp, rfl, rfl⟩
  · rintro ⟨_, rfl, y, _, hy, rfl, rfl, rfl⟩
    exact ⟨hy, by simp [Variable.terminals, Terminal.bare]⟩

/-! ## Types -/

/-- A nullable type is a type in brackets or a name. -/
theorem nullableTypeRef_language_eq :
    NullableTypeRef.language =
      ((Language.symbol (.bare .bracketOpen)).seq fun _ => TypeRef.language.seq fun x =>
        (Language.symbol (.bare .bracketClose)).seq fun _ => .ret (.list ⟨x, ()⟩)).union
      (NamedType.language.image NullableTypeRef.named) := by
  funext w x
  simp only [NullableTypeRef.language, TypeRef.language, NamedType.language, Language.union,
    Language.seq_ofTree_iff, Language.seq_symbol_iff, Language.ret, Language.image,
    Language.ofTree, eq_iff_iff]
  constructor
  · rintro ⟨hx, rfl⟩
    cases x with
    | named x => exact .inr ⟨x, ⟨hx, rfl⟩, rfl⟩
    | list x =>
      obtain ⟨item, tag⟩ := x
      exact .inl ⟨_, rfl, item, _, hx, rfl, [], rfl, rfl, rfl⟩
  · rintro (⟨_, rfl, y, _, hy, rfl, _, rfl, rfl, rfl⟩ | ⟨y, ⟨hy, rfl⟩, rfl⟩)
    · exact ⟨hy, rfl⟩
    · exact ⟨hy, rfl⟩

/-- A type is a nullable type with or without an exclamation mark. -/
theorem typeRef_language_eq :
    TypeRef.language = NullableTypeRef.language.seq fun x =>
      ((Language.symbol (.bare .bang)).seq fun _ => .ret (.nonNull ⟨x, ()⟩)).union
        (.ret x.toTypeRef) := by
  funext w x
  simp only [NullableTypeRef.language, TypeRef.language, Language.union,
    Language.seq_ofTree_iff, Language.seq_symbol_iff, Language.ret,
    Language.ofTree, eq_iff_iff]
  constructor
  · rintro ⟨hx, rfl⟩
    cases x with
    | named x => exact ⟨.named x, [], hx, (List.append_nil _).symm, .inr ⟨rfl, rfl⟩⟩
    | list x => exact ⟨.list x, [], hx, (List.append_nil _).symm, .inr ⟨rfl, rfl⟩⟩
    | nonNull x =>
      obtain ⟨inner, tag⟩ := x
      exact ⟨inner, _, hx, rfl, .inl ⟨[], rfl, rfl, rfl⟩⟩
  · rintro ⟨y, _, hy, rfl, ⟨_, rfl, rfl, rfl⟩ | ⟨rfl, rfl⟩⟩
    · exact ⟨hy, rfl⟩
    · cases y with
      | named x => exact ⟨hy, List.append_nil _⟩
      | list x => exact ⟨hy, List.append_nil _⟩

theorem recognizes_nullableTypeRef {item : Parser (TypeRef Tag)} {start : UInt32}
    (hitem : Recognizes (n - 1) anything item (TypeRef.map untag) TypeRef.language
      (·.kind ≠ .bang)) :
    Recognizes n starts (nullableTypeRef item start) (NullableTypeRef.map untag)
      NullableTypeRef.language anything := by
  refine Recognizes.congr ?_ nullableTypeRef_language_eq
  refine .ite_skip_union (by decide) rfl ?_
    (.bind_pure (recognizes_namedType.image NullableTypeRef.named))
    (fun _ _ => ⟨trivial, trivial⟩) ?_
  · refine .bind_leads hitem (fun _ => .bind_anything (.expect_bare (by decide) rfl) fun _ =>
      .mark_pure start fun _ => rfl) fun _ => ?_
    refine .of_starts (.seq (.symbol _)) ?_
    rintro _ rfl
    decide
  · exact .image (.of_starts starts_namedType fun x hx => by simp [hx]) _

theorem recognizes_typeRef :
    Recognizes n starts (typeRef n) (TypeRef.map untag) TypeRef.language (·.kind ≠ .bang) := by
  induction n generalizing starts with
  | zero => exact .of_zero
  | succ n ih =>
    rw [typeRef_succ]
    refine .here_bind fun start => Recognizes.congr ?_ typeRef_language_eq
    refine .bind_anything (recognizes_nullableTypeRef ih) fun x => ?_
    refine .ite_skip_union (by decide) rfl (.mark_pure start fun _ => rfl) (.pure ?_)
      (fun _ _ => ⟨trivial, trivial⟩) (.ret _ fun _ => id)
    cases x <;> rfl

/-! ## Values -/

theorem recognizes_literal (kind : TokenKind) (heof : kind ≠ .eof) :
    Recognizes n (·.kind = kind) literal (Literal.map untag) (Literal.language kind)
      anything := by
  have h : Recognizes n (·.kind = kind) literal (Literal.map untag)
      ((Language.lexeme (·.kind = kind)).seq fun x => .ret ⟨x.text, ()⟩) anything :=
    .here_bind fun start => .bind_anything (.advance fun _ hx => hx ▸ heof) fun _ =>
      .mark_pure start fun _ => rfl
  exact h.congr (Language.seq_ret _ _).symm

/-- What a name in the place of a value stands for. -/
def valueOfName (text : String) (tag : α) : Value α :=
  if text = "true" then .boolean ⟨true, tag⟩
  else if text = "false" then .boolean ⟨false, tag⟩
  else .enum ⟨text, tag⟩

theorem namedValue_eq :
    namedValue = (do
      let x ← literal
      return valueOfName x.text x.tag : Parser (Value Tag)) := by
  simp only [namedValue, valueOfName]
  congr 1
  funext x
  split
  · rfl
  · split <;> rfl

theorem map_valueOfName {γ : Type} (f : α → γ) (text : String) (tag : α) :
    (valueOfName text tag).map f = valueOfName text (f tag) := by
  simp only [valueOfName]
  split
  · rfl
  · split <;> rfl

/-- The kind of the first token of a value. -/
def leadKind : Value α → TokenKind
  | .var _ => .dollar
  | .int _ => .int
  | .float _ => .float
  | .string _ => .string
  | .boolean _ | .enum _ => .name
  | .list _ => .bracketOpen
  | .object _ => .braceOpen

theorem exists_terminals_eq_cons (x : Value α) :
    ∃ t v, x.terminals = t :: v ∧ t.lexeme.kind = leadKind x := by
  cases x with
  | list x =>
    obtain ⟨values, tag⟩ := x
    exact ⟨_, _, rfl, rfl⟩
  | object x =>
    obtain ⟨fields, tag⟩ := x
    exact ⟨_, _, rfl, rfl⟩
  | _ => exact ⟨_, _, rfl, rfl⟩

theorem value_language_beginning {const : Bool} {kind : TokenKind} {w : List Terminal}
    {x : Value Unit} :
    (Value.language const).beginning (·.kind = kind) w x ↔
      x.Admissible const ∧ w = x.terminals ∧ leadKind x = kind := by
  obtain ⟨t, v, hterminals, hlead⟩ := exists_terminals_eq_cons x
  constructor
  · rintro ⟨⟨hx, rfl⟩, hfirst⟩
    rw [hterminals, spell_cons, beginsWith_cons, hlead] at hfirst
    exact ⟨hx, rfl, hfirst⟩
  · rintro ⟨hx, rfl, hkind⟩
    refine ⟨⟨hx, rfl⟩, ?_⟩
    rw [hterminals, spell_cons, beginsWith_cons, hlead]
    exact hkind

theorem value_language_name (const : Bool) :
    (Value.language const).beginning (·.kind = .name) =
      (Literal.language .name).image fun x => valueOfName x.text () := by
  funext w x
  rw [eq_iff_iff, value_language_beginning]
  constructor
  · rintro ⟨hx, rfl, hkind⟩
    cases x with
    | boolean x =>
      obtain ⟨_ | _, tag⟩ := x
      · exact ⟨⟨"false", ()⟩, ⟨.ofName "false", ⟨rfl, rfl, (by decide : isName "false" = true)⟩,
          rfl⟩, rfl⟩
      · exact ⟨⟨"true", ()⟩, ⟨.ofName "true", ⟨rfl, rfl, (by decide : isName "true" = true)⟩,
          rfl⟩, rfl⟩
    | enum x =>
      obtain ⟨⟨hname, htrue, hfalse⟩, -⟩ := hx
      refine ⟨x, ⟨.ofName x.text, ⟨rfl, rfl, hname⟩, rfl⟩, ?_⟩
      simp [valueOfName, htrue, hfalse]
    | _ => cases hkind
  · rintro ⟨_, ⟨l, ⟨rfl, hkind, hproper⟩, rfl⟩, rfl⟩
    obtain ⟨hl, hname⟩ := hproper.eq_ofName hkind
    generalize l.text = text at hl hname
    subst hl
    show (valueOfName text ()).Admissible const ∧ _ = (valueOfName text ()).terminals ∧
      leadKind (valueOfName text ()) = .name
    by_cases htrue : text = "true"
    · subst htrue
      exact ⟨⟨trivial, fun _ => rfl⟩, rfl, rfl⟩
    by_cases hfalse : text = "false"
    · subst hfalse
      exact ⟨⟨trivial, fun _ => rfl⟩, rfl, rfl⟩
    rw [valueOfName, if_neg htrue, if_neg hfalse]
    exact ⟨⟨⟨hname, htrue, hfalse⟩, fun _ => rfl⟩, rfl, rfl⟩

/-- Values that are a single token of a kind that has no other use. -/
theorem value_language_literal {const : Bool} {kind : TokenKind} {f : Literal Unit → Value Unit}
    (hvalue : kind.hasValue = true)
    (hlead : ∀ x, leadKind x = kind ↔ ∃ text, x = f ⟨text, ()⟩)
    (hterminals : ∀ text, (f ⟨text, ()⟩).terminals = [.plain ⟨kind, some text⟩])
    (hproper : ∀ text, (f ⟨text, ()⟩).Admissible const ↔ Lexeme.IsProper ⟨kind, some text⟩) :
    (Value.language const).beginning (·.kind = kind) = (Literal.language kind).image f := by
  funext w x
  rw [eq_iff_iff, value_language_beginning, hlead]
  constructor
  · rintro ⟨hx, rfl, text, rfl⟩
    exact ⟨⟨text, ()⟩, ⟨⟨kind, some text⟩, ⟨hterminals text, rfl, (hproper text).1 hx⟩, rfl⟩, rfl⟩
  · rintro ⟨_, ⟨l, ⟨rfl, rfl, hl⟩, rfl⟩, rfl⟩
    have heq : l = ⟨l.kind, some l.text⟩ := by rw [← hl.value_eq hvalue]
    exact ⟨(hproper l.text).2 (heq ▸ hl), by rw [hterminals, ← heq], l.text, rfl⟩

theorem value_language_int (const : Bool) :
    (Value.language const).beginning (·.kind = .int) = (Literal.language .int).image .int :=
  value_language_literal (f := Value.int) rfl
    (fun x => by cases x with
      | int x => exact ⟨fun _ => ⟨x.text, rfl⟩, fun _ => rfl⟩
      | _ => simp [leadKind])
    (fun _ => rfl) fun _ => ⟨And.left, fun h => ⟨h, fun _ => rfl⟩⟩

theorem value_language_float (const : Bool) :
    (Value.language const).beginning (·.kind = .float) = (Literal.language .float).image .float :=
  value_language_literal (f := Value.float) rfl
    (fun x => by cases x with
      | float x => exact ⟨fun _ => ⟨x.text, rfl⟩, fun _ => rfl⟩
      | _ => simp [leadKind])
    (fun _ => rfl) fun _ => ⟨And.left, fun h => ⟨h, fun _ => rfl⟩⟩

theorem value_language_string (const : Bool) :
    (Value.language const).beginning (·.kind = .string) =
      (Literal.language .string).image .string :=
  value_language_literal (f := Value.string) rfl
    (fun x => by cases x with
      | string x => exact ⟨fun _ => ⟨x.text, rfl⟩, fun _ => rfl⟩
      | _ => simp [leadKind])
    (fun _ => rfl) fun _ => ⟨And.left, fun h => ⟨h, fun _ => rfl⟩⟩

theorem value_language_list (const : Bool) :
    (Value.language const).beginning (·.kind = .bracketOpen) =
      ((Value.language const).enclosed .bracketOpen .bracketClose).image
        fun values => .list ⟨values, ()⟩ := by
  funext w x
  rw [eq_iff_iff, value_language_beginning, Value.language, Language.enclosed_ofTree]
  constructor
  · rintro ⟨hx, rfl, hkind⟩
    cases x with
    | list x =>
      obtain ⟨values, tag⟩ := x
      exact ⟨values,
        ⟨Value.admissible_list.1 hx, by simp [Value.terminals, ListValue.terminals]⟩, rfl⟩
    | _ => cases hkind
  · rintro ⟨values, ⟨hvalues, rfl⟩, rfl⟩
    exact ⟨Value.admissible_list.2 hvalues, by simp [Value.terminals, ListValue.terminals], rfl⟩

theorem value_language_object (const : Bool) :
    (Value.language const).beginning (·.kind = .braceOpen) =
      (Language.symbol (.bare .braceOpen)).seq fun _ =>
        (ObjectField.languageAll const []).image fun fields => .object ⟨fields, ()⟩ := by
  funext w x
  rw [eq_iff_iff, value_language_beginning, ObjectField.languageAll]
  simp only [Language.image, Language.seq_symbol_iff, Language.ofTree]
  constructor
  · rintro ⟨hx, rfl, hkind⟩
    cases x with
    | object x =>
      obtain ⟨fields, tag⟩ := x
      exact ⟨_, rfl, fields, ⟨Value.admissible_object.1 hx, rfl⟩, rfl⟩
    | _ => cases hkind
  · rintro ⟨_, rfl, fields, ⟨hfields, rfl⟩, rfl⟩
    exact ⟨Value.admissible_object.2 hfields, rfl, rfl⟩

theorem value_language_var :
    (Value.language false).beginning (·.kind = .dollar) = Variable.language.image .var := by
  funext w x
  rw [eq_iff_iff, value_language_beginning]
  constructor
  · rintro ⟨hx, rfl, hkind⟩
    cases x with
    | var x => exact ⟨x, ⟨hx.1, rfl⟩, rfl⟩
    | _ => cases hkind
  · rintro ⟨x, ⟨hx, rfl⟩, rfl⟩
    exact ⟨⟨hx, by simp⟩, rfl, rfl⟩

/-! ### Fields of objects -/

variable {value : Parser (Value Tag)} {const : Bool} {taken : List String}

/-- A field whose name is not taken is a name, a colon and a value. -/
theorem objectField_language_beginning (const : Bool) (taken : List String) :
    (ObjectField.language const taken).beginning
        (fun x => ¬ (x.kind = .name ∧ x.text ∈ taken)) =
      (Name.language.beginning fun x => ¬ (x.kind = .name ∧ x.text ∈ taken)).seq
        fun x => (Language.symbol (.bare .colon)).seq fun _ =>
          (Value.language const).seq fun y => .ret ⟨x, y, ()⟩ := by
  funext w x
  rw [eq_iff_iff]
  constructor
  · rintro ⟨⟨hx, rfl⟩, hfirst⟩
    obtain ⟨name, value, tag⟩ := x
    obtain ⟨hname, hvalue⟩ := ObjectField.admissible_mk.1 hx
    have htaken : name.value ∉ taken := by simpa [ObjectField.terminals] using hfirst
    refine ⟨name.terminals, .bare .colon :: value.terminals, name, ?_,
      ⟨⟨hname, rfl⟩, by simpa [Name.terminals] using htaken⟩, ?_⟩
    · simp [ObjectField.terminals, ObjectField.objection?, htaken, Name.terminals,
        Terminal.ofName, Terminal.plain]
    · exact Language.seq_symbol_iff.2 ⟨_, rfl, Language.seq_ofTree_iff.2
        ⟨value, [], hvalue, by simp, rfl, rfl⟩⟩
  · rintro ⟨_, _, name, rfl, ⟨⟨hname, rfl⟩, hfirst⟩, hrest⟩
    obtain ⟨_, rfl, htail⟩ := Language.seq_symbol_iff.1 hrest
    obtain ⟨value, _, hvalue, rfl, rfl, rfl⟩ := Language.seq_ofTree_iff.1 htail
    have htaken : name.value ∉ taken := by simpa [Name.terminals] using hfirst
    refine ⟨⟨ObjectField.admissible_mk.2 ⟨hname, hvalue⟩, ?_⟩, ?_⟩
    · simp [ObjectField.terminals, ObjectField.objection?, htaken, Name.terminals,
        Terminal.ofName, Terminal.plain, Terminal.bare]
    · simpa [Name.terminals] using htaken

theorem starts_objectField (const : Bool) (taken : List String) :
    (ObjectField.language const taken).Starts (·.kind = .name) := by
  rintro w ⟨name, value, tag⟩ ⟨-, rfl⟩
  exact ⟨_, _, rfl, rfl⟩

theorem recognizes_objectField
    (hvalue : Recognizes n anything value (Value.map untag) (Value.language const) anything) :
    Recognizes n starts (objectField value taken) (ObjectField.map untag)
      (ObjectField.language const taken) anything := by
  refine .here_bind fun start => .peek_bind fun token _ => .ite (fun htaken => ?_) fun hfree => ?_
  · obtain ⟨hkind, htaken⟩ : token.kind = .name ∧ token.lexeme.text ∈ taken := by
      simpa using htaken
    rw [fail_bind]
    refine .fail ?_ ?_ ?_
    · rintro x rfl hproper
      obtain ⟨hl, -⟩ := hproper.eq_ofName hkind
      rw [hl, Lexeme.text_ofName]
      exact .duplicateField token.lexeme.text
    · rintro w ⟨name, value, tag⟩ r x v ⟨hx, rfl⟩ - heq rfl
      obtain ⟨heq, -⟩ := List.cons.inj heq
      rw [← heq, Lexeme.text_ofName] at htaken
      refine ⟨.repeatedField name.value, ?_, by rw [← heq]; rfl⟩
      simp [ObjectField.terminals, ObjectField.objection?, htaken, ← heq]
    · rintro x rfl hproper -
      obtain ⟨hl, hname⟩ := hproper.eq_ofName hkind
      refine ⟨_, _, ⟨⟨token.lexeme.text, ()⟩, .boolean ⟨true, ()⟩, ()⟩, ⟨?_, rfl⟩, hl.symm⟩
      exact ObjectField.admissible_mk.2 ⟨hname, trivial, fun _ => rfl⟩
  · have hfree : ∀ x, x = token.lexeme → ¬ (x.kind = .name ∧ x.text ∈ taken) := by
      rintro _ rfl
      simpa using hfree
    refine .mono ?_ (Nat.le_refl n) hfree
    refine .of_beginning ?_ (starts_objectField const taken)
    refine Recognizes.congr ?_ (objectField_language_beginning const taken)
    exact .bind_anything recognizes_name.beginning fun _ =>
      .bind_anything (.expect_bare (by decide) rfl) fun _ =>
        .bind_anything hvalue fun _ => .mark_pure start fun _ => rfl

theorem objectField_languageAll_eq (const : Bool) (taken : List String) :
    ObjectField.languageAll const taken =
      ((Language.symbol (.bare .braceClose)).seq fun _ => .ret []).union
        ((ObjectField.language const taken).seq fun x =>
          (ObjectField.languageAll const (x.name.value :: taken)).image (x :: ·)) := by
  funext w xs
  simp only [ObjectField.languageAll, ObjectField.language, Language.union,
    Language.seq_symbol_iff, Language.seq_ofTree_iff, Language.image, Language.ofTree,
    Language.ret, eq_iff_iff]
  constructor
  · rintro ⟨hxs, rfl⟩
    cases xs with
    | nil => exact .inl ⟨[], rfl, rfl, rfl⟩
    | cons x xs =>
      obtain ⟨hx, hxs⟩ := List.forall_mem_cons.1 hxs
      exact .inr ⟨x, _, hx, List.append_assoc .., xs, ⟨hxs, rfl⟩, rfl⟩
  · rintro (⟨_, rfl, rfl, rfl⟩ | ⟨x, _, hx, rfl, xs, ⟨hxs, rfl⟩, rfl⟩)
    · exact ⟨by simp, rfl⟩
    · exact ⟨List.forall_mem_cons.2 ⟨hx, hxs⟩, (List.append_assoc ..).symm⟩

theorem recognizes_objectFields
    (hvalue : Recognizes n anything value (Value.map untag) (Value.language const) anything)
    (hn : n ≤ limit) :
    Recognizes n starts (objectFields value taken limit) (List.map (ObjectField.map untag))
      (ObjectField.languageAll const taken) anything := by
  induction limit generalizing n taken starts with
  | zero =>
    obtain rfl : n = 0 := by omega
    exact .of_zero
  | succ limit ih =>
    cases n with
    | zero => exact .of_zero
    | succ n =>
      refine Recognizes.congr ?_ (objectField_languageAll_eq const taken)
      refine .ite_skip_union (by decide) rfl (.pure rfl) ?_ (fun _ _ => ⟨trivial, trivial⟩) ?_
      · refine .bind (m := n) (recognizes_objectField hvalue) (fun x => .bind_pure ?_) ?_
          fun _ => .of_anything _
        · obtain ⟨⟨text, nameMark⟩, y, fieldMark⟩ := x
          have hrest :
              Recognizes n anything (objectFields value (text :: taken) limit) _ _ _ :=
            ih (hvalue.mono (Nat.le_succ n) fun _ => id) (Nat.le_of_succ_le_succ hn)
          exact hrest.image (ObjectField.map untag ⟨⟨text, nameMark⟩, y, fieldMark⟩ :: ·)
        · intro w x hw
          have := (starts_objectField const taken).length_pos hw
          omega
      · refine .of_starts (.seq (starts_objectField const taken)) ?_
        rintro x hx
        simp [hx]

/-- The kinds of tokens that a value can begin with. -/
def beginsValue (const : Bool) : TokenKind → Bool
  | .int | .float | .string | .name | .bracketOpen | .braceOpen => true
  | .dollar => !const
  | _ => false

theorem starts_value (const : Bool) :
    (Value.language const).Starts (beginsValue const ·.kind = true) := by
  rintro w x ⟨hx, rfl⟩
  obtain ⟨t, v, hterminals, hlead⟩ := exists_terminals_eq_cons x
  refine ⟨t, v, hterminals, ?_⟩
  show beginsValue const t.lexeme.kind = true
  rw [hlead]
  cases x with
  | var x =>
    cases const with
    | false => rfl
    | true => cases hx.2 rfl
  | _ => rfl

/-- Where a token of one kind is ahead, it is enough to read the values that begin
with it. -/
theorem recognizes_value_of_kind {kind : TokenKind} {p : Parser (Value Tag)}
    {L : Language (Value Unit)} (heq : (Value.language const).beginning (·.kind = kind) = L)
    (h : Recognizes n (·.kind = kind) p (Value.map untag) L anything) :
    Recognizes n (·.kind = kind) p (Value.map untag) (Value.language const) anything :=
  .of_beginning (heq ▸ h) (starts_value const)

theorem recognizes_listValue {start : UInt32}
    (hvalue : Recognizes n anything value (Value.map untag) (Value.language const) anything)
    (hn : n ≤ limit) :
    Recognizes (n + 1) starts
      (do
        let values ← any .bracketOpen value .bracketClose limit
        return .list ⟨values, ← mark start⟩)
      (Value.map untag)
      (((Value.language const).enclosed .bracketOpen .bracketClose).image
        fun values => .list ⟨values, ()⟩) anything := by
  rw [← Language.seq_ret]
  have hstarts : (Value.language const).Starts fun x => x.kind ≠ .bracketClose ∧ anything x := by
    refine (starts_value const).mono fun x hx => ⟨?_, trivial⟩
    intro hkind
    simp [hkind, beginsValue] at hx
  refine .bind_anything (.any hvalue hn hstarts trivial ⟨by decide, rfl⟩ ⟨by decide, rfl⟩)
    fun values => .mark_pure start fun _ => ?_
  simp [Value.map, ListValue.map, untag]

theorem recognizes_objectValue {start : UInt32}
    (hvalue : Recognizes n anything value (Value.map untag) (Value.language const) anything)
    (hn : n ≤ limit) :
    Recognizes (n + 1) starts
      (do
        let _ ← expect .braceOpen
        let fields ← objectFields value [] limit
        return .object ⟨fields, ← mark start⟩)
      (Value.map untag)
      ((Language.symbol (.bare .braceOpen)).seq fun _ =>
        (ObjectField.languageAll const []).image fun fields => .object ⟨fields, ()⟩)
      anything := by
  rw [← Language.seq_ret]
  refine .symbol_bind (.expect_bare (by decide) rfl) fun _ =>
    .bind_anything (recognizes_objectFields hvalue hn) fun fields => .mark_pure start fun _ => ?_
  simp [Value.map, ObjectValue.map, untag]

theorem recognizes_value :
    Recognizes n starts (Parser.value const n) (Value.map untag) (Value.language const)
      anything := by
  induction n generalizing starts with
  | zero => exact .of_zero
  | succ n ih =>
    rw [value_succ]
    refine .here_bind fun start => .peek_bind fun token _ => ?_
    refine .mono ?_ (Nat.le_refl _) (fun x hx => congrArg Lexeme.kind hx)
    show Recognizes (n + 1) (·.kind = token.kind) _ _ _ _
    generalize token.kind = kind
    cases kind with
    | bracketOpen =>
      exact recognizes_value_of_kind (value_language_list const)
        (recognizes_listValue ih (Nat.le_refl n))
    | braceOpen =>
      exact recognizes_value_of_kind (value_language_object const)
        (recognizes_objectValue ih (Nat.le_refl n))
    | int =>
      refine recognizes_value_of_kind (value_language_int const) (.bind_pure ?_)
      exact (recognizes_literal .int (by decide)).image Value.int
    | float =>
      refine recognizes_value_of_kind (value_language_float const) (.bind_pure ?_)
      exact (recognizes_literal .float (by decide)).image Value.float
    | string =>
      refine recognizes_value_of_kind (value_language_string const) (.bind_pure ?_)
      exact (recognizes_literal .string (by decide)).image Value.string
    | name =>
      rw [namedValue_eq]
      refine recognizes_value_of_kind (value_language_name const) (.bind_pure ?_)
      simp only [map_valueOfName]
      exact (recognizes_literal .name (by decide)).image fun x => valueOfName x.text ()
    | dollar =>
      cases const with
      | true =>
        exact .unexpected_of_starts (starts_value true) fun x hx hkind => by
          simp [hkind, beginsValue] at hx
      | false =>
        exact recognizes_value_of_kind value_language_var
          (.bind_pure (recognizes_var.image Value.var))
    | _ =>
      exact .unexpected_of_starts (starts_value const) fun x hx hkind => by
        simp [hkind, beginsValue] at hx

/-! ## Default values, arguments and directives -/

/-- A default value is an equals sign and a constant, or nothing. -/
theorem value_defaultLanguage_eq :
    Value.defaultLanguage =
      ((Language.symbol (.bare .equals)).seq fun _ =>
        (Value.language true).image some).union (.ret none) := by
  funext w x
  simp only [Value.defaultLanguage, Value.language, Language.union, Language.seq_symbol_iff,
    Language.image, Language.ofTree, Language.ret, eq_iff_iff]
  constructor
  · rintro ⟨hx, rfl⟩
    cases x with
    | none => exact .inr ⟨rfl, rfl⟩
    | some x =>
      obtain ⟨hform, hconst⟩ := hx x rfl
      exact .inl ⟨_, rfl, x, ⟨⟨hform, fun _ => hconst⟩, rfl⟩, rfl⟩
  · rintro (⟨_, rfl, x, ⟨⟨hform, hconst⟩, rfl⟩, rfl⟩ | ⟨rfl, rfl⟩)
    · refine ⟨?_, rfl⟩
      rintro _ ⟨⟩
      exact ⟨hform, hconst rfl⟩
    · exact ⟨nofun, rfl⟩

theorem recognizes_defaultValue :
    Recognizes n starts (defaultValue n) (Option.map (Value.map untag)) Value.defaultLanguage
      (·.kind ≠ .equals) := by
  refine Recognizes.congr ?_ value_defaultLanguage_eq
  refine .ite_skip_union (by decide) rfl ?_ (.pure rfl) (fun _ _ => ⟨trivial, trivial⟩)
    (.ret _ fun _ => id)
  exact .bind_pure ((recognizes_value.mono (Nat.sub_le n 1) fun _ => id).image some)

/-- What comes after a type and perhaps a default value goes on with neither. -/
def afterDefault (x : Lexeme) : Prop :=
  x.kind ≠ .bang ∧ x.kind ≠ .equals

theorem leads_default : Value.defaultLanguage.Leads afterDefault (·.kind ≠ .bang) := by
  rw [value_defaultLanguage_eq]
  refine .union (.of_starts (.seq (.symbol _)) ?_) (.ret none fun x hx => hx.1)
  rintro _ rfl
  decide

/-- A type with perhaps a default value is what three sorts of definitions end with. -/
theorem recognizes_typeAndDefault {β γ : Type} {g : TypeRef Tag → Option (Value Tag) → Tag → β}
    {erase : β → γ} {f : TypeRef Unit → Option (Value Unit) → γ} {start : UInt32}
    (h : ∀ type value m,
      erase (g type value m) = f (type.map untag) (value.map (Value.map untag)))
    (hn : n ≤ limit) :
    Recognizes n starts
      (do
        let type ← typeRef limit
        let value ← defaultValue limit
        return g type value (← mark start))
      erase
      (TypeRef.language.seq fun type => Value.defaultLanguage.seq fun value =>
        .ret (f type value))
      afterDefault := by
  refine .bind_leads (recognizes_typeRef.mono hn fun _ => id) (fun type => ?_)
    fun type => .seq leads_default fun value => .ret _ fun _ => id
  exact .bind_leads (recognizes_defaultValue.mono hn fun _ => id)
    (fun value => .of_anything (.mark_pure start (h type value)))
    fun value => .ret _ fun x hx => hx.2

theorem argument_language_eq :
    Argument.language = Name.language.seq fun x =>
      (Language.symbol (.bare .colon)).seq fun _ =>
        (Value.language false).seq fun y => .ret ⟨x, y, ()⟩ := by
  funext w x
  simp only [Argument.language, Name.language, Value.language, Language.seq_ofTree_iff,
    Language.seq_symbol_iff, Language.ofTree, Language.ret, eq_iff_iff]
  constructor
  · rintro ⟨hx, rfl⟩
    exact ⟨x.name, _, hx.1, rfl, _, rfl, x.value, [], ⟨hx.2, by simp⟩, by simp, rfl, rfl⟩
  · rintro ⟨name, _, hname, rfl, _, rfl, value, _, hvalue, rfl, rfl, rfl⟩
    exact ⟨⟨hname, hvalue.1⟩, by simp [Argument.terminals, Terminal.bare]⟩

theorem recognizes_argument :
    Recognizes n starts (argument n) (Argument.map untag) Argument.language anything := by
  refine Recognizes.congr ?_ argument_language_eq
  exact .here_bind fun start => .bind_anything recognizes_name fun _ =>
    .bind_anything (.expect_bare (by decide) rfl) fun _ =>
      .bind_anything recognizes_value fun _ => .mark_pure start fun _ => rfl

theorem starts_argument : Argument.language.Starts (·.kind = .name) := by
  rintro w x ⟨-, rfl⟩
  exact ⟨_, _, rfl, rfl⟩

theorem parenthesized_ofTree {γ : Type} (form : γ → Prop) (write : γ → List Terminal) :
    Language.parenthesized (.ofTree form write) =
      .ofTree (∀ x ∈ ·, form x) (parenthesizedTerminals write) := by
  funext w xs
  simp only [Language.parenthesized, Language.nonempty, Language.enclosed_ofTree,
    Language.ofTree, parenthesizedTerminals, eq_iff_iff]
  constructor
  · rintro (⟨rfl, rfl⟩ | ⟨⟨hxs, rfl⟩, hne⟩)
    · exact ⟨by simp, rfl⟩
    · exact ⟨hxs, by simp [hne]⟩
  · rintro ⟨hxs, rfl⟩
    cases xs with
    | nil => exact .inl ⟨rfl, rfl⟩
    | cons x xs => exact .inr ⟨⟨hxs, rfl⟩, by simp⟩

theorem recognizes_arguments (hn : n ≤ limit) :
    Recognizes n starts (arguments limit) (List.map (Argument.map untag))
      Argument.language.parenthesized (·.kind ≠ .parenOpen) := by
  have hstarts : Argument.language.Starts fun x => x.kind ≠ .parenClose ∧ anything x :=
    starts_argument.mono fun x hx => ⟨by simp [hx], trivial⟩
  refine .mono (.parenthesized ?_ hn hstarts trivial) (Nat.le_succ n) fun _ => id
  exact recognizes_argument.mono hn fun _ => id

theorem directive_language_eq :
    Directive.language =
      (Language.symbol (.bare .atSign)).seq fun _ => Name.language.seq fun x =>
        Argument.language.parenthesized.seq fun ys => .ret ⟨x, ys, ()⟩ := by
  funext w x
  simp only [Directive.language, Name.language, Argument.language, parenthesized_ofTree,
    Language.seq_ofTree_iff, Language.seq_symbol_iff, Language.ofTree, Language.ret, eq_iff_iff]
  constructor
  · rintro ⟨hx, rfl⟩
    exact ⟨_, rfl, x.name, _, hx.1, rfl, x.arguments, [], hx.2, by simp, rfl, rfl⟩
  · rintro ⟨_, rfl, name, _, hname, rfl, arguments, _, harguments, rfl, rfl, rfl⟩
    exact ⟨⟨hname, harguments⟩, by simp [Directive.terminals, Terminal.bare]⟩

theorem starts_directive : Directive.language.Starts (·.kind = .atSign) := by
  rintro w x ⟨-, rfl⟩
  exact ⟨_, _, rfl, rfl⟩

theorem recognizes_directive (hn : n ≤ limit) :
    Recognizes n starts (directive limit) (Directive.map untag) Directive.language
      (·.kind ≠ .parenOpen) := by
  refine Recognizes.congr ?_ directive_language_eq
  exact .here_bind fun start => .bind_anything (.expect_bare (by decide) rfl) fun _ =>
    .bind_anything recognizes_name fun _ =>
      .bind_leads (recognizes_arguments hn) (fun _ => .of_anything (.mark_pure start fun _ => rfl))
        fun _ => .ret _ fun _ => id

/-- What comes after directives neither begins another one nor goes on with the last
one. -/
def afterDirectives (x : Lexeme) : Prop :=
  x.kind ≠ .atSign ∧ x.kind ≠ .parenOpen

theorem recognizes_directives (hn : n ≤ limit) :
    Recognizes n starts (directives limit) (List.map (Directive.map untag))
      Directive.language.star afterDirectives := by
  refine .whileSees (recognizes_directive hn) hn (starts_directive.mono fun x hx => ⟨hx, ?_⟩)
  simp [hx]

end GraphQLSyntax.Parser
