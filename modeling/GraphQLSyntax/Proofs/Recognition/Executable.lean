import GraphQLSyntax.Grammar.Executable
import GraphQLSyntax.Proofs.Recognition.Value
import GraphQLSyntax.Proofs.Yield.Executable

/-!
# Recognition of executable documents

The productions of operations, fragments and selections read the languages of the
well-formed trees of their kinds.  Only fields and spreads end without a closing
brace, so only they restrict what may follow.
-/

namespace GraphQLSyntax

/-! ## The languages -/

def SelectionSet.language : Language (SelectionSet Unit) :=
  .ofTree (WellFormed .lax) terminals

def SelectionSet.optionLanguage : Language (Option (SelectionSet Unit)) :=
  .ofTree (OptionWellFormed .lax) terminalsOption

def Selection.language : Language (Selection Unit) :=
  .ofTree (WellFormed .lax) terminals

def Field.language : Language (Field Unit) :=
  .ofTree (WellFormed .lax) terminals

def VariableDefinition.language : Language (VariableDefinition Unit) :=
  .ofTree (WellFormed .lax) terminals

def OperationDefinition.language : Language (OperationDefinition Unit) :=
  .ofTree (WellFormed .lax) terminals

/-- A name that a spread may have. -/
def Name.spreadLanguage : Language (Name Unit) :=
  .ofTree (fun x => x.WellFormed ∧ x.value ≠ "on") terminals

/-- A name under which a fragment is defined. -/
def Name.fragmentLanguage : Language (Name Unit) :=
  .ofTree WellFormed fragmentTerminals

def FragmentDefinition.language : Language (FragmentDefinition Unit) :=
  .ofTree (WellFormed .lax) terminals

def Definition.language : Language (Definition Unit) :=
  .ofTree (WellFormed .lax) terminals

def Document.language : Language (Document Unit) :=
  .ofTree (WellFormed .lax) terminals

/-- A selection with nothing to it. -/
def plainSelection : Selection Unit :=
  .field ⟨none, ⟨"_", ()⟩, [], [], none, ()⟩

theorem plainSelection_wellFormed : plainSelection.WellFormed .lax :=
  ⟨nofun, (by decide : isName "_" = true), by simp, by simp, trivial⟩

theorem plainSelection_allPlain : Terminal.AllPlain plainSelection.terminals := by
  simp [plainSelection, Selection.terminals, Field.terminals, parenthesizedTerminals,
    SelectionSet.terminalsOption]

instance : Selection.language.Inhabited :=
  .of_ofTree plainSelection_wellFormed plainSelection_allPlain

instance : SelectionSet.language.Inhabited :=
  .of_ofTree (x := ⟨[plainSelection], ()⟩)
    ⟨by simp, by simp [plainSelection_wellFormed]⟩
    (by simp [SelectionSet.terminals, plainSelection_allPlain])

instance : Name.fragmentLanguage.Inhabited :=
  .of_ofTree (x := ⟨"_", ()⟩) (by decide : isName "_" = true)
    (by simp [Name.fragmentTerminals, FragmentDefinition.objection?])

instance : VariableDefinition.language.Inhabited :=
  .of_ofTree (x := ⟨⟨⟨"_", ()⟩, ()⟩, .named ⟨⟨"_", ()⟩, ()⟩, none, ()⟩)
    ⟨(by decide : isName "_" = true), (by decide : isName "_" = true), nofun⟩
    (by simp [VariableDefinition.terminals, Variable.terminals, Value.defaultTerminals])

instance : SelectionSet.optionLanguage.Inhabited :=
  .of_ofTree (x := none) trivial (by simp [SelectionSet.terminalsOption])

theorem starts_selectionSet : SelectionSet.language.Starts (·.kind = .braceOpen) := by
  rintro w ⟨selections, tag⟩ ⟨-, rfl⟩
  exact ⟨_, _, rfl, rfl⟩

end GraphQLSyntax

namespace GraphQLSyntax.Parser

variable {n limit : Nat} {starts : Lexeme → Prop}
variable {set : Parser (SelectionSet Tag)}

/-! ## Fields -/

/-- Takes the tags off the names that a field begins with. -/
def untagNames (x : Option (Name Tag) × Name Tag) : Option (Name Unit) × Name Unit :=
  (x.1.map (Name.map untag), x.2.map untag)

/-- An alias with a colon, perhaps, and a name. -/
def fieldNamesLanguage : Language (Option (Name Unit) × Name Unit) :=
  Name.language.seq fun first =>
    ((Language.symbol (.bare .colon)).seq fun _ =>
      Name.language.image fun x => (some first, x)).union (.ret (none, first))

theorem fieldNamesLanguage_eq :
    fieldNamesLanguage =
      .ofTree (fun x => (∀ y ∈ x.1, y.WellFormed) ∧ x.2.WellFormed)
        fun x => Name.aliasTerminals x.1 ++ x.2.terminals := by
  funext w x
  simp only [fieldNamesLanguage, Name.language, Language.seq_ofTree_iff, Language.union,
    Language.seq_symbol_iff, Language.image, Language.ofTree, Language.ret, eq_iff_iff]
  constructor
  · rintro ⟨first, _, hfirst, rfl, ⟨_, rfl, name, ⟨hname, rfl⟩, rfl⟩ | ⟨rfl, rfl⟩⟩
    · exact ⟨⟨by simpa using hfirst, hname⟩, by simp [Name.aliasTerminals, Terminal.bare]⟩
    · exact ⟨⟨by simp, hfirst⟩, by simp [Name.aliasTerminals]⟩
  · rintro ⟨⟨halias, hname⟩, rfl⟩
    obtain ⟨_ | first, name⟩ := x
    · exact ⟨name, [], hname, by simp [Name.aliasTerminals], .inr ⟨rfl, rfl⟩⟩
    · exact ⟨first, _, halias first rfl, by simp [Name.aliasTerminals]; rfl, .inl
        ⟨_, rfl, name, ⟨hname, rfl⟩, rfl⟩⟩

theorem recognizes_fieldNames :
    Recognizes n starts fieldNames untagNames fieldNamesLanguage (·.kind ≠ .colon) := by
  refine .bind_anything recognizes_name fun first => ?_
  refine .ite_skip_union (by decide) rfl (.bind_pure ?_) (.pure rfl)
    (fun _ _ => ⟨trivial, trivial⟩) (.ret _ fun _ => id)
  exact recognizes_name.image fun x => (some (first.map untag), x)

theorem selectionSet_optionLanguage_eq :
    SelectionSet.optionLanguage = (SelectionSet.language.image some).union (.ret none) := by
  funext w x
  rw [eq_iff_iff]
  constructor
  · rintro ⟨hx, rfl⟩
    cases x with
    | none => exact .inr ⟨rfl, rfl⟩
    | some x => exact .inl ⟨x, ⟨hx, rfl⟩, rfl⟩
  · rintro (⟨x, ⟨hx, rfl⟩, rfl⟩ | ⟨rfl, rfl⟩)
    · exact ⟨hx, rfl⟩
    · exact ⟨trivial, rfl⟩

theorem recognizes_selectionSetOption
    (hset : Recognizes n anything set (SelectionSet.map untag) SelectionSet.language anything) :
    Recognizes n starts (selectionSetOption set) (Option.map (SelectionSet.map untag))
      SelectionSet.optionLanguage (·.kind ≠ .braceOpen) := by
  refine Recognizes.congr ?_ selectionSet_optionLanguage_eq
  refine .ite_sees (.bind_pure (.union_left ?_ (fun _ _ => trivial) ?_))
    (.union_right (.pure rfl) (fun _ _ => trivial) ?_)
  · exact (hset.mono (Nat.le_refl n) fun _ _ => trivial).image some
  · exact .ret none fun x hne hx => hne hx.2
  · exact .image (.of_starts starts_selectionSet fun x hx hne => hne.2 hx) some

/-- A field is its names, arguments, directives and perhaps a selection set. -/
theorem field_language_eq :
    Field.language =
      fieldNamesLanguage.seq fun names => Argument.language.parenthesized.seq fun ys =>
        Directive.language.star.seq fun zs => SelectionSet.optionLanguage.seq fun set =>
          .ret ⟨names.1, names.2, ys, zs, set, ()⟩ := by
  funext w x
  simp only [Field.language, fieldNamesLanguage_eq, Argument.language, Directive.language,
    SelectionSet.optionLanguage, parenthesized_ofTree, Language.star_ofTree,
    Language.seq_ofTree_iff, Language.ofTree, Language.ret, eq_iff_iff]
  constructor
  · rintro ⟨hx, rfl⟩
    obtain ⟨aliasName, name, arguments, directives, set, tag⟩ := x
    obtain ⟨halias, hname, hargs, hdirs, hset⟩ := hx
    exact ⟨(aliasName, name), _, ⟨halias, hname⟩, by simp [Field.terminals]; rfl, arguments, _,
      hargs, rfl, directives, _, hdirs, rfl, set, [], hset, by simp, rfl, rfl⟩
  · rintro ⟨names, _, ⟨halias, hname⟩, rfl, arguments, _, hargs, rfl, directives, _, hdirs, rfl,
      set, _, hset, rfl, rfl, rfl⟩
    exact ⟨⟨halias, hname, hargs, hdirs, hset⟩, by simp [Field.terminals]⟩

/-- What comes after a field does not go on with it. -/
def afterField (x : Lexeme) : Prop :=
  x.kind ≠ .colon ∧ x.kind ≠ .parenOpen ∧ x.kind ≠ .atSign ∧ x.kind ≠ .braceOpen

section Leads

variable {follows first : Lexeme → Prop}

theorem leads_directives (hat : ∀ x : Lexeme, x.kind = .atSign → first x)
    (hf : ∀ x, follows x → first x) : Directive.language.star.Leads follows first :=
  .star (starts_directive.mono hat) hf

theorem leads_selectionSetOption (hbrace : ∀ x : Lexeme, x.kind = .braceOpen → first x)
    (hf : ∀ x, follows x → first x) : SelectionSet.optionLanguage.Leads follows first := by
  rw [selectionSet_optionLanguage_eq]
  exact .union (.image (.of_starts starts_selectionSet hbrace) some) (.ret none hf)

end Leads

theorem starts_field : Field.language.Starts (·.kind = .name) := by
  rintro w ⟨_ | aliasName, name, arguments, directives, set, tag⟩ ⟨-, rfl⟩
  · exact ⟨_, _, rfl, rfl⟩
  · exact ⟨_, _, rfl, rfl⟩

theorem recognizes_field
    (hset : Recognizes n anything set (SelectionSet.map untag) SelectionSet.language anything)
    (hn : n ≤ limit) :
    Recognizes n starts (field set limit) (Field.map untag) Field.language afterField := by
  refine Recognizes.congr ?_ field_language_eq
  refine .here_bind fun start => ?_
  refine .bind_leads recognizes_fieldNames (fun names => ?_) fun names => ?_
  · refine .bind_leads (recognizes_arguments hn) (fun arguments => ?_) fun arguments => ?_
    · refine .bind_leads (recognizes_directives hn) (fun directives => ?_) fun directives => ?_
      · refine .bind_leads (recognizes_selectionSetOption hset)
          (fun set => .of_anything (.mark_pure start fun _ => ?_)) fun set => ?_
        · simp [Field.map, untag, untagNames]
        · exact .ret _ fun x hx => hx.2.2.2
      · refine .seq (leads_selectionSetOption (fun x hx => ?_) fun _ => id) fun set => .ret _ ?_
        · simp [afterDirectives, hx]
        · exact fun x hx => ⟨hx.2.2.1, hx.2.1⟩
    · refine .seq (leads_directives (fun x hx => ?_) fun _ => id) fun directives =>
        .seq (leads_selectionSetOption (fun x hx => ?_) fun _ => id) fun set => .ret _ ?_
      · simp [hx]
      · simp [hx]
      · exact fun x hx => hx.2.1
  · refine .seq (.parenthesized _ (by decide) fun _ => id) fun arguments =>
      .seq (leads_directives (fun x hx => ?_) fun _ => id) fun directives =>
        .seq (leads_selectionSetOption (fun x hx => ?_) fun _ => id) fun set => .ret _ ?_
    · simp [hx]
    · simp [hx]
    · exact fun x hx => hx.1

/-! ## Fragments and selection sets -/

theorem name_language_beginning :
    Name.language.beginning (· ≠ .ofName "on") = Name.spreadLanguage := by
  funext w x
  rw [eq_iff_iff]
  constructor
  · rintro ⟨⟨hx, rfl⟩, hfirst⟩
    exact ⟨⟨hx, by simpa [Name.terminals] using hfirst⟩, rfl⟩
  · rintro ⟨⟨hx, hne⟩, rfl⟩
    exact ⟨⟨hx, rfl⟩, by simpa [Name.terminals] using hne⟩

/-- Other names than `on` are read as the names of fragments without objection. -/
theorem fragmentLanguage_beginning :
    Name.fragmentLanguage.beginning (· ≠ .ofName "on") = Name.spreadLanguage := by
  have hplain : ∀ x : Name Unit, x.value ≠ "on" → x.fragmentTerminals = x.terminals := by
    intro x hne
    simp [Name.fragmentTerminals, FragmentDefinition.objection?, hne, Name.terminals,
      Terminal.ofName, Terminal.plain]
  funext w x
  rw [eq_iff_iff]
  constructor
  · rintro ⟨⟨hx, rfl⟩, hfirst⟩
    have hne : x.value ≠ "on" := by simpa [Name.fragmentTerminals] using hfirst
    exact ⟨⟨hx, hne⟩, hplain x hne⟩
  · rintro ⟨⟨hx, hne⟩, rfl⟩
    exact ⟨⟨hx, (hplain x hne).symm⟩, by simpa [Name.terminals] using hne⟩

theorem starts_fragmentName : Name.fragmentLanguage.Starts (·.kind = .name) := by
  rintro w x ⟨-, rfl⟩
  exact ⟨_, [], rfl, rfl⟩

theorem recognizes_fragmentName :
    Recognizes n starts fragmentName (Name.map untag) Name.fragmentLanguage anything := by
  refine .ite_seesKeyword (.fail ?_ ?_ ?_) ?_
  · rintro _ ⟨-, rfl⟩ -
    exact .reservedName "on"
  · rintro w x r _ v ⟨hx, rfl⟩ - heq ⟨-, rfl⟩
    obtain ⟨heq, -⟩ := List.cons.inj heq
    have hname : x.value = "on" := by simpa using heq
    refine ⟨.reservedName "on", ?_, rfl⟩
    simp [Name.fragmentTerminals, FragmentDefinition.objection?, hname]
  · rintro _ ⟨-, rfl⟩ - -
    exact ⟨_, [], ⟨"on", ()⟩, ⟨(by decide : isName "on" = true), rfl⟩, rfl⟩
  · refine .mono (.of_beginning ?_ starts_fragmentName) (Nat.le_refl n) fun x hx => hx.2
    exact recognizes_name.beginning.congr
      (fragmentLanguage_beginning.trans name_language_beginning.symm)

/-- Where the name `on` is not ahead, there is nothing to object to. -/
theorem recognizes_spreadName :
    Recognizes n (· ≠ .ofName "on") fragmentName (Name.map untag) Name.spreadLanguage
      anything :=
  recognizes_fragmentName.beginning.congr fragmentLanguage_beginning.symm

theorem starts_spreadName : Name.spreadLanguage.Starts (· ≠ .ofName "on") := by
  rintro w x ⟨⟨-, hne⟩, rfl⟩
  exact ⟨_, [], rfl, by simpa using hne⟩

/-- What may come after three dots: a name, or the keyword and an inline fragment. -/
def fragmentRest : Language (Selection Unit) :=
  ((Language.symbol (.ofName "on")).seq fun _ => NamedType.language.seq fun x =>
      Directive.language.star.seq fun ys => SelectionSet.language.seq fun set =>
        .ret (.inline ⟨x, ys, set, ()⟩)).union
    (Name.spreadLanguage.seq fun x =>
      Directive.language.star.seq fun ys => .ret (.spread ⟨x, ys, ()⟩))

instance : fragmentRest.Inhabited := by
  unfold fragmentRest
  infer_instance

theorem selection_language_eq :
    Selection.language =
      ((Language.symbol (.bare .spread)).seq fun _ => fragmentRest).union
        (Field.language.image .field) := by
  funext w x
  simp only [Selection.language, fragmentRest, Name.spreadLanguage, NamedType.language,
    Directive.language, SelectionSet.language, Field.language, Language.star_ofTree,
    Language.union, Language.seq_symbol_iff, Language.seq_ofTree_iff, Language.image,
    Language.ofTree, Language.ret, eq_iff_iff]
  constructor
  · rintro ⟨hx, rfl⟩
    cases x with
    | field x => exact .inr ⟨x, ⟨hx, rfl⟩, rfl⟩
    | spread x =>
      obtain ⟨hname, hne, hdirs⟩ := hx
      exact .inl ⟨_, rfl, .inr ⟨x.name, _, ⟨hname, hne⟩, rfl, x.directives, [], hdirs, by simp,
        rfl, rfl⟩⟩
    | inline x =>
      obtain ⟨typeCondition, directives, set, tag⟩ := x
      obtain ⟨htype, hdirs, hset⟩ := hx
      refine .inl ⟨_, rfl, .inl ⟨_, rfl, typeCondition, _, htype, List.append_assoc .., directives,
        _, hdirs, rfl, set, [], hset, by simp, rfl, rfl⟩⟩
  · rintro (⟨_, rfl, ⟨_, rfl, x, _, hx, rfl, ys, _, hys, rfl, set, _, hset, rfl, rfl, rfl⟩ |
      ⟨x, _, ⟨hx, hne⟩, rfl, ys, _, hys, rfl, rfl, rfl⟩⟩ | ⟨x, ⟨hx, rfl⟩, rfl⟩)
    · exact ⟨⟨hx, hys, hset⟩, by
        simp [Selection.terminals, InlineFragment.terminals, Terminal.bare, Terminal.ofName]⟩
    · exact ⟨⟨hx, hne, hys⟩, by
        simp [Selection.terminals, FragmentSpread.terminals, Terminal.bare]⟩
    · exact ⟨hx, rfl⟩

theorem isProper_on : (Lexeme.ofName "on").IsProper :=
  (by decide : isName "on" = true)

theorem recognizes_fragment
    (hset : Recognizes n anything set (SelectionSet.map untag) SelectionSet.language anything)
    (hn : n ≤ limit) :
    Recognizes n starts (fragment set limit) (Selection.map untag)
      ((Language.symbol (.bare .spread)).seq fun _ => fragmentRest) afterDirectives := by
  refine .here_bind fun start => .bind_anything (.expect_bare (by decide) rfl) fun _ => ?_
  refine .ite_seesKeyword (.union_left ?_ (fun x _ => (trivial : anything x)) ?_)
    (.union_right ?_ (fun x (hx : afterDirectives x) => hx) ?_)
  · refine .bind_anything (.advance_symbol isProper_on (by decide) ?_) fun _ =>
      .bind_anything recognizes_namedType fun _ =>
        .bind_leads (recognizes_directives hn) (fun _ => .bind_anything hset fun set =>
          .mark_pure start fun _ => ?_) fun _ => ?_
    · exact fun _ hy _ => hy.2
    · simp [Selection.map, InlineFragment.map, untag]
    · exact .of_starts (.seq starts_selectionSet) fun x hx => by simp [afterDirectives, hx]
  · exact .of_starts (.seq starts_spreadName) fun x hne hx => hne hx.2
  · refine .bind_anything (recognizes_spreadName.mono (Nat.le_refl n) fun x hx => hx.2) fun _ =>
      .bind_leads (recognizes_directives hn) (fun _ => .of_anything (.mark_pure start fun _ => rfl))
        fun _ => .ret _ fun _ => id
  · refine .of_starts (.seq (.symbol _)) ?_
    rintro _ rfl hx
    exact hx.2 rfl

theorem recognizes_selection
    (hset : Recognizes n anything set (SelectionSet.map untag) SelectionSet.language anything)
    (hn : n ≤ limit) :
    Recognizes n starts (selection set limit) (Selection.map untag) Selection.language
      afterField := by
  refine Recognizes.congr ?_ selection_language_eq
  refine .ite_sees (.union_left (recognizes_fragment hset hn) ?_ ?_)
    (.union_right (.bind_pure ((recognizes_field hset hn).image Selection.field)) (fun _ => id) ?_)
  · exact fun x hx => ⟨hx.2.2.1, hx.2.1⟩
  · exact .image (.of_starts starts_field fun x hx hspread => by simp [hx] at hspread) _
  · refine .of_starts (.seq (.symbol _)) ?_
    rintro _ rfl hx
    exact hx.2 rfl

theorem selectionSet_language_eq :
    SelectionSet.language =
      (Selection.language.enclosed .braceOpen .braceClose).nonempty.image
        fun selections => ⟨selections, ()⟩ := by
  funext w x
  rw [Selection.language, Language.enclosed_ofTree, eq_iff_iff]
  constructor
  · rintro ⟨hx, rfl⟩
    obtain ⟨selections, tag⟩ := x
    obtain ⟨hne, hselections⟩ := hx
    refine ⟨selections, ⟨⟨(Selection.allWellFormed_iff ..).1 hselections, ?_⟩, hne⟩, rfl⟩
    simp [SelectionSet.terminals]
  · rintro ⟨selections, ⟨⟨hselections, rfl⟩, hne⟩, rfl⟩
    refine ⟨⟨hne, (Selection.allWellFormed_iff ..).2 hselections⟩, ?_⟩
    simp [SelectionSet.terminals]

theorem starts_selection :
    Selection.language.Starts fun x => x.kind = .spread ∨ x.kind = .name := by
  rintro w x ⟨hx, rfl⟩
  cases x with
  | field x =>
    obtain ⟨t, v, heq, ht⟩ := starts_field _ x ⟨hx, rfl⟩
    exact ⟨t, v, heq, .inr ht⟩
  | spread x => exact ⟨_, _, rfl, .inl rfl⟩
  | inline x =>
    obtain ⟨typeCondition, directives, set, tag⟩ := x
    exact ⟨_, _, rfl, .inl rfl⟩

theorem recognizes_selectionSet (hn : n ≤ limit) {depth : Nat} (hdepth : n ≤ depth) :
    Recognizes n starts (selectionSet limit depth) (SelectionSet.map untag)
      SelectionSet.language anything := by
  induction depth generalizing n starts with
  | zero =>
    obtain rfl : n = 0 := by omega
    exact .of_zero
  | succ depth ih =>
    cases n with
    | zero => exact .of_zero
    | succ n =>
      have hle : n ≤ limit := Nat.le_of_succ_le hn
      have hset : Recognizes n anything (selectionSet limit depth) _ _ _ :=
        ih hle (Nat.le_of_succ_le_succ hdepth)
      refine Recognizes.congr ?_ selectionSet_language_eq
      rw [← Language.seq_ret, selectionSet_succ]
      refine .here_bind fun start => .bind_anything
        (.many (recognizes_selection hset hle) hle (starts_selection.mono ?_) ?_
          ⟨by decide, rfl⟩ ⟨by decide, rfl⟩)
        fun selections => .mark_pure start fun _ => ?_
      · rintro x (hx | hx) <;> simp [afterField, hx]
      · simp [afterField]
      · simp [SelectionSet.map, untag]

/-! ## Operations -/

theorem variableDefinition_language_eq :
    VariableDefinition.language =
      Variable.language.seq fun x => (Language.symbol (.bare .colon)).seq fun _ =>
        TypeRef.language.seq fun type => Value.defaultLanguage.seq fun value =>
          .ret ⟨x, type, value, ()⟩ := by
  funext w x
  simp only [VariableDefinition.language, Variable.language, TypeRef.language,
    Value.defaultLanguage, Language.seq_ofTree_iff, Language.seq_symbol_iff, Language.ofTree,
    Language.ret, eq_iff_iff]
  constructor
  · rintro ⟨⟨hvar, htype, hvalue⟩, rfl⟩
    exact ⟨x.var, _, hvar, List.append_assoc .., _, rfl, x.type, _, htype, rfl, x.defaultValue,
      [], hvalue, by simp, rfl, rfl⟩
  · rintro ⟨var, _, hvar, rfl, _, rfl, type, _, htype, rfl, value, _, hvalue, rfl, rfl, rfl⟩
    exact ⟨⟨hvar, htype, hvalue⟩, by simp [VariableDefinition.terminals, Terminal.bare]⟩

theorem recognizes_variableDefinition (hn : n ≤ limit) :
    Recognizes n starts (variableDefinition limit) (VariableDefinition.map untag)
      VariableDefinition.language afterDefault := by
  refine Recognizes.congr ?_ variableDefinition_language_eq
  exact .here_bind fun start => .bind_anything recognizes_var fun var =>
    .bind_anything (.expect_bare (by decide) rfl) fun _ =>
      recognizes_typeAndDefault (fun _ _ _ => rfl) hn

theorem starts_variableDefinition : VariableDefinition.language.Starts (·.kind = .dollar) := by
  rintro w x ⟨-, rfl⟩
  exact ⟨_, _, rfl, rfl⟩

theorem recognizes_variableDefinitions (hn : n ≤ limit) :
    Recognizes n starts (parenthesized (variableDefinition limit) limit)
      (List.map (VariableDefinition.map untag)) VariableDefinition.language.parenthesized
      (·.kind ≠ .parenOpen) := by
  refine .mono (.parenthesized (recognizes_variableDefinition hn) hn ?_ ?_) (Nat.le_succ n)
    fun _ => id
  · exact starts_variableDefinition.mono fun x hx => by simp [afterDefault, hx]
  · simp [afterDefault]

/-- An operation that begins with its keyword. -/
def namedOperation (operation : OperationType) : Language (OperationDefinition Unit) :=
  (Language.symbol (.ofName operation.keyword)).seq fun _ => Name.language.seq fun name =>
    VariableDefinition.language.parenthesized.seq fun xs => Directive.language.star.seq fun ys =>
      SelectionSet.language.seq fun set => .ret ⟨operation, some name, xs, ys, set, ()⟩

theorem operationDefinition_language_keyword (operation : OperationType) :
    OperationDefinition.language.beginning (· = .ofName operation.keyword) =
      namedOperation operation := by
  funext w x
  simp only [OperationDefinition.language, namedOperation, Name.language,
    VariableDefinition.language, Directive.language, SelectionSet.language, parenthesized_ofTree,
    Language.star_ofTree, Language.seq_symbol_iff, Language.seq_ofTree_iff, Language.beginning,
    Language.ofTree, Language.ret, eq_iff_iff]
  constructor
  · rintro ⟨⟨hx, rfl⟩, hfirst⟩
    obtain ⟨operation', _ | name, xs, ys, set, tag⟩ := x
    · obtain ⟨selections, setTag⟩ := set
      simp [OperationDefinition.terminals, SelectionSet.terminals, Lexeme.bare,
        Lexeme.ofName] at hfirst
    · obtain ⟨-, hname, hxs, hys, hset⟩ := hx
      obtain rfl : operation' = operation := by
        cases operation' <;> cases operation <;>
          simp_all [OperationDefinition.terminals, OperationType.keyword]
      refine ⟨name.terminals ++ (parenthesizedTerminals VariableDefinition.terminals xs ++
        (ys.flatMap Directive.terminals ++ set.terminals)), ?_, name, _, hname name rfl, rfl,
        xs, _, hxs, rfl, ys, _, hys, rfl, set, [], hset, (List.append_nil _).symm, rfl, rfl⟩
      simp [OperationDefinition.terminals, Terminal.ofName]
  · rintro ⟨_, rfl, name, _, hname, rfl, xs, _, hxs, rfl, ys, _, hys, rfl, set, _, hset, rfl,
      rfl, rfl⟩
    refine ⟨⟨⟨by simp, ?_, hxs, hys, hset⟩, ?_⟩, ?_⟩
    · intro y hy
      rwa [← Option.some.inj hy]
    · simp [OperationDefinition.terminals, Terminal.ofName]
    · simp

theorem operationDefinition_language_brace :
    OperationDefinition.language.beginning (·.kind = .braceOpen) =
      SelectionSet.language.image fun set => ⟨.query, none, [], [], set, ()⟩ := by
  funext w x
  rw [eq_iff_iff]
  constructor
  · rintro ⟨⟨hx, rfl⟩, hfirst⟩
    obtain ⟨operation, _ | name, xs, ys, set, tag⟩ := x
    · obtain ⟨hbare, -, -, -, hset⟩ := hx
      obtain ⟨rfl, rfl, rfl⟩ := hbare rfl
      exact ⟨set, ⟨hset, rfl⟩, rfl⟩
    · simp [OperationDefinition.terminals] at hfirst
  · rintro ⟨set, ⟨hset, rfl⟩, rfl⟩
    refine ⟨⟨⟨fun _ => ⟨rfl, rfl, rfl⟩, by simp, by simp, by simp, hset⟩, rfl⟩, ?_⟩
    obtain ⟨selections, tag⟩ := set
    simp [SelectionSet.terminals]

/-- An operation begins with a brace or with a keyword. -/
def beginsOperation (x : Lexeme) : Prop :=
  x.kind = .braceOpen ∨ ∃ operation : OperationType, x = .ofName operation.keyword

/-- The test by which a definition is taken for an operation. -/
theorem beginsOperation_of_test {x : Lexeme}
    (h : (x.kind == .braceOpen || x.isKeyword "query" || x.isKeyword "mutation") = true) :
    beginsOperation x := by
  simp only [Bool.or_eq_true, beq_iff_eq, Lexeme.isKeyword_iff] at h
  obtain (hbrace | hquery) | hmutation := h
  · exact .inl hbrace
  · exact .inr ⟨.query, hquery⟩
  · exact .inr ⟨.mutation, hmutation⟩

theorem starts_operationDefinition : OperationDefinition.language.Starts beginsOperation := by
  rintro w x ⟨hx, rfl⟩
  obtain ⟨operation, _ | name, xs, ys, set, tag⟩ := x
  · obtain ⟨t, v, heq, ht⟩ := starts_selectionSet _ set ⟨hx.2.2.2.2, rfl⟩
    exact ⟨t, v, heq, .inl ht⟩
  · exact ⟨_, _, rfl, .inr ⟨operation, rfl⟩⟩

theorem ofKeyword?_keyword (operation : OperationType) :
    OperationType.ofKeyword? operation.keyword = some operation := by
  cases operation <;> rfl

theorem isProper_keyword (operation : OperationType) :
    (Lexeme.ofName operation.keyword).IsProper := by
  cases operation with
  | query => exact (by decide : isName "query" = true)
  | mutation => exact (by decide : isName "mutation" = true)

theorem recognizes_namedOperation {operation : OperationType} {start : UInt32} (hn : n ≤ limit) :
    Recognizes n (· = .ofName operation.keyword)
      (do
        let _ ← advance
        let name ← name
        let variableDefinitions ← parenthesized (variableDefinition limit) limit
        let directives ← directives limit
        let selectionSet ← selectionSet limit limit
        return ⟨operation, some name, variableDefinitions, directives, selectionSet,
          ← mark start⟩)
      (OperationDefinition.map untag) (namedOperation operation) anything := by
  refine .bind_anything (.advance_symbol (isProper_keyword operation) (by simp) fun _ hy _ => hy)
    fun _ => .bind_anything recognizes_name fun name => ?_
  refine .bind_leads (recognizes_variableDefinitions hn) (fun xs => ?_) fun xs => ?_
  · refine .bind_leads (recognizes_directives hn) (fun ys => ?_) fun ys => ?_
    · exact .bind_anything (recognizes_selectionSet hn hn) fun set => .mark_pure start fun _ => rfl
    · exact .of_starts (.seq starts_selectionSet) fun x hx => by simp [afterDirectives, hx]
  · have hset : ∀ ys : List (Directive Unit),
        (SelectionSet.language.seq fun set => .ret
          (⟨operation, some (name.map untag), xs, ys, set, ()⟩ : OperationDefinition Unit)).Leads
          anything (·.kind = .braceOpen) :=
      fun _ => .of_starts (.seq starts_selectionSet) fun _ => id
    refine .seq (leads_directives (fun x hx => ?_) fun x hx => ?_) hset
    · simp [hx]
    · simp [hx]

theorem recognizes_operationDefinition (hn : n ≤ limit) :
    Recognizes n beginsOperation (operationDefinition limit) (OperationDefinition.map untag)
      OperationDefinition.language anything := by
  refine .here_bind fun start => .ite_sees ?_ (.peek_bind fun token htoken => ?_)
  · refine .mono
      (.of_beginning (.congr ?_ operationDefinition_language_brace) starts_operationDefinition)
      (Nat.le_refl n) fun x hx => hx.2
    rw [← Language.seq_ret]
    exact .bind_anything (recognizes_selectionSet hn hn) fun set => .mark_pure start fun _ => rfl
  · obtain ⟨hbrace | ⟨operation, hkeyword⟩, hne⟩ := htoken
    · exact absurd hbrace hne
    · rw [hkeyword, Lexeme.text_ofName, ofKeyword?_keyword]
      refine .of_beginning (.congr ?_ (operationDefinition_language_keyword operation))
        starts_operationDefinition
      exact recognizes_namedOperation hn

/-! ## Documents -/

theorem fragmentDefinition_language_eq :
    FragmentDefinition.language =
      (Language.symbol (.ofName "fragment")).seq fun _ => Name.fragmentLanguage.seq fun name =>
        (Language.symbol (.ofName "on")).seq fun _ => NamedType.language.seq fun x =>
          Directive.language.star.seq fun ys => SelectionSet.language.seq fun set =>
            .ret ⟨name, x, ys, set, ()⟩ := by
  funext w x
  simp only [FragmentDefinition.language, Name.fragmentLanguage, NamedType.language,
    Directive.language, SelectionSet.language, Language.star_ofTree, Language.seq_symbol_iff,
    Language.seq_ofTree_iff, Language.ofTree, Language.ret, eq_iff_iff]
  constructor
  · rintro ⟨⟨hname, -, htype, hys, hset⟩, rfl⟩
    refine ⟨x.name.fragmentTerminals ++ (.ofName "on" :: (x.typeCondition.terminals ++
      (x.directives.flatMap Directive.terminals ++ x.selectionSet.terminals))), ?_, x.name, _,
      hname, rfl, _, rfl, x.typeCondition, _, htype, rfl, x.directives, _, hys, rfl,
      x.selectionSet, [], hset, (List.append_nil _).symm, rfl, rfl⟩
    simp [FragmentDefinition.terminals, Terminal.ofName]
  · rintro ⟨_, rfl, name, _, hname, rfl, _, rfl, x, _, hx, rfl, ys, _, hys, rfl, set, _, hset, rfl,
      rfl, rfl⟩
    exact ⟨⟨hname, by simp, hx, hys, hset⟩, by simp [FragmentDefinition.terminals, Terminal.ofName]⟩

theorem starts_fragmentDefinition :
    FragmentDefinition.language.Starts (· = .ofName "fragment") := by
  rintro w x ⟨-, rfl⟩
  exact ⟨_, _, rfl, rfl⟩

theorem recognizes_fragmentDefinition (hn : n ≤ limit) :
    Recognizes n starts (fragmentDefinition limit) (FragmentDefinition.map untag)
      FragmentDefinition.language anything := by
  refine Recognizes.congr ?_ fragmentDefinition_language_eq
  refine .here_bind fun start => .bind_anything (.expectKeyword (by decide)) fun _ =>
    .bind_anything recognizes_fragmentName fun name => .bind_anything (.expectKeyword (by decide))
      fun _ => .bind_anything recognizes_namedType fun x => ?_
  refine .bind_leads (recognizes_directives hn) (fun ys => ?_) fun ys => ?_
  · exact .bind_anything (recognizes_selectionSet hn hn) fun set => .mark_pure start fun _ => rfl
  · exact .of_starts (.seq starts_selectionSet) fun x hx => by simp [afterDirectives, hx]

theorem definition_language_eq :
    Definition.language =
      (OperationDefinition.language.image .operation).union
        (FragmentDefinition.language.image .fragment) := by
  funext w x
  rw [eq_iff_iff]
  constructor
  · rintro ⟨hx, rfl⟩
    cases x with
    | operation x => exact .inl ⟨x, ⟨hx, rfl⟩, rfl⟩
    | fragment x => exact .inr ⟨x, ⟨hx, rfl⟩, rfl⟩
  · rintro (⟨x, ⟨hx, rfl⟩, rfl⟩ | ⟨x, ⟨hx, rfl⟩, rfl⟩) <;> exact ⟨hx, rfl⟩

theorem starts_definition :
    Definition.language.Starts fun x => beginsOperation x ∨ x = .ofName "fragment" := by
  rintro w x ⟨hx, rfl⟩
  cases x with
  | operation x =>
    obtain ⟨t, v, heq, ht⟩ := starts_operationDefinition _ x ⟨hx, rfl⟩
    exact ⟨t, v, heq, .inl ht⟩
  | fragment x => exact ⟨_, _, rfl, .inr rfl⟩

theorem not_eof_of_beginsDefinition {x : Lexeme}
    (h : beginsOperation x ∨ x = .ofName "fragment") : x.kind ≠ .eof := by
  obtain (hbrace | ⟨operation, rfl⟩) | rfl := h
  · simp [hbrace]
  · simp
  · simp

theorem recognizes_definition (hn : n ≤ limit) :
    Recognizes n starts (definition limit) (Definition.map untag) Definition.language
      anything := by
  refine Recognizes.congr ?_ definition_language_eq
  refine .sees_bind fun brace => .seesKeyword_bind fun query => .seesKeyword_bind fun mutation =>
    .ite (fun hany => ?_) fun hnone => .ite_seesKeyword ?_ ?_
  · have hstarts : ∀ x : Lexeme, (((starts x ∧ (x.kind == .braceOpen) = brace) ∧
        x.isKeyword "query" = query) ∧ x.isKeyword "mutation" = mutation) →
        beginsOperation x := by
      rintro x ⟨⟨⟨-, rfl⟩, rfl⟩, rfl⟩
      exact beginsOperation_of_test hany
    refine .mono (.bind_pure (.union_left ?_ (fun _ _ => trivial) ?_)) (Nat.le_refl n) hstarts
    · exact (recognizes_operationDefinition hn).image Definition.operation
    · refine .image (.of_starts starts_fragmentDefinition ?_) _
      rintro _ rfl (hbrace | ⟨operation, hkeyword⟩)
      · exact absurd hbrace (by decide)
      · cases operation <;> exact absurd hkeyword (by decide)
  · refine .bind_pure (.union_right ((recognizes_fragmentDefinition hn).image
      Definition.fragment) (fun _ => id) ?_)
    refine .image (.of_starts starts_operationDefinition ?_) _
    rintro _ (hbrace | ⟨operation, hkeyword⟩) ⟨-, rfl⟩
    · exact absurd hbrace (by decide)
    · cases operation <;> exact absurd hkeyword (by decide)
  · refine .unexpected_of_starts (definition_language_eq ▸ starts_definition) ?_
    rintro x (hoperation | hfragment) ⟨⟨⟨⟨-, rfl⟩, rfl⟩, rfl⟩, hne⟩
    · refine Bool.eq_false_iff.1 hnone ?_
      simp only [Bool.or_eq_true, beq_iff_eq, Lexeme.isKeyword_iff]
      obtain hbrace | ⟨_ | _, hkeyword⟩ := hoperation
      · exact .inl (.inl hbrace)
      · exact .inl (.inr hkeyword)
      · exact .inr hkeyword
    · exact hne hfragment

theorem document_language_eq :
    Document.language =
      Definition.language.star.nonempty.image fun definitions => ⟨definitions, ()⟩ := by
  funext w x
  rw [Definition.language, Language.star_ofTree, eq_iff_iff]
  constructor
  · rintro ⟨⟨hne, hdefinitions⟩, rfl⟩
    exact ⟨x.definitions, ⟨⟨hdefinitions, rfl⟩, hne⟩, rfl⟩
  · rintro ⟨definitions, ⟨⟨hdefinitions, rfl⟩, hne⟩, rfl⟩
    exact ⟨⟨hne, hdefinitions⟩, rfl⟩

theorem recognizes_document :
    Recognizes n starts (document n) (Document.map untag) Document.language (·.kind = .eof) := by
  refine Recognizes.congr ?_ document_language_eq
  rw [← Language.seq_ret]
  refine .here_bind fun start => .bind_leads
    (.untilEnd (recognizes_definition (Nat.le_refl n)) (Nat.le_refl n)
      (starts_definition.mono fun x hx => ⟨not_eof_of_beginsDefinition hx, trivial⟩)
      fun _ _ => trivial)
    (fun definitions => .of_anything (.mark_pure start fun _ => rfl))
    fun definitions => .ret _ fun _ => id

end GraphQLSyntax.Parser
