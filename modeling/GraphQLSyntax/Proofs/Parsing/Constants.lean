import GraphQLSyntax.Proofs.Parsing.Restriction
import GraphQLSyntax.Proofs.Parsing.Unending
import GraphQLSyntax.Proofs.Recognition.Value
import GraphQLSyntax.Proofs.Traversal.Stopping
import GraphQLSyntax.Proofs.Tree.Grammatical

/-!
# Constants

Where a constant has to stand, values are parsed as they are elsewhere, but that a variable is
refused.  The flag that tells the parser so is handed down through lists and objects; the main
result says that it is never lost on the way.  The two parsers return the same constants with
the same left to be read, and where the parser of constants stops, the other one stops with the
same fault, or it was stopped by the first dollar sign with which a value begins.

Whether a value is constant is found out on the tree as well, and by every walk through it.
-/

namespace GraphQLSyntax

variable {α : Type}

/-! ## Where values begin -/

/-- The kinds of the tokens that a value is written with. -/
def Value.kinds (x : Value α) : List TokenKind :=
  x.terminals.map fun t => t.lexeme.kind

/-- The kinds of the tokens that a field of an object is written with. -/
def ObjectField.kinds (x : ObjectField α) : List TokenKind :=
  .name :: .colon :: x.value.kinds

theorem Value.kinds_list (values : List (Value α)) (tag : α) :
    (Value.list ⟨values, tag⟩).kinds =
      .bracketOpen :: values.flatMap Value.kinds ++ [.bracketClose] := by
  simp [kinds, Value.terminals, ListValue.terminals, Terminal.bare, List.map_flatMap]
  rfl

/-- Which names were used before makes no difference to the kinds of the tokens. -/
theorem ObjectField.map_kind_terminalsAll (taken : List String) (xs : List (ObjectField α)) :
    (ObjectField.terminalsAll taken xs).map (fun t => t.lexeme.kind) =
      xs.flatMap ObjectField.kinds := by
  induction xs generalizing taken with
  | nil => rfl
  | cons x xs ih =>
    obtain ⟨name, value, tag⟩ := x
    rw [ObjectField.terminalsAll, List.map_append, ih, List.flatMap_cons]
    rfl

theorem Value.kinds_object (fields : List (ObjectField α)) (tag : α) :
    (Value.object ⟨fields, tag⟩).kinds =
      .braceOpen :: fields.flatMap ObjectField.kinds ++ [.braceClose] := by
  rw [← ObjectField.map_kind_terminalsAll []]
  simp [kinds, Value.terminals, ObjectValue.terminals, Terminal.bare]

/-- Behind tokens of these kinds, which are the beginning of a value, a value begins: the whole
one, an item of a list or the value of a field of an object. -/
inductive ValueBegins : List TokenKind → Prop
  | whole : ValueBegins []
  | item (values : List (Value Tag)) {ks : List TokenKind} (h : ValueBegins ks) :
      ValueBegins (.bracketOpen :: values.flatMap Value.kinds ++ ks)
  | field (fields : List (ObjectField Tag)) {ks : List TokenKind} (h : ValueBegins ks) :
      ValueBegins (.braceOpen :: fields.flatMap ObjectField.kinds ++ .name :: .colon :: ks)

namespace Parser

variable {starts : TokenKind → Prop} {limit : Nat}

/-- What is known of values. -/
def valueLayout : Layout (Value Tag) where
  isConst x := x.isConst = true
  kinds := Value.kinds
  valueBegins := ValueBegins

/-- What is known of fields of objects. -/
def fieldLayout : Layout (ObjectField Tag) where
  isConst x := x.isConst = true
  kinds := ObjectField.kinds
  valueBegins ks := ∃ ks', ks = .name :: .colon :: ks' ∧ ValueBegins ks'

/-! ## The two parsers -/

theorem takes_name : Takes starts [.name] name :=
  .here_bind fun start => .bind (.expect (by decide)) fun _ => .mark_pure _ start

theorem takes_literal {kind : TokenKind} (hkind : kind ≠ .dollar) :
    Takes (· = kind) [kind] literal :=
  .here_bind fun start => .bind (.advance hkind) fun _ => .mark_pure _ start

theorem isConst_valueOfName (text : String) (tag : α) :
    (valueOfName text tag).isConst = true := by
  simp only [valueOfName]
  split
  · rfl
  · split <;> rfl

theorem kinds_valueOfName (text : String) (tag : α) : (valueOfName text tag).kinds = [.name] := by
  simp only [valueOfName]
  split
  · rfl
  · split <;> rfl

variable {p q : Parser (Value Tag)}

theorem agree_objectField (hvalue : Agree anyKind valueLayout p q) (taken : List String) :
    Agree anyKind fieldLayout (objectField p taken) (objectField q taken) := by
  refine .of_agreeFrom (.here_bind fun start => .peek_bind fun token _ => .ite ?_ ?_)
  · rw [fail_bind, fail_bind]
    exact .fail _
  · refine .takes_bind takes_name (by decide) fun name => .expect_bind (by decide) fun _ =>
      .part_bind hvalue (fun ks hks => ⟨ks, rfl, hks⟩) ?_ fun value hconst => ?_
    · rintro value s _ s' ⟨⟩ hconst
      exact hconst
    · exact .mark_pure start (fun _ => hconst) fun _ => rfl

theorem agree_objectFields (hvalue : Agree anyKind valueLayout p q) (taken : List String) :
    Agree anyKind (fieldLayout.closed .braceClose) (objectFields p taken limit)
      (objectFields q taken limit) := by
  induction limit generalizing taken with
  | zero => exact .of_agreeFrom .unexpected
  | succ limit ih => exact (agree_objectField hvalue taken).item_or_close (by decide) fun _ => ih _

/-- A value that is one token. -/
theorem agree_literal {kind : TokenKind} (hkind : kind ≠ .dollar) {g : Literal Tag → Value Tag}
    (hconst : ∀ x, (g x).isConst = true) (hkinds : ∀ x, (g x).kinds = [kind]) :
    Agree (· = kind) valueLayout (do return g (← literal)) (do return g (← literal)) :=
  .of_agreeFrom (.takes_bind (takes_literal hkind) (by simpa using hkind.symm) fun x =>
    .pure (hconst x) (hkinds x))

theorem agree_namedValue : Agree (· = .name) valueLayout namedValue namedValue := by
  rw [namedValue_eq]
  refine agree_literal (g := fun x => valueOfName x.text x.tag) (by decide) (fun x => ?_)
    fun x => ?_
  · exact isConst_valueOfName x.text x.tag
  · exact kinds_valueOfName x.text x.tag

theorem agree_listValue (start : UInt32) (hvalue : Agree anyKind valueLayout p q) :
    Agree starts valueLayout
      (do
        let values ← any .bracketOpen p .bracketClose limit
        return .list ⟨values, ← mark start⟩)
      (do
        let values ← any .bracketOpen q .bracketClose limit
        return .list ⟨values, ← mark start⟩) := by
  refine .of_agreeFrom (.part_bind (.any (by decide) (by decide) hvalue) ?_ ?_ ?_)
  · rintro _ ⟨_, rfl, values, ks, rfl, hks⟩
    exact .item values hks
  · rintro values s _ s' ⟨⟩ hconst
    exact (Value.allConst_iff values).1 hconst
  · intro values hconst
    refine .mark_pure start (fun _ => (Value.allConst_iff values).2 hconst) fun m => ?_
    exact Value.kinds_list values m

theorem agree_objectValue (start : UInt32) (hvalue : Agree anyKind valueLayout p q) :
    Agree starts valueLayout
      (do
        let _ ← expect .braceOpen
        let fields ← objectFields p [] limit
        return .object ⟨fields, ← mark start⟩)
      (do
        let _ ← expect .braceOpen
        let fields ← objectFields q [] limit
        return .object ⟨fields, ← mark start⟩) := by
  refine .of_agreeFrom (.expect_bind (by decide) fun _ =>
    .part_bind (agree_objectFields hvalue []) ?_ ?_ ?_)
  · rintro _ ⟨fields, _, rfl, ks, rfl, hks⟩
    exact .field fields hks
  · rintro fields s _ s' ⟨⟩ hconst
    exact (ObjectField.allConst_iff fields).1 hconst
  · intro fields hconst
    refine .mark_pure start (fun _ => (ObjectField.allConst_iff fields).2 hconst) fun m => ?_
    exact Value.kinds_object fields m

/-- The dollar sign at which the parser of constants stops is the beginning of a variable to the
other parser. -/
theorem agree_var :
    Agree (· = .dollar) valueLayout unexpected (do return Value.var (← var)) := by
  intro s hkind
  refine .variable ⟨[], s.upcoming, rfl, rfl⟩ hkind List.not_mem_nil .whole ?_
  intro x s' hrun
  obtain ⟨y, s₁, -, hrun⟩ := bind_eq_ok hrun
  cases hrun
  exact Bool.false_ne_true

theorem agree_value :
    Agree anyKind valueLayout (value true limit) (value false limit) := by
  induction limit with
  | zero => exact .of_agreeFrom .unexpected
  | succ limit ih =>
    rw [value_succ, value_succ]
    refine .here_bind fun start => .peek_bind fun token => ?_
    generalize token.kind = kind
    cases kind with
    | bracketOpen => exact agree_listValue start ih
    | braceOpen => exact agree_objectValue start ih
    | int => exact agree_literal (by decide) (fun _ => rfl) fun _ => rfl
    | float => exact agree_literal (by decide) (fun _ => rfl) fun _ => rfl
    | string => exact agree_literal (by decide) (fun _ => rfl) fun _ => rfl
    | name => exact agree_namedValue
    | dollar => exact agree_var
    | _ => exact .of_agreeFrom .unexpected

end Parser

/-! ## Walks through constants -/

/-- No walk enters a variable of a constant, whether it is stopped or not. -/
theorem Walker.kind_ne_of_isConst {σ : Type} {x : Value α} (hconst : x.isConst = true)
    (walker : Walker α σ) (memory : σ) {n : Node α}
    (hn : (.enter, n) ∈ walker.calls (Part.toNode x) memory) : n.kind ≠ .variableReference :=
  (Value.isConst_iff x).1 hconst n
    (Node.enter_mem_visits_iff.1 ((walker.calls_isPrefix _ memory).subset hn))

/-- A walk that comes to its end has entered every variable. -/
theorem Walker.isConst_of_forall_kind_ne {σ : Type} {x : Value α} {walker : Walker α σ}
    {memory memory' : σ} (hwalk : walker.walk (Part.toNode x) memory = .ok ⟨⟩ memory')
    (h : ∀ n, (.enter, n) ∈ walker.calls (Part.toNode x) memory → n.kind ≠ .variableReference) :
    x.isConst = true := by
  rw [calls_eq_visits hwalk] at h
  exact (Value.isConst_iff x).2 fun n hn => h n (Node.enter_mem_visits_iff.2 hn)

/-! ## The main result -/

/-- The fault reports a dollar sign with which a value begins, the first one among all that is
to be read. -/
structure Fault.RefusesVariable (fault : Fault) (s : ParserState) (before : List Token)
    (token : Token) (rest : List Reading) : Prop where
  readings_eq : s.readings = before.map .ok ++ .ok token :: rest
  kind_eq : token.kind = .dollar
  isFirst : ∀ t ∈ before, t.kind ≠ .dollar
  begins : ValueBegins (before.map Token.kind)
  position_eq : fault.position = token.start
  description_eq : fault.cause.description = "Unexpected $"
  category_eq : fault.cause.category = .unexpectedToken

namespace Parser

variable {L : Layout (Value Tag)}

/-- What of being a restriction can be seen in the outcomes. -/
theorem Restricts.iff_of_ok {β : Type} {L : Layout β} {s₀ s : ParserState} {x : β}
    {out out' : EStateM.Result Fault ParserState β} (h : Restricts L s₀ out out') :
    out = .ok x s ↔ out' = .ok x s ∧ L.isConst x := by
  cases h with
  | @ok y s' hconst =>
    refine ⟨?_, And.left⟩
    rintro ⟨⟩
    exact ⟨rfl, hconst⟩
  | fault => simp
  | «variable» _ _ _ _ hout =>
    refine ⟨nofun, ?_⟩
    rintro ⟨hx, hconst⟩
    exact absurd hconst (hout x s hx)

/-- In every state in which what is left to be read is of a source, the parser of constants
returns just what the other one does if that is a constant.  If it stops, the other one stops
with the same fault, or a dollar sign is reported, which is the first one and begins a value.
A value is constant if walks through it enter no variable. -/
theorem constants_agree_with_values {source : Source} {s : ParserState}
    (hs : s.readings ⊆ source.tokens) (limit : Nat) :
    (∀ x s', (value true limit : Parser _) s = .ok x s' ↔
      (value false limit : Parser _) s = .ok x s' ∧ x.isConst = true) ∧
    (∀ fault s', (value true limit : Parser _) s = .error fault s' →
      (value false limit : Parser _) s = .error fault s' ∨
        ∃ before token rest, fault.RefusesVariable s before token rest) ∧
    ∀ (α σ : Type) (x : Value α) (walker : Walker α σ) (memory : σ),
      (x.isConst = true → ∀ n, (.enter, n) ∈ walker.calls (Part.toNode x) memory →
        n.kind ≠ .variableReference) ∧
      ((∃ memory', walker.walk (Part.toNode x) memory = .ok ⟨⟩ memory') →
        (∀ n, (.enter, n) ∈ walker.calls (Part.toNode x) memory →
          n.kind ≠ .variableReference) → x.isConst = true) := by
  have hagree : Restricts valueLayout s ((value true limit : Parser _) s)
      ((value false limit : Parser _) s) := agree_value s trivial
  refine ⟨fun x s' => hagree.iff_of_ok, fun fault s' hrun => ?_,
    fun α σ x walker memory => ⟨?_, ?_⟩⟩
  · rw [hrun] at hagree
    generalize (value false limit : Parser _) s = out at hagree ⊢
    cases hagree with
    | fault => exact .inl rfl
    | @«variable» token _ _ _ hmeets hkind hplain hbegins _ =>
      obtain ⟨before, rest, hreadings, rfl⟩ := hmeets
      have hproper : token.lexeme.IsProper :=
        source.isProper_of_mem_tokens (hs (by simp [hreadings]))
      have hkind' : token.lexeme.kind = .dollar := hkind
      have hdollar : token.lexeme = .bare .dollar := by
        rw [← hkind']
        exact hproper.eq_bare (by rw [hkind']; rfl)
      refine .inr ⟨before, token, rest, hreadings, hkind, ?_, hbegins, rfl, ?_, rfl⟩
      · intro t ht hdollar
        exact hplain (List.mem_map.2 ⟨t, ht, hdollar⟩)
      · rw [hdollar]
        rfl
  · exact fun hconst n => walker.kind_ne_of_isConst hconst memory
  · rintro ⟨memory', hwalk⟩
    exact Walker.isConst_of_forall_kind_ne hwalk

/-- The fault that a parser stops with. -/
def fault? {β : Type} : EStateM.Result Fault ParserState β → Option Fault
  | .ok _ _ => none
  | .error fault _ => some fault

theorem exists_of_fault? {β : Type} {result : EStateM.Result Fault ParserState β} {fault : Fault}
    (h : fault? result = some fault) : ∃ s, result = .error fault s := by
  cases result with
  | ok x s => cases h
  | error fault' s =>
    obtain rfl := Option.some.inj h
    exact ⟨s, rfl⟩

/-- A variable in an object in a list is refused where it stands, and not where the bracket that
is missing is found out. -/
theorem constants_agree_with_values_nested :
    let source : Source := ⟨"[1 \x7ba: $b\x7d", ""⟩
    let s : ParserState :=
      { source, options := {}, ahead := ⟨.bare .bracketOpen, 0, 1⟩, upcoming := source.tokens.tail }
    let fault : Fault := ⟨7, .unexpected (.bare .dollar)⟩
    s.readings ⊆ source.tokens ∧ s.readings = source.tokens ∧
      (∃ s', (value true 8 : Parser _) s = .error fault s') ∧
      (∃ s', (value false 8 : Parser _) s = .error ⟨10, .unexpected (.bare .eof)⟩ s') ∧
      ∃ before token rest, fault.RefusesVariable s before token rest := by
  intro source s fault
  have hs : s.readings = source.tokens := by decide +kernel
  have hsubset : s.readings ⊆ source.tokens := hs ▸ List.Subset.refl _
  have htrue : ∃ s', (value true 8 : Parser _) s = .error fault s' :=
    exists_of_fault? (by decide +kernel)
  have hfalse : ∃ s', (value false 8 : Parser _) s = .error ⟨10, .unexpected (.bare .eof)⟩ s' :=
    exists_of_fault? (by decide +kernel)
  refine ⟨hsubset, hs, htrue, hfalse, ?_⟩
  obtain ⟨s', htrue⟩ := htrue
  obtain ⟨s'', hfalse⟩ := hfalse
  obtain hsame | hvariable := (constants_agree_with_values hsubset 8).2.1 fault s' htrue
  · rw [hfalse] at hsame
    exact absurd (EStateM.Result.error.inj hsame).1 (by decide)
  · exact hvariable

end Parser

end GraphQLSyntax
