import GraphQLSyntax.Proofs.Location.Parser
import GraphQLSyntax.Proofs.Recognition.Value

/-!
# Where types, values and directives lie

One production after the other: what it returns lies over the tokens that it consumes, the
node itself being tagged with the first and the last of them.
-/

namespace GraphQLSyntax.Parser

open Piece

variable {starts : Lexeme → Prop} {limit : Nat}

theorem laysOut_name : LaysOut starts name fun x => [part x] :=
  .here_bind fun _ => .part_bind .expect_name fun _ =>
    .mark_part nofun fun _ => ⟨rfl, rfl, trivial⟩

theorem laysOut_namedType : LaysOut starts namedType fun x => [part x] :=
  .here_bind fun _ => .part_bind laysOut_name fun _ =>
    .mark_part nofun fun _ => ⟨rfl, rfl, trivial⟩

theorem laysOut_var : LaysOut starts var fun x => [part x] :=
  .here_bind fun _ => .part_bind (.expect_bare (by decide) rfl) fun _ =>
    .part_bind laysOut_name fun _ => .mark_part nofun fun _ => ⟨rfl, rfl, trivial⟩

/-! ## Types -/

/-- Both a list type and the non-null type around it start where the bracket does. -/
theorem extends_nullableTypeRef {item : Parser (TypeRef Tag)} {start : UInt32}
    (hitem : LaysOut anything item fun x => [part x]) :
    Extends start starts [] (nullableTypeRef item start) fun x => [part x] := by
  refine .ite_skip (by decide) rfl ?_ (.part_bind laysOut_namedType fun _ => .pure rfl)
  exact .part_bind hitem fun _ => .part_bind (.expect_bare (by decide) rfl) fun _ =>
    .mark_part nofun fun _ => ⟨rfl, rfl, trivial⟩

theorem laysOut_typeRef : LaysOut starts (typeRef limit) fun x => [part x] := by
  induction limit generalizing starts with
  | zero => exact .of_extends fun _ => .unexpected
  | succ limit ih =>
    rw [typeRef_succ]
    refine .here_bind fun start => .bind (extends_nullableTypeRef ih) fun x => ?_
    refine .ite_skip (by decide) rfl (.mark_part nofun fun _ => ⟨rfl, rfl, trivial⟩) (.pure ?_)
    cases x <;> rfl

/-! ## Values -/

/-- A literal is a node of whatever kind its token is of. -/
theorem laysOut_literal {kind : TokenKind} {f : Literal Tag → Node Tag}
    (hvalue : kind.hasValue = true)
    (hf : ∀ text m, IsMarked [.lexeme ⟨kind, some text⟩] (f ⟨text, m⟩) m) :
    LaysOut (·.kind = kind) literal fun x => [.child (f x)] := by
  refine .here_bind fun start => .part_bind
    (.advance (f := fun t => ⟨kind, some t.lexeme.text⟩) ?_ ?_) fun t =>
      .mark_node nofun (fun _ => rfl) (hf t.lexeme.text)
  · rintro x rfl heof
    rw [heof] at hvalue
    cases hvalue
  · rintro t rfl hproper
    rw [← hproper.value_eq hvalue]

theorem isMarked_valueOfName (text : String) (m : Tag) :
    IsMarked [.lexeme ⟨.name, some text⟩] (Part.toNode (valueOfName text m)) m := by
  by_cases htrue : text = "true"
  · subst htrue
    exact ⟨rfl, rfl, trivial⟩
  by_cases hfalse : text = "false"
  · subst hfalse
    exact ⟨rfl, rfl, trivial⟩
  rw [valueOfName, if_neg htrue, if_neg hfalse]
  exact ⟨rfl, rfl, trivial⟩

theorem laysOut_namedValue : LaysOut (·.kind = .name) namedValue fun x => [part x] := by
  rw [namedValue_eq]
  exact (laysOut_literal (f := fun x => Part.toNode (valueOfName x.text x.tag)) rfl
    isMarked_valueOfName).bind_pure fun _ => rfl

variable {value : Parser (Value Tag)}

theorem laysOut_objectField (hvalue : LaysOut anything value fun x => [part x])
    (taken : List String) : LaysOut starts (objectField value taken) fun x => [part x] := by
  refine .here_bind fun start => .peek_bind fun token _ => .ite (fun _ => ?_) fun _ => ?_
  · rw [fail_bind]
    exact .fail
  exact .part_bind laysOut_name fun _ => .part_bind (.expect_bare (by decide) rfl) fun _ =>
    .part_bind hvalue fun _ => .mark_part nofun fun _ => ⟨rfl, rfl, trivial⟩

theorem laysOut_objectFields (hvalue : LaysOut anything value fun x => [part x])
    (taken : List String) :
    LaysOut starts (objectFields value taken limit) fun xs =>
      parts xs ++ [.bare .braceClose] := by
  induction limit generalizing starts taken with
  | zero => exact .of_extends fun _ => .unexpected
  | succ limit ih =>
    exact .of_extends fun _ => .ite_skip (by decide) rfl (.pure rfl)
      (.part_bind (laysOut_objectField hvalue taken) fun x =>
        .part_bind (ih (x.name.value :: taken)) fun _ => .pure rfl)

theorem laysOut_value (const : Bool) :
    LaysOut starts (Parser.value const limit) fun x => [part x] := by
  induction limit generalizing starts with
  | zero => exact .of_extends fun _ => .unexpected
  | succ limit ih =>
    rw [value_succ]
    refine .here_bind fun start => .peek_bind fun token _ => ?_
    refine .mono ?_ fun x (hx : x = token.lexeme) => congrArg Lexeme.kind hx
    show Extends start (·.kind = token.kind) _ _ _
    generalize token.kind = kind
    cases kind with
    | bracketOpen =>
      exact .part_bind (.any ih ⟨by decide, rfl⟩ ⟨by decide, rfl⟩) fun _ =>
        .mark_part nofun fun _ => ⟨rfl, rfl, trivial⟩
    | braceOpen =>
      exact .part_bind (.expect_bare (by decide) rfl) fun _ =>
        .part_bind (laysOut_objectFields ih []) fun _ =>
          .mark_part nofun fun _ => ⟨rfl, rfl, trivial⟩
    | int =>
      exact .part_bind (laysOut_literal (f := .intValue) rfl fun _ _ => ⟨rfl, rfl, trivial⟩)
        fun _ => .pure rfl
    | float =>
      exact .part_bind (laysOut_literal (f := .floatValue) rfl fun _ _ => ⟨rfl, rfl, trivial⟩)
        fun _ => .pure rfl
    | string =>
      exact .part_bind (laysOut_literal (f := .stringValue) rfl fun _ _ => ⟨rfl, rfl, trivial⟩)
        fun _ => .pure rfl
    | name => exact laysOut_namedValue.toExtends
    | dollar =>
      cases const with
      | true => exact .unexpected
      | false => exact .part_bind laysOut_var fun _ => .pure rfl
    | _ => exact .unexpected

/-! ## Default values, arguments and directives -/

theorem laysOut_defaultValue : LaysOut starts (defaultValue limit) (Piece.optional .equals) :=
  .of_extends fun _ => .ite_skip (by decide) rfl
    (.part_bind (laysOut_value true) fun _ => .pure rfl) (.pure rfl)

theorem laysOut_argument : LaysOut starts (argument limit) fun x => [part x] :=
  .here_bind fun _ => .part_bind laysOut_name fun _ =>
    .part_bind (.expect_bare (by decide) rfl) fun _ => .part_bind (laysOut_value false) fun _ =>
      .mark_part nofun fun _ => ⟨rfl, rfl, trivial⟩

theorem laysOut_arguments : LaysOut starts (arguments limit) Piece.parenthesized :=
  .parenthesized laysOut_argument

theorem laysOut_directive : LaysOut starts (directive limit) fun x => [part x] :=
  .here_bind fun _ => .part_bind (.expect_bare (by decide) rfl) fun _ =>
    .part_bind laysOut_name fun _ => .part_bind laysOut_arguments fun _ =>
      .mark_part nofun fun _ => ⟨rfl, rfl, trivial⟩

theorem laysOut_directives : LaysOut starts (directives limit) parts :=
  .whileSees laysOut_directive

end GraphQLSyntax.Parser
