import GraphQLSyntax.Proofs.OnDemand.Progress
import GraphQLSyntax.Proofs.Recognition.Value

/-!
# Types, values and directives, with tokens read when they are needed

One production after the other: each one but the optional ones consumes a token.
-/

namespace GraphQLSyntax.OnDemand

variable {source : Source} {b limit limit' : Nat}

theorem tracks_name : Tracks source b 1 Parser.name Parser.name :=
  .andThen .here fun start => .first (.expect (by decide)) fun _ => .mark_pure start

theorem tracks_namedType : Tracks source b 1 Parser.namedType Parser.namedType :=
  .andThen .here fun start => .first tracks_name fun _ => .mark_pure start

theorem tracks_var : Tracks source b 1 Parser.var Parser.var :=
  .andThen .here fun start => .first (.expect (by decide)) fun _ => .andThen tracks_name fun _ =>
    .mark_pure start

/-! ## Types -/

/-- The type within a list type has a token less to read. -/
theorem tracks_nullableTypeRef {item : Parser (TypeRef Tag)} {item' : OnDemand (TypeRef Tag)}
    (hitem : Tracks source (b - 1) 1 item item') (start : UInt32) :
    Tracks source b 1 (Parser.nullableTypeRef item start) (Parser.nullableTypeRef item' start) := by
  refine .ite_skip (by decide) (.andThen hitem fun _ => ?_) (.first tracks_namedType fun _ => ?_)
    (Nat.le_refl 1)
  · exact .andThen (.expect (by decide : TokenKind.bracketClose ≠ .eof)) fun _ => .mark_pure start
  · exact .pure _

theorem tracks_typeRef (hb : b ≤ limit) (hb' : b ≤ limit') :
    Tracks source b 1 (Parser.typeRef limit) (Parser.typeRef limit') := by
  refine .limited (p := Parser.typeRef) (q := Parser.typeRef) hb hb'
    fun c _ limit limit' _ _ ih => ?_
  refine .bind_enter fun frame d hd hframe => .andThen .here fun start => ?_
  have hitem := ih.mono (Nat.le_of_lt_succ hd) (Nat.le_refl 1)
  refine .first (tracks_nullableTypeRef (.nested hframe hitem) start) fun nullable => ?_
  exact .ite_of_test (.skip (by decide)) (.mark_pure start) (.pure _)

/-! ## Values -/

/-- A token that is not the end may be taken as a literal. -/
theorem tracks_literal {s : ParserState} {r : State} (h : Matches source s r)
    (hkind : s.ahead.kind ≠ .eof) :
    Outcome source 1 s ((Parser.literal : Parser _) s) ((Parser.literal : OnDemand _) r) := by
  have hahead : r.ahead.start = s.ahead.start := by rw [h.ahead_eq]
  have hliteral : (Parser.literal : OnDemand (Literal Tag)) r =
      (advance >>= fun token => do
        return ⟨token.lexeme.text, ← ParserCore.mark s.ahead.start⟩) r := by
    rw [← hahead]
    rfl
  rw [hliteral]
  exact (h.advance hkind).bind (b := s.upcoming.length) (fun _ => .mark_pure _)
    (Nat.lt_succ_self _)

theorem tracks_bind_literal {β : Type} {f : Literal Tag → Parser β}
    {g : Literal Tag → OnDemand β} {s : ParserState} {r : State} (h : Matches source s r)
    (hkind : s.ahead.kind ≠ .eof)
    (hf : ∀ x, Tracks source s.upcoming.length 0 (f x) (g x)) :
    Outcome source 1 s ((Parser.literal >>= f) s) ((Parser.literal >>= g) r) :=
  (tracks_literal h hkind).bind hf (Nat.lt_succ_self _)

variable {value : Parser (Value Tag)} {value' : OnDemand (Value Tag)}

theorem tracks_objectField (hvalue : Tracks source b 1 value value') (taken : List String) :
    Tracks source b 1 (Parser.objectField value taken) (Parser.objectField value' taken) := by
  refine .andThen .here fun start => .andThen .peek fun token => .ite ?_ ?_
  · rw [Parser.fail_bind]
    exact .fail _
  · exact .first tracks_name fun name => .andThen (.expect (by decide : TokenKind.colon ≠ .eof))
      fun _ => .andThen hvalue fun _ => .mark_pure start

theorem tracks_objectFields (hvalue : Tracks source b 1 value value') (taken : List String)
    (hb : b ≤ limit) (hb' : b ≤ limit') :
    Tracks source b 1 (Parser.objectFields value taken limit)
      (Parser.objectFields value' taken limit') := by
  induction b generalizing limit limit' taken with
  | zero => exact .zero
  | succ c ih =>
    obtain ⟨limit, rfl⟩ := Nat.exists_eq_add_of_lt hb
    obtain ⟨limit', rfl⟩ := Nat.exists_eq_add_of_lt hb'
    refine .ite_skip (by decide) (.pure []) ?_ (Nat.le_refl 1)
    refine .thenFewer (tracks_objectField hvalue taken).round fun x => ?_
    have hrest := ih hvalue.fewer (x.name.value :: taken) (Nat.le_add_right c limit)
      (Nat.le_add_right c limit')
    exact .andThen hrest.forget fun xs => .pure (x :: xs)

theorem tracks_value (const : Bool) (hb : b ≤ limit) (hb' : b ≤ limit') :
    Tracks source b 1 (Parser.value const limit) (Parser.value const limit') := by
  refine .limited (p := Parser.value const) (q := Parser.value const) hb hb'
    fun c _ limit limit' hlimit hlimit' ih => ?_
  refine .bind_enter fun frame d hd hframe => .andThen .here fun start => .bind_peek ?_
  intro s r hmatches hlt
  have hd : d ≤ c := Nat.le_of_lt_succ hd
  have hitem := Tracks.nested hframe (ih.mono hd (Nat.le_refl 1))
  have hlimit := Nat.le_trans hd hlimit
  have hlimit' := Nat.le_trans hd hlimit'
  cases hkind : s.ahead.kind with
  | bracketOpen =>
    have hvalues : Tracks source (d + 1) 1
        (Parser.any .bracketOpen (Parser.value const limit) .bracketClose limit)
        (Parser.any .bracketOpen (ParserCore.nested frame (Parser.value const limit')) .bracketClose
          limit') :=
      .any (by decide) (by decide) hitem hlimit hlimit'
    exact (hvalues.first fun _ => .mark_pure start) s r hmatches hlt
  | braceOpen =>
    have hbrace : Tracks source (d + 1) 1 (Parser.expect .braceOpen) (Parser.expect .braceOpen) :=
      .expect (by decide)
    have hfields := tracks_objectFields hitem [] hlimit hlimit'
    exact (hbrace.thenFewer fun _ => .andThen hfields fun _ => .mark_pure start) s r hmatches hlt
  | int => exact tracks_bind_literal hmatches (by rw [hkind]; decide) fun _ => .pure _
  | float => exact tracks_bind_literal hmatches (by rw [hkind]; decide) fun _ => .pure _
  | string => exact tracks_bind_literal hmatches (by rw [hkind]; decide) fun _ => .pure _
  | name =>
    exact tracks_bind_literal hmatches (by rw [hkind]; decide) fun _ =>
      .ite (.pure _) (.ite (.pure _) (.pure _))
  | dollar => exact (Tracks.ite .unexpected (.first tracks_var fun _ => .pure _)) s r hmatches hlt
  | _ => exact Tracks.unexpected s r hmatches hlt

/-! ## Default values, arguments and directives -/

theorem tracks_defaultValue (hb : b ≤ limit) (hb' : b ≤ limit') :
    Tracks source b 0 (Parser.defaultValue limit) (Parser.defaultValue limit') :=
  .ite_of_test (.skip (by decide)) (.andThen (tracks_value true hb hb') fun _ => .pure _)
    (.pure _)

theorem tracks_argument (hb : b ≤ limit) (hb' : b ≤ limit') :
    Tracks source b 1 (Parser.argument limit) (Parser.argument limit') :=
  .andThen .here fun start => .first tracks_name fun _ =>
    .andThen (.expect (by decide : TokenKind.colon ≠ .eof)) fun _ =>
      .andThen (tracks_value false hb hb') fun _ => .mark_pure start

theorem tracks_arguments (hb : b ≤ limit) (hb' : b ≤ limit') :
    Tracks source b 0 (Parser.arguments limit) (Parser.arguments limit') :=
  .parenthesized (tracks_argument hb hb') hb hb'

theorem tracks_directive (hb : b ≤ limit) (hb' : b ≤ limit') :
    Tracks source b 1 (Parser.directive limit) (Parser.directive limit') :=
  .andThen .here fun start => .first (.expect (by decide)) fun _ => .andThen tracks_name fun _ =>
    .andThen (tracks_arguments hb hb') fun _ => .mark_pure start

theorem tracks_directives (hb : b ≤ limit) (hb' : b ≤ limit') :
    Tracks source b 0 (Parser.directives limit) (Parser.directives limit') :=
  .whileSees (tracks_directive hb hb') hb hb'

end GraphQLSyntax.OnDemand
