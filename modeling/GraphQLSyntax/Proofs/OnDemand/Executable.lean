import GraphQLSyntax.Proofs.OnDemand.Value
import GraphQLSyntax.Proofs.Recognition.Executable

/-!
# Executable documents, with tokens read when they are needed

The productions of operations, fragments and selections, one after the other.
-/

namespace GraphQLSyntax.OnDemand

variable {source : Source} {b limit limit' : Nat}

theorem tracks_fragmentName : Tracks source b 1 Parser.fragmentName Parser.fragmentName :=
  .ite_of_test (.seesKeyword "on") (.fail _) tracks_name

/-! ## Selections -/

theorem tracks_fieldNames : Tracks source b 1 Parser.fieldNames Parser.fieldNames :=
  .first tracks_name fun _ =>
    .ite_of_test (.skip (by decide)) (.andThen tracks_name fun _ => .pure _) (.pure _)

variable {set : Parser (SelectionSet Tag)} {set' : OnDemand (SelectionSet Tag)}

theorem tracks_selectionSetOption (hset : Tracks source b 1 set set') :
    Tracks source b 0 (Parser.selectionSetOption set) (Parser.selectionSetOption set') :=
  .ite_of_test (.sees .braceOpen) (.andThen hset fun _ => .pure _) (.pure _)

theorem tracks_field (hset : Tracks source b 1 set set') (hb : b ≤ limit) (hb' : b ≤ limit') :
    Tracks source b 1 (Parser.field set limit) (Parser.field set' limit') := by
  exact .andThen .here fun start => .first tracks_fieldNames fun _ =>
    .andThen (tracks_arguments hb hb') fun _ => .andThen (tracks_directives hb hb') fun _ =>
      .andThen (tracks_selectionSetOption hset) fun _ => .mark_pure start

theorem tracks_fragment (hset : Tracks source b 1 set set') (hb : b ≤ limit) (hb' : b ≤ limit') :
    Tracks source b 1 (Parser.fragment set limit) (Parser.fragment set' limit') := by
  refine .andThen .here fun start => .first (.expect (by decide)) fun _ =>
    .ite_seesKeyword_advance (j := 0) "on" (fun _ => ?_) ?_ (Nat.zero_le 1)
  · exact .andThen tracks_namedType fun _ => .andThen (tracks_directives hb hb').fewer fun _ =>
      .andThen hset.fewer fun _ => .mark_pure start
  · exact .andThen tracks_fragmentName fun _ => .andThen (tracks_directives hb hb') fun _ =>
      .mark_pure start

theorem tracks_selection (hset : Tracks source b 1 set set') (hb : b ≤ limit)
    (hb' : b ≤ limit') :
    Tracks source b 1 (Parser.selection set limit) (Parser.selection set' limit') :=
  .ite_of_test (.sees .spread) (tracks_fragment hset hb hb')
    (.first (tracks_field hset hb hb') fun _ => .pure _)

theorem tracks_selectionSet {depth depth' : Nat} (hb : b ≤ limit) (hb' : b ≤ limit')
    (hdepth : b ≤ depth) (hdepth' : b ≤ depth') :
    Tracks source b 1 (Parser.selectionSet limit depth) (Parser.selectionSet limit' depth') := by
  refine .limited (p := Parser.selectionSet limit) (q := Parser.selectionSet limit') hdepth hdepth'
    fun c hc depth depth' _ _ ih => ?_
  refine .bind_enter fun frame d hd hframe => .andThen .here fun start => ?_
  have hd : d ≤ c := Nat.le_of_lt_succ hd
  have hset := Tracks.nested hframe (ih.mono hd (Nat.le_refl 1))
  have hlimit : d ≤ limit := by omega
  have hlimit' : d ≤ limit' := by omega
  exact .first (.many (by decide) (by decide) (tracks_selection hset hlimit hlimit') hlimit hlimit')
    fun _ => .mark_pure start

/-! ## Definitions -/

theorem tracks_variableDefinition (hb : b ≤ limit) (hb' : b ≤ limit') :
    Tracks source b 1 (Parser.variableDefinition limit) (Parser.variableDefinition limit') :=
  .andThen .here fun start => .first tracks_var fun _ =>
    .andThen (.expect (by decide : TokenKind.colon ≠ .eof)) fun _ =>
      .andThen (tracks_typeRef hb hb') fun _ => .andThen (tracks_defaultValue hb hb') fun _ =>
        .mark_pure start

theorem tracks_operationDefinition (hb : b ≤ limit) (hb' : b ≤ limit') :
    Tracks source b 1 (Parser.operationDefinition limit) (Parser.operationDefinition limit') := by
  have hset : Tracks source b 1 (Parser.selectionSet limit limit)
      (Parser.selectionSet limit' limit') :=
    tracks_selectionSet hb hb' hb hb'
  refine .andThen .here fun start => .ite_of_test (.sees .braceOpen) ?_ (.bind_peek ?_)
  · exact .first hset fun _ => .mark_pure start
  · intro s r hmatches hlt
    cases hoperation : OperationType.ofKeyword? s.ahead.lexeme.text with
    | none => exact Tracks.unexpected s r hmatches hlt
    | some operation =>
      have hkind : s.ahead.kind ≠ .eof := by
        intro heof
        have hnone : OperationType.ofKeyword? source.endToken.lexeme.text = none := by
          simp only [Source.endToken]
          decide
        rw [(hmatches.eq_of_eof heof).1, hnone] at hoperation
        cases hoperation
      refine (hmatches.advance hkind).bind (k := 0) (fun _ => ?_) (Nat.lt_succ_of_lt hlt)
      exact .andThen tracks_name fun _ =>
        .andThen (.parenthesized (tracks_variableDefinition hb hb') hb hb') fun _ =>
          .andThen (tracks_directives hb hb') fun _ => .andThen hset fun _ => .mark_pure start

theorem tracks_fragmentDefinition (hb : b ≤ limit) (hb' : b ≤ limit') :
    Tracks source b 1 (Parser.fragmentDefinition limit) (Parser.fragmentDefinition limit') :=
  .andThen .here fun start => .first (.expectKeyword "fragment") fun _ =>
    .andThen tracks_fragmentName fun _ => .andThen (.expectKeyword "on") fun _ =>
      .andThen tracks_namedType fun _ => .andThen (tracks_directives hb hb') fun _ =>
        .andThen (tracks_selectionSet hb hb' hb hb') fun _ => .mark_pure start

theorem tracks_definition (hb : b ≤ limit) (hb' : b ≤ limit') :
    Tracks source b 1 (Parser.definition limit) (Parser.definition limit') := by
  refine .andThen (.sees .braceOpen) fun _ => .andThen (.seesKeyword "query") fun _ =>
    .andThen (.seesKeyword "mutation") fun _ =>
      .ite ?_ (.ite_of_test (.seesKeyword "fragment") ?_ ?_)
  · exact .first (tracks_operationDefinition hb hb') fun _ => .pure _
  · exact .first (tracks_fragmentDefinition hb hb') fun _ => .pure _
  · exact .unexpected

end GraphQLSyntax.OnDemand
