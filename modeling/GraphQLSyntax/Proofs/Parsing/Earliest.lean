import Mathlib.Data.List.Basic
import GraphQLSyntax.Proofs.Parsing.Inverse
import GraphQLSyntax.Proofs.Recognition.Schema

/-!
# The earliest error

Of a source that cannot be parsed the parser reports the first token with which no
well-formed document goes on, whatever comes after it and whether or not that can be
read.  If there is no such token, it reports the fault at which reading stopped, or
else the end.  This holds of both grammars, since a parser that recognizes a language
consumes nothing that could not be completed.
-/

namespace GraphQLSyntax

open GraphQLSyntax.Parser

/-! ## What can be written -/

namespace Grammar

/-- What a document of the grammar, well formed in some degree, is written with. -/
def Writes (grammar : Grammar) (degree : Degree) (w : List Terminal) : Prop :=
  match grammar with
  | executable => ∃ d : Document Unit, d.WellFormed degree ∧ w = d.terminals
  | schema => ∃ d : SchemaDocument Unit, d.WellFormed degree ∧ w = d.terminals

/-- Some well-formed document begins with these lexemes. -/
def Viable (grammar : Grammar) (ls : List Lexeme) : Prop :=
  ∃ w, grammar.Writes .strict w ∧ ls <+: spell w

/-- After these lexemes the name is that of a field of an object, an earlier field of
which has the same name: so it is in a document that is well formed but for such
names. -/
def RepeatsField (grammar : Grammar) (before : List Lexeme) (name : String) : Prop :=
  ∃ w, grammar.Writes .lax w ∧ before ++ [.ofName name] <+: spell w ∧
    w[before.length]? = some ⟨.ofName name, some (.repeatedField name)⟩

/-- The last of these lexemes is the keyword of a fragment definition: it comes after
complete definitions only. -/
def OpensFragment (grammar : Grammar) (before : List Lexeme) : Prop :=
  match grammar with
  | executable => ∃ ds : List (Definition Unit), (∀ d ∈ ds, d.WellFormed .strict) ∧
      before = spell (ds.flatMap Definition.terminals) ++ [.ofName "fragment"]
  | schema => False

/-- The fault is reported at a token and says what is wrong with it after the lexemes
before it. -/
structure Refuses (grammar : Grammar) (before : List Lexeme) (token : Token) (fault : Fault) :
    Prop where
  position_eq : fault.position = token.start
  not_lexical : fault.cause.category ≠ .lexical
  repeatedField_iff : ∀ name, fault.cause.category = .duplicateInputObjectField name ↔
    token.lexeme = .ofName name ∧ grammar.RepeatsField before name
  reservedName_iff : ∀ name, fault.cause.category = .reservedName name ↔
    name = "on" ∧ token.lexeme = .ofName "on" ∧ grammar.OpensFragment before
  unexpectedToken : (¬ ∃ name, token.lexeme = .ofName name ∧ grammar.RepeatsField before name) →
    ¬ (token.lexeme = .ofName "on" ∧ grammar.OpensFragment before) →
      fault.cause.category = .unexpectedToken

variable {grammar : Grammar}

theorem writes_strict_iff {w : List Terminal} :
    grammar.Writes .strict w ↔ grammar.Writes .lax w ∧ Terminal.AllPlain w := by
  cases grammar with
  | executable =>
    constructor
    · rintro ⟨d, hd, rfl⟩
      obtain ⟨hlax, hplain⟩ := d.wellFormed_strict_iff.1 hd
      exact ⟨⟨d, hlax, rfl⟩, hplain⟩
    · rintro ⟨⟨d, hlax, rfl⟩, hplain⟩
      exact ⟨d, d.wellFormed_strict_iff.2 ⟨hlax, hplain⟩, rfl⟩
  | schema =>
    constructor
    · rintro ⟨d, hd, rfl⟩
      obtain ⟨hlax, hplain⟩ := d.wellFormed_strict_iff.1 hd
      exact ⟨⟨d, hlax, rfl⟩, hplain⟩
    · rintro ⟨⟨d, hlax, rfl⟩, hplain⟩
      exact ⟨d, d.wellFormed_strict_iff.2 ⟨hlax, hplain⟩, rfl⟩

theorem Viable.of_isPrefix {ls ls' : List Lexeme} (h : grammar.Viable ls') (hpre : ls <+: ls') :
    grammar.Viable ls := by
  obtain ⟨w, hw, hls⟩ := h
  exact ⟨w, hw, hpre.trans hls⟩

theorem Writes.isProper {w : List Terminal} {degree : Degree} (h : grammar.Writes degree w) :
    ∀ t ∈ w, t.IsProper := by
  cases grammar with
  | executable =>
    obtain ⟨d, hd, rfl⟩ := h
    exact hd.isProper
  | schema =>
    obtain ⟨d, hd, rfl⟩ := h
    exact fun t ht => (hd.ordinary t ht).toIsProper

/-- A document that is well formed up to objections goes on in this way, and raises the
objection. -/
def Objects (grammar : Grammar) (before : List Lexeme) (lexeme : Lexeme) (o : Objection) : Prop :=
  ∃ w, grammar.Writes .lax w ∧ before ++ [lexeme] <+: spell w ∧
    w[before.length]? = some ⟨lexeme, some o⟩

theorem objects_repeatedField_iff {before : List Lexeme} {lexeme : Lexeme} {name : String} :
    grammar.Objects before lexeme (.repeatedField name) ↔
      lexeme = .ofName name ∧ grammar.RepeatsField before name := by
  constructor
  · rintro ⟨w, hw, hpre, hget⟩
    obtain rfl : lexeme = .ofName name :=
      (hw.isProper _ (List.mem_of_getElem? hget)).eq_ofName name rfl
    exact ⟨rfl, w, hw, hpre, hget⟩
  · rintro ⟨rfl, h⟩
    exact h

/-- A document, every lexeme of which some well-formed document goes on with, is well
formed. -/
theorem strict_of_viable {d : Document Unit} (hd : d.WellFormed .lax)
    (h : executable.Viable d.yield) : d.WellFormed .strict := by
  obtain ⟨w, hw, hpre⟩ := h
  obtain ⟨⟨d', hd', rfl⟩, hplain⟩ := writes_strict_iff.1 hw
  have hs := hd.isStream
  have hr : BeginsWith (·.kind = .eof) [Lexeme.bare .eof] := by
    simp [BeginsWith]
  have hlanguage : Document.language d.terminals d := ⟨hd, rfl⟩
  cases hrun : run document default default
      ((tokensOf d.yield).map .ok ++ [.ok ⟨.bare .eof, 0, 0⟩]) with
  | ok x =>
    obtain ⟨token, hlast, -, hacc⟩ :=
      run_eq_ok (fun _ => recognizes_document) document_returnsAtEnd hs hrun
    cases hlast
    have hword := (hacc.unique _ d [.bare .eof] hlanguage hr (by simp [spell, Document.yield])).1
    exact d.wellFormed_strict_iff.2 ⟨hd, hword ▸ allPlain_wordOf _⟩
  | error fault =>
    obtain ⟨k, hk, hrej⟩ | ⟨token, hlast, hrej⟩ | ⟨hlast, -⟩ :=
      run_eq_error (fun _ => recognizes_document) hs hrun
    · refine absurd ?_ (hrej.not_isPrefix (y := d') ⟨hd', rfl⟩ hplain (beginsWith_nil _))
      rw [← map_lexeme_take_succ hk, List.append_nil]
      refine List.IsPrefix.trans ?_ hpre
      simpa using (List.take_prefix (k + 1) (tokensOf d.yield)).map Token.lexeme
    · cases hlast
      obtain ⟨o, hget, -⟩ := hrej.objection _ d [.bare .eof] hlanguage hr
        (by simp [spell, Document.yield])
      simp [tokensOf, Document.yield] at hget
    · cases hlast

theorem exists_fragmentDefinition_on :
    ∃ (x : FragmentDefinition Unit) (v : List Terminal), x.WellFormed .lax ∧
      x.terminals = .ofName "fragment" :: ⟨.ofName "on", some (.reservedName "on")⟩ :: v := by
  obtain ⟨w, set, ⟨hset, rfl⟩, -⟩ :=
    Language.Inhabited.exists_plain (L := SelectionSet.language)
  have hx : (⟨⟨"on", ()⟩, ⟨⟨"on", ()⟩, ()⟩, [], set, ()⟩ : FragmentDefinition Unit).WellFormed
      .lax :=
    ⟨isName_on, nofun, isName_on, by simp, hset⟩
  obtain ⟨v, hv, -⟩ := FragmentDefinition.terminals_eq hx
  exact ⟨_, v, hx, hv⟩

/-- A reserved name is objected to right after the keyword of a fragment definition. -/
theorem objects_reservedName_iff {before : List Lexeme} {lexeme : Lexeme} {name : String}
    (hviable : before = [] ∨ grammar.Viable before) :
    grammar.Objects before lexeme (.reservedName name) ↔
      name = "on" ∧ lexeme = .ofName "on" ∧ grammar.OpensFragment before := by
  cases grammar with
  | schema =>
    constructor
    · rintro ⟨w, ⟨d, hd, rfl⟩, -, hget⟩
      exact absurd rfl ((hd.ordinary _ (List.mem_of_getElem? hget)).not_reserved name)
    · rintro ⟨-, -, ⟨⟩⟩
  | executable =>
    constructor
    · rintro ⟨w, ⟨d, hd, rfl⟩, hpre, hget⟩
      obtain ⟨hname, hlexeme, ds, hds, htake⟩ := Definition.reserved_at hd.2 hget
      have hbefore : before = spell (ds.flatMap Definition.terminals) ++ [.ofName "fragment"] := by
        rw [List.prefix_iff_eq_take.1 ((List.prefix_append _ _).trans hpre)]
        simpa [spell, List.map_take, Document.terminals] using congrArg spell htake
      refine ⟨hname, hlexeme, ds, fun x hx => ?_, hbefore⟩
      -- The definitions before make up a document, and more of it is viable than that.
      have hlax : (⟨ds, ()⟩ : Document Unit).WellFormed .lax :=
        ⟨List.ne_nil_of_mem hx, fun y hy => hd.2 y (hds.subset hy)⟩
      have hpre' : (⟨ds, ()⟩ : Document Unit).yield <+: before := ⟨_, hbefore.symm⟩
      have hviable' := (hviable.resolve_left (by simp [hbefore])).of_isPrefix hpre'
      exact (strict_of_viable hlax hviable').2 x hx
    · rintro ⟨rfl, rfl, ds, hds, rfl⟩
      obtain ⟨x, v, hx, hv⟩ := exists_fragmentDefinition_on
      have hword : (⟨ds ++ [.fragment x], ()⟩ : Document Unit).terminals =
          ds.flatMap Definition.terminals ++ .ofName "fragment" ::
            ⟨.ofName "on", some (.reservedName "on")⟩ :: v := by
        simp [Document.terminals, Definition.terminals, hv]
      refine ⟨_, ⟨⟨ds ++ [.fragment x], ()⟩, ⟨by simp, ?_⟩, rfl⟩, ?_, ?_⟩
      · intro y hy
        obtain hy | rfl := (List.mem_append.1 hy).imp_right List.mem_singleton.1
        · exact (y.wellFormed_strict_iff.1 (hds y hy)).1
        · exact hx
      · exact ⟨spell v, by simp [hword]⟩
      · rw [hword, List.getElem?_append_right (by simp [spell])]
        simp [spell]

/-! ## What is reported -/

section Rejected

variable {γ : Type} {L : Language γ} {follows : Lexeme → Prop} {u : List Token} {token : Token}
  {fault : Fault}

theorem viable_of_extendable (hL : ∀ w, grammar.Writes .lax w ↔ ∃ x, L w x)
    (h : Extendable L u) : grammar.Viable (u.map Token.lexeme) := by
  obtain ⟨w, x, hw, hplain, hpre⟩ := h
  exact ⟨w, writes_strict_iff.2 ⟨(hL w).2 ⟨x, hw⟩, hplain⟩, hpre⟩

theorem not_viable_of_rejected (hL : ∀ w, grammar.Writes .lax w ↔ ∃ x, L w x)
    (h : Rejected L follows u token fault) :
    ¬ grammar.Viable (u.map Token.lexeme ++ [token.lexeme]) := by
  rintro ⟨w, hw, hpre⟩
  obtain ⟨hlax, hplain⟩ := writes_strict_iff.1 hw
  obtain ⟨x, hx⟩ := (hL w).1 hlax
  exact h.not_isPrefix hx hplain (beginsWith_nil _) (by simpa using hpre)

/-- A fault is of the category of an objection exactly if a document raises that
objection. -/
theorem category_eq_iff (hL : ∀ w, grammar.Writes .lax w ↔ ∃ x, L w x)
    (h : Rejected L follows u token fault) (o : Objection) :
    fault.cause.category = o.cause.category ↔
      grammar.Objects (u.map Token.lexeme) token.lexeme o := by
  have hobjection : ∀ {w x}, L w x → u.map Token.lexeme ++ [token.lexeme] <+: spell w →
      ∃ o : Objection, w[u.length]? = some ⟨token.lexeme, some o⟩ ∧ fault.cause = o.cause :=
    fun hw hpre => h.objection _ _ [] hw (beginsWith_nil _) (by simpa using hpre)
  constructor
  · intro hcategory
    have hne : fault.cause.category ≠ .unexpectedToken := by
      rw [hcategory]
      cases o <;> simp [Objection.cause, Cause.category]
    obtain ⟨w, x, hw, hpre⟩ := h.objected hne
    obtain ⟨o', hget, hcause⟩ := hobjection hw hpre
    obtain rfl : o' = o := by
      rw [hcause] at hcategory
      cases o <;> cases o' <;> simp_all [Objection.cause, Cause.category]
    exact ⟨w, (hL w).2 ⟨x, hw⟩, hpre, by simpa using hget⟩
  · rintro ⟨w, hw, hpre, hget⟩
    obtain ⟨x, hx⟩ := (hL w).1 hw
    obtain ⟨o', hget', hcause⟩ := hobjection hx hpre
    rw [List.length_map, hget'] at hget
    obtain rfl : o' = o := by simpa using hget
    rw [hcause]

theorem refuses_of_rejected (hL : ∀ w, grammar.Writes .lax w ↔ ∃ x, L w x)
    (h : Rejected L follows u token fault) :
    grammar.Refuses (u.map Token.lexeme) token fault := by
  have hrepeated (name) : fault.cause.category = .duplicateInputObjectField name ↔
      token.lexeme = .ofName name ∧ grammar.RepeatsField (u.map Token.lexeme) name :=
    (category_eq_iff hL h (.repeatedField name)).trans objects_repeatedField_iff
  have hreserved (name) : fault.cause.category = .reservedName name ↔
      name = "on" ∧ token.lexeme = .ofName "on" ∧ grammar.OpensFragment (u.map Token.lexeme) := by
    refine (category_eq_iff hL h (.reservedName name)).trans (objects_reservedName_iff ?_)
    exact h.extendable.imp (by rintro rfl; rfl) (viable_of_extendable hL)
  refine ⟨h.position_eq, h.not_lexical, hrepeated, hreserved, fun hno hnone => ?_⟩
  cases hcategory : fault.cause.category with
  | lexical => exact absurd hcategory h.not_lexical
  | unexpectedToken => rfl
  | duplicateInputObjectField name => exact absurd ⟨name, (hrepeated name).1 hcategory⟩ hno
  | reservedName name => exact absurd ((hreserved name).1 hcategory).2 hnone

end Rejected

/-- The fault is the earliest there can be where some tokens are read and then the end or
a fault. -/
structure Earliest (grammar : Grammar) (ts : List Token) (last : Reading) (fault : Fault) :
    Prop where
  /-- It is reported at the first token with which no document goes on. -/
  of_not_viable : ∀ k (hk : k < ts.length),
    (∀ j < k, grammar.Viable ((ts.take (j + 1)).map Token.lexeme)) →
      ¬ grammar.Viable ((ts.take (k + 1)).map Token.lexeme) →
        grammar.Refuses ((ts.take k).map Token.lexeme) ts[k] fault
  /-- If there is none, it is the fault that ended the reading. -/
  of_error : (∀ k < ts.length, grammar.Viable ((ts.take (k + 1)).map Token.lexeme)) →
    ∀ fault', last = .error fault' → fault = fault'
  /-- If there is none of either, it is reported at the end. -/
  of_end : (∀ k < ts.length, grammar.Viable ((ts.take (k + 1)).map Token.lexeme)) →
    ∀ token, last = .ok token → fault.position = token.start

section Run

variable {β γ : Type} {p : Nat → Parser β} {erase : β → γ} {L : Language γ} {ts : List Token}
  {last : Reading} {fault : Fault} {source : Source} {options : ParseOptions}

theorem viable_take {k j : Nat} (h : grammar.Viable ((ts.take k).map Token.lexeme))
    (hj : j ≤ k) : grammar.Viable ((ts.take j).map Token.lexeme) :=
  h.of_isPrefix ((List.take_prefix_take_left hj).map _)

/-- A parser that recognizes the documents of a grammar reports the earliest fault. -/
theorem earliest_of_run_eq_error (hL : ∀ w, grammar.Writes .lax w ↔ ∃ x, L w x)
    (hrec : ∀ n, Recognizes n anything (p n) erase L (·.kind = .eof))
    (hs : IsStream (ts.map .ok ++ [last]))
    (hrun : run p source options (ts.map .ok ++ [last]) = .error fault) :
    grammar.Earliest ts last fault := by
  -- If all of the tokens are consumed, they are viable up to any place.
  have hall : (ts = [] ∨ Extendable L ts) → ∀ k < ts.length,
      grammar.Viable ((ts.take (k + 1)).map Token.lexeme) := by
    rintro (rfl | hext) k hk
    · exact absurd hk (Nat.not_lt_zero k)
    · have hviable := viable_of_extendable hL hext
      rw [← List.take_length (l := ts)] at hviable
      exact viable_take hviable hk
  obtain ⟨k, hk, hrej⟩ | ⟨token, rfl, hrej⟩ | ⟨rfl, hext⟩ := run_eq_error hrec hs hrun
  · have hnot := not_viable_of_rejected hL hrej
    rw [← map_lexeme_take_succ hk] at hnot
    have hbefore : ∀ j < k, grammar.Viable ((ts.take (j + 1)).map Token.lexeme) := by
      intro j hj
      obtain hnil | hext := hrej.extendable
      · obtain rfl | rfl := List.take_eq_nil_iff.1 hnil
        · exact absurd hj (Nat.not_lt_zero j)
        · exact absurd hk (Nat.not_lt_zero k)
      · exact viable_take (viable_of_extendable hL hext) hj
    refine ⟨fun k' hk' hbefore' hnot' => ?_, fun hviable => absurd (hviable k hk) hnot,
      fun hviable => absurd (hviable k hk) hnot⟩
    obtain rfl : k' = k := by
      refine Nat.le_antisymm (Nat.le_of_not_lt fun hlt => ?_) (Nat.le_of_not_lt fun hlt => ?_)
      · exact hnot (hbefore' k hlt)
      · exact hnot' (hbefore k' hlt)
    exact refuses_of_rejected hL hrej
  · refine ⟨fun k hk _ hnot => absurd (hall hrej.extendable k hk) hnot, fun _ _ => nofun, ?_⟩
    rintro - _ ⟨⟩
    exact hrej.position_eq
  · refine ⟨fun k hk _ hnot => absurd (hall hext k hk) hnot, ?_, fun _ _ => nofun⟩
    rintro - _ ⟨⟩
    rfl

end Run

end Grammar

theorem writes_lax_executable_iff (w : List Terminal) :
    Grammar.executable.Writes .lax w ↔ ∃ x, Document.language w x :=
  Iff.rfl

theorem writes_lax_schema_iff (w : List Terminal) :
    Grammar.schema.Writes .lax w ↔ ∃ x, SchemaDocument.language w x :=
  Iff.rfl

namespace Source

variable {source : Source}

/-- The parser reports the earliest error: if a body whose offsets fit into 32 bits cannot
be parsed, then the fault is reported at the first token with which no well-formed
document goes on, and if there is no such token it is the fault at which reading stopped
or is reported at the end, which is where the body ends. -/
theorem parseNode_earliest (hfits : source.byteCount < UInt32.size) {grammar : Grammar}
    {options : ParseOptions} {error : SyntaxError}
    (herror : source.parseNode grammar options = .error error) :
    ∃ (ts : List Token) (last : Reading), source.tokens = ts.map .ok ++ [last] ∧
      (∀ t ∈ ts, t.kind ≠ .eof) ∧ last.isLast = true ∧ error.source = source ∧
        grammar.Earliest ts last error.fault ∧
          ∀ token, last = .ok token → token.start = source.length := by
  have hs := tokens_isStream hfits
  obtain ⟨ts, last, heq, hts, hlast⟩ := hs.exists_eq
  refine ⟨ts, last, heq, hts, hlast, ?_⟩
  have hend : ∀ token, last = .ok token → token.start = source.length := by
    rintro token rfl
    refine start_eq_length hfits (by simp [heq]) ?_
    simpa [Reading.isLast] using hlast
  obtain ⟨fault, hrun, rfl⟩ := exists_fault_of_parseNode herror
  refine ⟨rfl, ?_, hend⟩
  rw [heq] at hs
  cases grammar with
  | executable =>
    have hrun := eq_error_of_map hrun
    rw [heq] at hrun
    exact Grammar.earliest_of_run_eq_error writes_lax_executable_iff
      (fun _ => recognizes_document) hs hrun
  | schema =>
    have hrun := eq_error_of_map hrun
    rw [heq] at hrun
    exact Grammar.earliest_of_run_eq_error writes_lax_schema_iff
      (fun _ => recognizes_schemaDocument) hs hrun

/-- A repeated field name is reported where it stands, although no token begins with the
character after it. -/
theorem parseNode_earliest_repeatedField :
    (Source.mk "\x7ba(b:\x7bc:1 c%" "").byteCount < UInt32.size ∧
      (Source.mk "\x7ba(b:\x7bc:1 c%" "").parseNode .executable {} =
        .error ⟨⟨"\x7ba(b:\x7bc:1 c%", ""⟩, ⟨10, .duplicateField "c"⟩⟩ ∧
      ∃ (ts : List Token) (last : Reading),
        (Source.mk "\x7ba(b:\x7bc:1 c%" "").tokens = ts.map .ok ++ [last] ∧
          Grammar.executable.Earliest ts last ⟨10, .duplicateField "c"⟩ := by
  have hfits : (Source.mk "\x7ba(b:\x7bc:1 c%" "").byteCount < UInt32.size := by decide
  have herror : (Source.mk "\x7ba(b:\x7bc:1 c%" "").parseNode .executable {} =
      .error ⟨⟨"\x7ba(b:\x7bc:1 c%", ""⟩, ⟨10, .duplicateField "c"⟩⟩ := by decide +kernel
  obtain ⟨ts, last, heq, -, -, -, hearliest, -⟩ := parseNode_earliest hfits herror
  exact ⟨hfits, herror, ts, last, heq, hearliest⟩

end Source

end GraphQLSyntax
