import GraphQLSyntax.Parsing
import GraphQLSyntax.Proofs.Parsing.Inverse

/-!
# Bodies of any length

In a body whose offsets do not fit into 32 bits reading may start over again and again
and come to no end.  A document is parsed only where the end is reached, and the end is
reached only if it was read, since a parser has nothing ahead of it but what there was
to be read from the start.  So whatever is parsed is well formed, without any condition
on the length of the body.
-/

namespace GraphQLSyntax

namespace Parser

-- A production is an instance by the instances of all its steps.
set_option synthInstance.maxSize 400

variable {β γ : Type}

/-- What is left to be read was there to be read before. -/
class ReadsOn (p : Parser β) : Prop where
  subset : ∀ {s s' : ParserState} {x : β}, p s = .ok x s' → s'.readings ⊆ s.readings

instance (x : β) : ReadsOn (pure x : Parser β) where
  subset := by
    rintro s s' _ ⟨⟩
    exact List.Subset.refl _

instance {p : Parser β} {f : β → Parser γ} [ReadsOn p] [∀ x, ReadsOn (f x)] :
    ReadsOn (p >>= f) where
  subset := by
    intro s s' y h
    obtain ⟨x, s₁, hp, hf⟩ := bind_eq_ok h
    exact List.Subset.trans (ReadsOn.subset hf) (ReadsOn.subset hp)

instance {c : Prop} [Decidable c] {p q : Parser β} [ReadsOn p] [ReadsOn q] :
    ReadsOn (if c then p else q) := by
  split <;> infer_instance

instance : ReadsOn (ParserCore.peek : Parser Token) where
  subset := by
    rintro s s' _ ⟨⟩
    exact List.Subset.refl _

instance (cause : Lexeme → Cause) : ReadsOn (ParserCore.fail cause : Parser β) where
  subset := nofun

instance : ReadsOn (unexpected : Parser β) :=
  inferInstanceAs (ReadsOn (ParserCore.fail .unexpected))

instance (item : Parser β) [ReadsOn item] : ReadsOn (ParserCore.round item) :=
  inferInstanceAs (ReadsOn item)

instance (start : UInt32) : ReadsOn (ParserCore.mark start : Parser Tag) where
  subset := by
    rintro s s' _ ⟨⟩
    exact List.Subset.refl _

instance : ReadsOn (ParserCore.advance : Parser Token) where
  subset := by
    intro s s' token h
    change advance s = .ok token s' at h
    cases hupcoming : s.upcoming with
    | nil =>
      rw [advance_eq_last hupcoming] at h
      cases h
      simp [ParserState.readings, hupcoming]
    | cons reading rest =>
      cases reading with
      | ok next =>
        rw [advance_eq_ok hupcoming] at h
        cases h
        simp [ParserState.readings, hupcoming]
      | error fault =>
        rw [advance_eq_error hupcoming] at h
        cases h

instance (kind : TokenKind) : ReadsOn (sees kind) := by
  unfold sees
  infer_instance

instance (word : String) : ReadsOn (seesKeyword word) := by
  unfold seesKeyword
  infer_instance

instance : ReadsOn here := by
  unfold here
  infer_instance

instance (kind : TokenKind) : ReadsOn (skip kind) := by
  unfold skip
  infer_instance

instance : ReadsOn skipEnd :=
  inferInstanceAs (ReadsOn (skip .eof))

instance (kind : TokenKind) : ReadsOn (expect kind) := by
  unfold expect
  infer_instance

instance (word : String) : ReadsOn (expectKeyword word) := by
  unfold expectKeyword
  infer_instance

instance : ReadsOn name := by
  unfold name
  infer_instance

instance : ReadsOn namedType := by
  unfold namedType
  infer_instance

instance (item : Parser (TypeRef Tag)) (start : UInt32) [ReadsOn item] :
    ReadsOn (nullableTypeRef item start) := by
  unfold nullableTypeRef
  infer_instance

instance (limit : Nat) : ReadsOn (typeRef limit) := by
  induction limit with
  | zero => exact inferInstanceAs (ReadsOn unexpected)
  | succ limit ih =>
    rw [typeRef_succ]
    infer_instance

instance : ReadsOn var := by
  unfold var
  infer_instance

instance : ReadsOn literal := by
  unfold literal
  infer_instance

instance : ReadsOn namedValue := by
  unfold namedValue
  infer_instance

section Repetition

variable (opening close : TokenKind) (item : Parser β) [ReadsOn item] (limit : Nat)

instance : ReadsOn (untilClose item close limit) := by
  induction limit with
  | zero => exact inferInstanceAs (ReadsOn unexpected)
  | succ limit ih =>
    unfold untilClose
    infer_instance

instance : ReadsOn (any opening item close limit) := by
  unfold any
  infer_instance

instance : ReadsOn (many opening item close limit) := by
  unfold many
  infer_instance

instance : ReadsOn (parenthesized item limit) := by
  unfold parenthesized
  infer_instance

instance : ReadsOn (whileSees close item limit) := by
  induction limit with
  | zero => exact inferInstanceAs (ReadsOn unexpected)
  | succ limit ih =>
    unfold whileSees
    infer_instance

end Repetition

instance (value : Parser (Value Tag)) (taken : List String) [ReadsOn value] :
    ReadsOn (objectField value taken) := by
  unfold objectField
  dsimp only
  infer_instance

instance (value : Parser (Value Tag)) (taken : List String) (limit : Nat) [ReadsOn value] :
    ReadsOn (objectFields value taken limit) := by
  induction limit generalizing taken with
  | zero => exact inferInstanceAs (ReadsOn unexpected)
  | succ limit ih =>
    unfold objectFields
    infer_instance

instance (const : Bool) (limit : Nat) : ReadsOn (value const limit) := by
  induction limit with
  | zero => exact inferInstanceAs (ReadsOn unexpected)
  | succ limit ih =>
    have hkind : ∀ (start : UInt32) (kind : TokenKind), ReadsOn (match kind with
        | .bracketOpen => do
          let values ← any .bracketOpen (value const limit) .bracketClose limit
          return .list ⟨values, ← ParserCore.mark start⟩
        | .braceOpen => do
          let _ ← expect .braceOpen
          let fields ← objectFields (value const limit) [] limit
          return .object ⟨fields, ← ParserCore.mark start⟩
        | .int => return .int (← literal)
        | .float => return .float (← literal)
        | .string => return .string (← literal)
        | .name => namedValue
        | .dollar => if const then unexpected else return .var (← var)
        | _ => unexpected : Parser (Value Tag)) := by
      intro start kind
      cases kind <;> infer_instance
    rw [value_succ]
    infer_instance

instance (limit : Nat) : ReadsOn (defaultValue limit) := by
  unfold defaultValue
  infer_instance

instance (limit : Nat) : ReadsOn (argument limit) := by
  unfold argument
  infer_instance

instance (limit : Nat) : ReadsOn (arguments limit) := by
  unfold arguments
  infer_instance

instance (limit : Nat) : ReadsOn (directive limit) := by
  unfold directive
  infer_instance

instance (limit : Nat) : ReadsOn (directives limit) := by
  unfold directives
  infer_instance

instance : ReadsOn fragmentName := by
  unfold fragmentName
  infer_instance

instance : ReadsOn fieldNames := by
  unfold fieldNames
  infer_instance

section Selection

variable (set : Parser (SelectionSet Tag)) [ReadsOn set] (limit depth : Nat)

instance : ReadsOn (selectionSetOption set) := by
  unfold selectionSetOption
  infer_instance

instance : ReadsOn (field set limit) := by
  unfold field
  infer_instance

instance : ReadsOn (fragment set limit) := by
  unfold fragment
  infer_instance

instance : ReadsOn (selection set limit) := by
  unfold selection
  infer_instance

instance : ReadsOn (selectionSet limit depth) := by
  induction depth with
  | zero => exact inferInstanceAs (ReadsOn unexpected)
  | succ depth ih =>
    rw [selectionSet_succ]
    infer_instance

end Selection

instance (limit : Nat) : ReadsOn (variableDefinition limit) := by
  unfold variableDefinition
  infer_instance

instance (limit : Nat) : ReadsOn (operationDefinition limit) := by
  have hoperation : ∀ (start : UInt32) (operation? : Option OperationType),
      ReadsOn (match operation? with
        | none => unexpected
        | some operation => do
          let _ ← ParserCore.advance
          let name ← name
          let variableDefinitions ← parenthesized (variableDefinition limit) limit
          let directives ← directives limit
          let selectionSet ← selectionSet limit limit
          return ⟨operation, some name, variableDefinitions, directives, selectionSet,
            ← ParserCore.mark start⟩ : Parser (OperationDefinition Tag)) := by
    intro start operation?
    cases operation? <;> infer_instance
  unfold operationDefinition
  infer_instance

instance (limit : Nat) : ReadsOn (fragmentDefinition limit) := by
  unfold fragmentDefinition
  infer_instance

instance (limit : Nat) : ReadsOn (definition limit) := by
  unfold definition
  infer_instance

/-- Where the end is not there to be read, no document is parsed. -/
theorem untilEnd_exists_eof {item : Parser β} [ReadsOn item] {limit : Nat}
    {s s' : ParserState} {xs : List β} (h : untilEnd item limit s = .ok xs s') :
    ∃ token, .ok token ∈ s.readings ∧ token.kind = .eof := by
  induction limit generalizing s s' xs with
  | zero => cases h
  | succ limit ih =>
    obtain ⟨x, s₁, hx, h⟩ := bind_eq_ok h
    obtain ⟨b, s₂, hskip, h⟩ := bind_eq_ok h
    have hsubset : s₁.readings ⊆ s.readings := ReadsOn.subset hx
    have hsubset' : s₂.readings ⊆ s.readings :=
      List.Subset.trans (ReadsOn.subset hskip) hsubset
    cases b with
    | true =>
      obtain ⟨seen, s₃, hsees, hskip⟩ := bind_eq_ok hskip
      cases hsees
      split at hskip
      · rename_i hkind
        exact ⟨s₁.ahead, hsubset (by simp [ParserState.readings]), beq_iff_eq.1 hkind⟩
      · cases hskip
    | false =>
      obtain ⟨ys, s₃, hys, -⟩ := bind_eq_ok h
      obtain ⟨token, htoken, hkind⟩ := ih hys
      exact ⟨token, hsubset' htoken, hkind⟩

theorem document_exists_eof {limit : Nat} {s s' : ParserState} {d : Document Tag}
    (h : (document limit : Parser _) s = .ok d s') :
    ∃ token, .ok token ∈ s.readings ∧ token.kind = .eof := by
  obtain ⟨start, s₁, hstart, h⟩ := bind_eq_ok h
  cases hstart
  obtain ⟨definitions, s₂, hdefinitions, -⟩ := bind_eq_ok h
  exact untilEnd_exists_eof hdefinitions

/-- If a parser comes through only where the end was there to be read, the end is among all
that was read when it is run. -/
theorem run_exists_eof {p : Nat → Parser β}
    (hp : ∀ {limit : Nat} {s s' : ParserState} {d : β}, p limit s = .ok d s' →
      ∃ token, .ok token ∈ s.readings ∧ token.kind = .eof)
    {source : Source} {options : ParseOptions} {readings : List Reading} {d : β}
    (h : run p source options readings = .ok d) :
    ∃ token, .ok token ∈ readings ∧ token.kind = .eof := by
  rcases readings with _ | ⟨fault | ahead, upcoming⟩
  · cases h
  · cases h
  · simp only [run] at h
    split at h
    · rename_i hdocument
      exact hp hdocument
    · cases h

end Parser

namespace Source

/-- What scanning yields at any place: a proper lexeme or a lexical fault. -/
def IsScan : Except Fault Scanned → Prop
  | .ok scanned => scanned.lexeme.IsProper
  | .error fault => fault.cause.category = .lexical

theorem isScan_scan (offset : Nat) (cs : List Char) : IsScan (scan offset cs) := by
  cases hscan : scan offset cs with
  | error fault => exact scan_lexical hscan
  | ok scanned =>
    obtain ⟨_, _, _, hcovers⟩ := scan_covers hscan
    exact hcovers.isProper

theorem isScan_scanAt (source : Source) (offset : Nat) : IsScan (source.scanAt offset) := by
  unfold scanAt
  split
  · rfl
  · split
    · exact isScan_scan _ _
    · rfl

/-- Reading comes to its end or to a fault, or all that is ever read are tokens before the
end. -/
theorem readOn_isStream_or (source : Source) {limit : Nat} {result : Except Fault Scanned}
    (hresult : IsScan result) :
    IsStream (source.readOn limit result) ∨
      ∀ token, .ok token ∈ source.readOn limit result → token.kind ≠ .eof := by
  induction limit generalizing result with
  | zero => exact .inr (by simp [readOn])
  | succ limit ih =>
    cases result with
    | error fault => exact .inl (.fault fault hresult)
    | ok scanned =>
      have hproper : scanned.lexeme.IsProper := hresult
      rw [readOn]
      dsimp only
      split
      · rename_i hkind
        have hkind : scanned.lexeme.kind = .eof := beq_iff_eq.1 hkind
        refine .inl (.eof _ ?_)
        rw [← hkind]
        exact hproper.eq_bare (by rw [hkind]; rfl)
      · rename_i hkind
        have hkind : scanned.lexeme.kind ≠ .eof := fun h => hkind (beq_iff_eq.2 h)
        have hnext : IsScan (if scanned.token.stop.toNat = scanned.stop then
            scan scanned.stop scanned.rest else source.scanAt scanned.token.stop.toNat) := by
          split
          · exact isScan_scan _ _
          · exact isScan_scanAt _ _
        obtain hstream | hnone := ih hnext
        · exact .inl (.token _ _ hkind hproper hstream)
        · refine .inr fun token htoken => ?_
          obtain rfl | htoken : token = scanned.token ∨ _ := by simpa using htoken
          · exact hkind
          · exact hnone token htoken

/-- Whatever is read of a source is proper, in bodies of any length. -/
theorem isProper_of_mem_readOn (source : Source) {limit : Nat} {result : Except Fault Scanned}
    (hresult : IsScan result) {token : Token} (h : .ok token ∈ source.readOn limit result) :
    token.lexeme.IsProper := by
  induction limit generalizing result with
  | zero => simp [readOn] at h
  | succ limit ih =>
    cases result with
    | error fault => simp [readOn] at h
    | ok scanned =>
      have hproper : scanned.lexeme.IsProper := hresult
      rw [readOn] at h
      dsimp only at h
      split at h
      · obtain rfl : token = scanned.token := by simpa using h
        exact hproper
      · obtain rfl | h : token = scanned.token ∨ _ := by simpa using h
        · exact hproper
        · refine ih ?_ h
          split
          · exact isScan_scan _ _
          · exact isScan_scanAt _ _

theorem isProper_of_mem_tokens (source : Source) {token : Token} (h : .ok token ∈ source.tokens) :
    token.lexeme.IsProper :=
  source.isProper_of_mem_readOn (isScan_scan 0 source.chars) h

theorem parse_exists_eof {source : Source} {options : ParseOptions} {t : Document Tag}
    (h : source.parse options = .ok t) :
    ∃ token, .ok token ∈ source.tokens ∧ token.kind = .eof := by
  unfold parse at h
  split at h
  · rename_i hrun
    exact Parser.run_exists_eof Parser.document_exists_eof hrun
  · cases h

/-- Whatever is parsed is well formed, in bodies of any length. -/
theorem wellFormed_of_parse {source : Source} {options : ParseOptions} {t : Document Tag}
    (h : source.parse options = .ok t) : t.WellFormed .strict := by
  obtain hstream | hnone := source.readOn_isStream_or (isScan_scan 0 source.chars)
  · exact (parse_sound hstream h).1
  · obtain ⟨token, htoken, hkind⟩ := parse_exists_eof h
    exact absurd hkind (hnone token htoken)

end Source

end GraphQLSyntax
