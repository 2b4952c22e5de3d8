import GraphQLSyntax.Proofs.Parsing.SchemaInverse
import GraphQLSyntax.Proofs.Parsing.Unending

/-!
# Bodies of any length, for schemas

The productions of schema documents read on like all others, so that a schema document,
too, is parsed only where the end was read, and is well formed in bodies of any length.
-/

namespace GraphQLSyntax

namespace Parser

instance (limit : Nat) : ReadsOn (argumentDefinition limit) := by
  unfold argumentDefinition
  infer_instance

instance (limit : Nat) : ReadsOn (fieldDefinition limit) := by
  unfold fieldDefinition
  infer_instance

instance (limit : Nat) : ReadsOn (inputFieldDefinition limit) := by
  unfold inputFieldDefinition
  infer_instance

instance (limit : Nat) : ReadsOn (namedTypesUntilBrace limit) := by
  induction limit with
  | zero => exact inferInstanceAs (ReadsOn unexpected)
  | succ limit ih =>
    unfold namedTypesUntilBrace
    infer_instance

instance (limit : Nat) : ReadsOn (implementsInterfaces limit) := by
  unfold implementsInterfaces
  infer_instance

instance (limit : Nat) : ReadsOn (typeDefinition limit) := by
  unfold typeDefinition
  infer_instance

instance (limit : Nat) : ReadsOn (interfaceDefinition limit) := by
  unfold interfaceDefinition
  infer_instance

instance (limit : Nat) : ReadsOn (unionMembers limit) := by
  induction limit with
  | zero => exact inferInstanceAs (ReadsOn unexpected)
  | succ limit ih =>
    unfold unionMembers
    infer_instance

instance (limit : Nat) : ReadsOn (unionDefinition limit) := by
  unfold unionDefinition
  infer_instance

instance : ReadsOn scalarDefinition := by
  unfold scalarDefinition
  infer_instance

instance : ReadsOn enumValueDefinition := by
  unfold enumValueDefinition
  infer_instance

instance (limit : Nat) : ReadsOn (enumDefinition limit) := by
  unfold enumDefinition
  infer_instance

instance (limit : Nat) : ReadsOn (inputObjectDefinition limit) := by
  unfold inputObjectDefinition
  infer_instance

-- The instance is put together from those of all steps of all six alternatives.
set_option synthInstance.maxSize 800 in
instance (limit : Nat) : ReadsOn (schemaDefinition limit) := by
  unfold schemaDefinition
  infer_instance

theorem schemaDocument_exists_eof {limit : Nat} {s s' : ParserState} {d : SchemaDocument Tag}
    (h : (schemaDocument limit : Parser _) s = .ok d s') :
    ∃ token, .ok token ∈ s.readings ∧ token.kind = .eof := by
  obtain ⟨start, s₁, hstart, h⟩ := bind_eq_ok h
  cases hstart
  obtain ⟨definitions, s₂, hdefinitions, -⟩ := bind_eq_ok h
  exact untilEnd_exists_eof hdefinitions

end Parser

namespace Source

theorem parseSchema_exists_eof {source : Source} {options : ParseOptions}
    {t : SchemaDocument Tag} (h : source.parseSchema options = .ok t) :
    ∃ token, .ok token ∈ source.tokens ∧ token.kind = .eof := by
  unfold parseSchema at h
  split at h
  · rename_i hrun
    exact Parser.run_exists_eof Parser.schemaDocument_exists_eof hrun
  · cases h

/-- Whatever is parsed as a schema document is well formed, in bodies of any length. -/
theorem wellFormed_of_parseSchema {source : Source} {options : ParseOptions}
    {t : SchemaDocument Tag} (h : source.parseSchema options = .ok t) :
    t.WellFormed .strict := by
  obtain hstream | hnone := source.readOn_isStream_or (isScan_scan 0 source.chars)
  · exact (parseSchema_sound hstream h).1
  · obtain ⟨token, htoken, hkind⟩ := parseSchema_exists_eof h
    exact absurd hkind (hnone token htoken)

end Source

end GraphQLSyntax
