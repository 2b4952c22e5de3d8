import GraphQLSyntax.Proofs.Lexical.Decoding
import GraphQLSyntax.Proofs.Printing.Layout

/-!
# Printed strings

A string value is printed as a literal that is read back as this value, whatever text comes
after it.  The literal is a text of one line and without control characters.  So indenting the
lines of a block, which may be done again for each block around it, leaves the literal as it is.
-/

namespace GraphQLSyntax

/-- The characters of the Unicode category `Cc`. -/
def IsControl (c : Char) : Prop :=
  c.toNat < 0x20 ∨ (0x7F ≤ c.toNat ∧ c.toNat < 0xA0)

theorem isControl_iff {c : Char} : isControl c = true ↔ IsControl c := by
  simp only [isControl, IsControl, Bool.or_eq_true, Bool.and_eq_true, decide_eq_true_eq]
  omega

/-! ## No control characters -/

theorem not_isControl_of_toNat {c : Char} (h : 0x20 ≤ c.toNat ∧ c.toNat < 0x7F) :
    ¬ IsControl c := by
  unfold IsControl
  omega

theorem not_isControl_hexDigitUpper {n : Nat} (h : n < 16) : ¬ IsControl (hexDigitUpper n) := by
  have hall : ∀ k : Fin 16, 0x20 ≤ (hexDigitUpper k).toNat ∧ (hexDigitUpper k).toNat < 0x7F := by
    decide
  exact not_isControl_of_toNat (hall ⟨n, h⟩)

theorem not_isControl_hexUpper4 (n : Nat) : ∀ d ∈ hexUpper4 n, ¬ IsControl d := by
  have hdigit : ∀ k, ¬ IsControl (hexDigitUpper (k % 16)) :=
    fun k => not_isControl_hexDigitUpper (Nat.mod_lt k (by decide))
  simp [hexUpper4, hdigit]

/-- A control character is not written as it is. -/
theorem not_isControl_escapeCharacter (c : Char) : ∀ d ∈ escapeCharacter c, ¬ IsControl d := by
  have hbackslash : ¬ IsControl '\\' := not_isControl_of_toNat (by decide)
  have hu : ¬ IsControl 'u' := not_isControl_of_toNat (by decide)
  have hletters : ∀ p ∈ escapeLetters, ¬ IsControl p.1 := by
    have hall : ∀ p ∈ escapeLetters, 0x20 ≤ p.1.toNat ∧ p.1.toNat < 0x7F := by
      simp [escapeLetters]
    exact fun p hp => not_isControl_of_toNat (hall p hp)
  rcases escapeCharacter_cases c with ⟨letter, hletter, heq⟩ | ⟨-, heq⟩ | ⟨-, -, hplain, -, heq⟩
  · rw [heq]
    exact List.forall_mem_cons.2
      ⟨hbackslash, List.forall_mem_singleton.2 (hletters _ hletter)⟩
  · rw [heq]
    exact List.forall_mem_cons.2
      ⟨hbackslash, List.forall_mem_cons.2 ⟨hu, not_isControl_hexUpper4 _⟩⟩
  · rw [heq, List.forall_mem_singleton, ← isControl_iff, hplain]
    exact Bool.false_ne_true

/-- A printed string is a text of one line and without control characters. -/
theorem mem_quote (value : String) :
    ∀ c ∈ (quote value).toList, ¬ IsControl c ∧ ¬ EndsLine c := by
  intro c hc
  have hmark : ¬ IsControl '"' ∧ ¬ EndsLine '"' :=
    ⟨not_isControl_of_toNat (by decide), by simp [EndsLine]⟩
  rw [toList_quote, List.mem_cons, List.mem_append, List.mem_singleton] at hc
  obtain rfl | hc | rfl := hc
  · exact hmark
  · obtain ⟨d, -, hc⟩ := List.mem_flatMap.1 hc
    exact ⟨not_isControl_escapeCharacter d c hc, (stringItem_escapeCharacter d).not_endsLine c hc⟩
  · exact hmark

/-! ## Indented blocks -/

/-- Indenting lines changes what is before and behind a printed string only. -/
theorem indentLines_quote (before value after : String) :
    indentLines (before ++ quote value ++ after) =
      indentLines before ++ quote value ++ indentLines after := by
  have hline : IsOneLine (quote value) := fun c hc => (mem_quote value c hc).2
  rw [indentLines_append, indentLines_append, indentLines_of_isOneLine hline]

theorem block_quote {items : List String} {before value after : String}
    (hitems : joinParts items "\n" = before ++ quote value ++ after) :
    block items =
      "\x7b\n  " ++ indentLines before ++ quote value ++ indentLines after ++ "\n\x7d" := by
  have hne : joinParts items "\n" ≠ "" := by
    rw [hitems]
    intro hempty
    have hnil := congrArg String.toList hempty
    simp [toList_quote] at hnil
  rw [block_of_ne_empty hne, hitems, indentLines_quote]
  simp only [String.append_assoc]

/-! ## Reading printed strings -/

/-- Whatever comes after a printed string, its value is read back, up to its end. -/
theorem readToken_quote {value rest name : String}
    (hfits : (quote value ++ rest).utf8ByteSize < UInt32.size) :
    ∃ stop : UInt32,
      (Source.mk (quote value ++ rest) name).readToken 0 =
          .ok ⟨⟨.string, some value⟩, 0, stop⟩ ∧
        stop.toNat = (quote value).utf8ByteSize := by
  have hlength : (quote value).utf8ByteSize =
      byteLength ('"' :: value.toList.flatMap escapeCharacter ++ ['"']) := by
    rw [utf8ByteSize_eq_byteLength, toList_quote, List.cons_append]
  have hstop : (UInt32.ofNat (quote value).utf8ByteSize).toNat = (quote value).utf8ByteSize := by
    rw [String.utf8ByteSize_append] at hfits
    exact UInt32.toNat_ofNat_of_lt' (by omega)
  have hcount : (Source.mk (quote value ++ rest) name).byteCount < UInt32.size := hfits
  have hchars : (Source.mk (quote value ++ rest) name).chars =
      '"' :: (value.toList.flatMap escapeCharacter ++ '"' :: rest.toList) := by
    simp [Source.chars, toList_quote]
  refine ⟨.ofNat (quote value).utf8ByteSize, ?_, hstop⟩
  apply (Source.readToken_literal_eq_ok_iff hcount hchars).2
  have hitems : StringItems (value.toList.flatMap escapeCharacter) value.toList :=
    stringItems_flatMap value.toList
  refine ⟨_, value.toList, rest.toList, rfl, hitems, ?_, rfl, hstop.trans hlength⟩
  rw [String.ofList_toList]

/-- A printed string is read back as its value whatever comes after it; and since there is
neither a control character nor a line end in it, a block around it leaves it as it is. -/
theorem quote_isExact (value : String) :
    (∀ rest name : String, (quote value ++ rest).utf8ByteSize < UInt32.size →
        ∃ stop : UInt32,
          (Source.mk (quote value ++ rest) name).readToken 0 =
              .ok ⟨⟨.string, some value⟩, 0, stop⟩ ∧
            stop.toNat = (quote value).utf8ByteSize) ∧
      (∀ c ∈ (quote value).toList, ¬ IsControl c ∧ ¬ EndsLine c) ∧
      ∀ (items : List String) (before after : String),
        joinParts items "\n" = before ++ quote value ++ after →
          block items =
            "\x7b\n  " ++ indentLines before ++ quote value ++ indentLines after ++ "\n\x7d" :=
  ⟨fun _ _ => readToken_quote, mem_quote value, fun _ _ _ => block_quote⟩

/-- A value with all kinds of characters, printed in front of another quotation mark. -/
theorem quote_isExact_before_quotationMark :
    let value := "a\"\n\u007F\u2028😀"
    quote value = "\"a\\\"\\n\\u007F\\u2028😀\"" ∧
      (quote value ++ "\"").utf8ByteSize < UInt32.size ∧
        ∃ stop : UInt32,
          (Source.mk (quote value ++ "\"") "").readToken 0 =
              .ok ⟨⟨.string, some value⟩, 0, stop⟩ ∧
            stop.toNat = 23 := by
  intro value
  have hquote : quote value = "\"a\\\"\\n\\u007F\\u2028😀\"" := by decide
  have hfits : (quote value ++ "\"").utf8ByteSize < UInt32.size := by decide
  obtain ⟨stop, hread, hstop⟩ := (quote_isExact value).1 "\"" "" hfits
  refine ⟨hquote, hfits, stop, hread, ?_⟩
  rw [hstop, hquote]
  decide

end GraphQLSyntax
