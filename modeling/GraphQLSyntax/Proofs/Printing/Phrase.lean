import GraphQLSyntax.Proofs.Printing.Value

/-!
# Phrases

What is printed on one line has no space at either end, and no block begins or ends with it:
it does not begin with a closing brace nor end with an opening one.  Such texts are phrases
here.  Phrases that are joined are a phrase; whatever is printed of names, types, values and
directives is a phrase or nothing at all.
-/

namespace GraphQLSyntax

variable {α β : Type} {degree : Degree}

/-- The text begins with what is neither a space nor a closing brace. -/
def BeginsPlainly (text : String) : Prop :=
  ∃ c ∈ text.toList.head?, c ≠ ' ' ∧ c ≠ '\x7d'

/-- The text ends with what is neither a space nor an opening brace. -/
def EndsPlainly (text : String) : Prop :=
  ∃ c ∈ text.toList.getLast?, c ≠ ' ' ∧ c ≠ '\x7b'

theorem any_head?_iff {text : String} :
    (text.toList.head?.any fun c => c != ' ' && c != '\x7d') = true ↔ BeginsPlainly text := by
  simp [BeginsPlainly, Option.any_eq_true]

theorem any_getLast?_iff {text : String} :
    (text.toList.getLast?.any fun c => c != ' ' && c != '\x7b') = true ↔ EndsPlainly text := by
  simp [EndsPlainly, Option.any_eq_true]

instance (text : String) : Decidable (BeginsPlainly text) :=
  decidable_of_iff _ any_head?_iff

instance (text : String) : Decidable (EndsPlainly text) :=
  decidable_of_iff _ any_getLast?_iff

/-- A text of one line that can stand between spaces and behind an indentation. -/
structure IsPhrase (text : String) : Prop where
  begins : BeginsPlainly text
  ends : EndsPlainly text
  isOneLine : IsOneLine text

/-- A phrase or nothing at all. -/
def IsPhraseOrEmpty (text : String) : Prop :=
  text = "" ∨ IsPhrase text

theorem BeginsPlainly.ne_empty {s : String} (h : BeginsPlainly s) : s ≠ "" := by
  rintro rfl
  obtain ⟨c, hc, -⟩ := h
  cases hc

theorem BeginsPlainly.append {s : String} (h : BeginsPlainly s) (t : String) :
    BeginsPlainly (s ++ t) := by
  obtain ⟨c, hc, hplain⟩ := h
  exact ⟨c, by simp [Option.mem_def.1 hc], hplain⟩

theorem EndsPlainly.append {t : String} (h : EndsPlainly t) (s : String) :
    EndsPlainly (s ++ t) := by
  obtain ⟨c, hc, hplain⟩ := h
  exact ⟨c, by simp [List.getLast?_append, Option.mem_def.1 hc], hplain⟩

/-! ## Joining -/

/-- A text that is neither joined to another one nor put between two others has the ends it
had. -/
theorem IsPhrase.between {s t u : String} (hs : BeginsPlainly s) (hu : EndsPlainly u)
    (hline : IsOneLine s ∧ IsOneLine t ∧ IsOneLine u) : IsPhrase (s ++ t ++ u) where
  begins := by
    rw [String.append_assoc]
    exact hs.append _
  ends := hu.append _
  isOneLine := by
    rw [isOneLine_append_iff, isOneLine_append_iff, and_assoc]
    exact hline

/-- A phrase behind a text that may end in a space. -/
theorem IsPhrase.behind {s t : String} (ht : IsPhrase t) (hs : BeginsPlainly s)
    (hline : IsOneLine s) : IsPhrase (s ++ t) where
  begins := hs.append t
  ends := ht.ends.append s
  isOneLine := isOneLine_append_iff.2 ⟨hline, ht.isOneLine⟩

theorem IsPhrase.append {s t : String} (hs : IsPhrase s) (ht : IsPhrase t) :
    IsPhrase (s ++ t) :=
  ht.behind hs.begins hs.isOneLine

/-- Two phrases with something between them. -/
theorem IsPhrase.join {s t u : String} (hs : IsPhrase s) (ht : IsOneLine t) (hu : IsPhrase u) :
    IsPhrase (s ++ t ++ u) :=
  .between hs.begins hu.ends ⟨hs.isOneLine, ht, hu.isOneLine⟩

theorem IsPhrase.ne_empty {s : String} (h : IsPhrase s) : s ≠ "" :=
  h.begins.ne_empty

theorem isOneLine_empty : IsOneLine "" := by
  decide

theorem IsPhraseOrEmpty.isOneLine {s : String} (h : IsPhraseOrEmpty s) : IsOneLine s := by
  rcases h with rfl | h
  · exact isOneLine_empty
  · exact h.isOneLine

theorem IsPhrase.append_or_empty {s t : String} (hs : IsPhrase s) (ht : IsPhraseOrEmpty t) :
    IsPhrase (s ++ t) := by
  rcases ht with rfl | ht
  · rwa [String.append_empty]
  · exact hs.append ht

/-- Something that is put behind a phrase, or nothing. -/
theorem IsPhrase.append_enclose {s t before : String} (hs : IsPhrase s) (ht : IsPhraseOrEmpty t)
    (hbefore : IsOneLine before) : IsPhrase (s ++ enclose before t "") := by
  rcases ht with rfl | ht
  · rwa [enclose_empty, String.append_empty]
  · rw [enclose_of_ne ht.ne_empty, String.append_empty, ← String.append_assoc]
    exact hs.join hbefore ht

/-- Something between two delimiters, or nothing. -/
theorem isPhraseOrEmpty_enclose {before t after : String} (hbefore : BeginsPlainly before)
    (hafter : EndsPlainly after) (hline : IsOneLine before ∧ IsOneLine t ∧ IsOneLine after) :
    IsPhraseOrEmpty (enclose before t after) := by
  unfold enclose
  split
  · exact .inl rfl
  · exact .inr (.between hbefore hafter hline)

section Parts

variable {parts : List String} {separator : String}

theorem IsPhrase.joinParts_cons {part : String} (hpart : IsPhrase part)
    (hseparator : IsOneLine separator) (h : IsPhraseOrEmpty (joinParts parts separator)) :
    IsPhrase (joinParts (part :: parts) separator) := by
  obtain ⟨-, heq⟩ | ⟨hne, heq⟩ := GraphQLSyntax.joinParts_cons hpart.ne_empty parts separator
  · rwa [heq]
  · rw [heq]
    exact hpart.join hseparator (h.resolve_left hne)

theorem isPhraseOrEmpty_joinParts (hseparator : IsOneLine separator)
    (h : ∀ part ∈ parts, IsPhraseOrEmpty part) : IsPhraseOrEmpty (joinParts parts separator) := by
  induction parts with
  | nil => exact .inl rfl
  | cons part parts ih =>
    obtain ⟨hpart, hparts⟩ := List.forall_mem_cons.1 h
    rcases hpart with rfl | hpart
    · rw [joinParts_cons_empty]
      exact ih hparts
    · exact .inr (hpart.joinParts_cons hseparator (ih hparts))

theorem isOneLine_joinParts (hseparator : IsOneLine separator)
    (h : ∀ part ∈ parts, IsPhrase part) : IsOneLine (joinParts parts separator) :=
  (isPhraseOrEmpty_joinParts hseparator fun part hpart => .inr (h part hpart)).isOneLine

end Parts

/-- Items that are printed one by one. -/
theorem isPhraseOrEmpty_joinParts_map {print : β → String} {xs : List β} {separator : String}
    (hseparator : IsOneLine separator) (h : ∀ x ∈ xs, IsPhrase (print x)) :
    IsPhraseOrEmpty (joinParts (xs.map print) separator) := by
  refine isPhraseOrEmpty_joinParts hseparator fun part hpart => ?_
  obtain ⟨x, hx, rfl⟩ := List.mem_map.1 hpart
  exact .inr (h x hx)

/-- Items in parentheses, or nothing if there are none. -/
theorem isPhraseOrEmpty_parenthesized {print : β → String} {xs : List β}
    (h : ∀ x ∈ xs, IsPhrase (print x)) :
    IsPhraseOrEmpty (enclose "(" (joinParts (xs.map print) ", ") ")") :=
  isPhraseOrEmpty_enclose (by decide) (by decide)
    ⟨by decide, (isPhraseOrEmpty_joinParts_map (by decide) h).isOneLine, by decide⟩

/-! ## Words -/

theorem isPlain_of_isNameRest {c : Char} (h : isNameRest c = true) :
    c ≠ ' ' ∧ c ≠ '\x7b' ∧ c ≠ '\x7d' := by
  refine ⟨?_, ?_, ?_⟩
  all_goals
    rintro rfl
    exact absurd h (by decide)

/-- A name or a number. -/
theorem isPhrase_of_word {text : String}
    (hfirst : ∃ c cs, text.toList = c :: cs ∧ (c = '-' ∨ isNameRest c = true))
    (hlast : ∃ c, text.toList.getLast? = some c ∧ isNameRest c = true)
    (hink : ∀ c ∈ text.toList, IsInk c) : IsPhrase text := by
  refine ⟨?_, ?_, fun c hc => (hink c hc).not_endsLine⟩
  · obtain ⟨c, cs, heq, hc⟩ := hfirst
    refine ⟨c, by simp [heq], ?_⟩
    rcases hc with rfl | hc
    · decide
    · exact ⟨(isPlain_of_isNameRest hc).1, (isPlain_of_isNameRest hc).2.2⟩
  · obtain ⟨c, heq, hc⟩ := hlast
    exact ⟨c, heq, (isPlain_of_isNameRest hc).1, (isPlain_of_isNameRest hc).2.1⟩

theorem isPhrase_of_isName {text : String} (h : isName text = true) : IsPhrase text := by
  obtain ⟨c, cs, heq, hc, -⟩ := isName_iff.1 h
  exact isPhrase_of_word ⟨c, cs, heq, .inr (isNameRest_of_isNameStart hc)⟩ (isName_getLast? h)
    (isInk_of_isName h)

theorem isPhrase_of_isInteger {text : String} (h : IsInteger text.toList) : IsPhrase text := by
  obtain ⟨c, cs, heq, hc⟩ := h.exists_cons
  exact isPhrase_of_word ⟨c, cs, heq, hc.imp_right isNameRest_of_isDigit⟩ h.getLast? h.isInk

theorem isPhrase_of_isFloat {text : String} (h : IsFloat text.toList) : IsPhrase text := by
  obtain ⟨integer, fraction, hinteger, -, -, heq, hlast⟩ := h.exists_fraction
  obtain ⟨c, cs, rfl, hc⟩ := hinteger.exists_cons
  exact isPhrase_of_word ⟨c, cs ++ fraction, heq, hc.imp_right isNameRest_of_isDigit⟩ hlast h.isInk

theorem isPhrase_quote (text : String) : IsPhrase (quote text) := by
  have heq := toList_quote text
  refine ⟨⟨'"', ?_, by decide⟩, ⟨'"', ?_, by decide⟩, ?_⟩
  · rw [heq]
    rfl
  · rw [heq, ← List.cons_append]
    exact List.getLast?_concat
  · exact Lexeme.SpelledAs.not_endsLine (.string text)

/-! ## Names and types -/

theorem Name.WellFormed.isPhrase {x : Name α} (h : x.WellFormed) : IsPhrase x.value :=
  isPhrase_of_isName h

theorem NamedType.WellFormed.isPhrase {x : NamedType α} (h : x.WellFormed) : IsPhrase x.print :=
  isPhrase_of_isName h

theorem Variable.WellFormed.isPhrase {x : Variable α} (h : x.WellFormed) : IsPhrase x.print :=
  (Name.WellFormed.isPhrase h).behind (by decide) (by decide)

mutual

theorem TypeRef.WellFormed.isPhrase : ∀ {x : TypeRef α}, x.WellFormed → IsPhrase x.print
  | .named _, h => NamedType.WellFormed.isPhrase h
  | .list _, h => ListType.WellFormed.isPhrase h
  | .nonNull _, h => NonNullType.WellFormed.isPhrase h

theorem ListType.WellFormed.isPhrase : ∀ {x : ListType α}, x.WellFormed → IsPhrase x.print
  | ⟨item, _⟩, h => by
    have hitem : IsPhrase item.print := TypeRef.WellFormed.isPhrase h
    exact .between (by decide) (by decide) ⟨by decide, hitem.isOneLine, by decide⟩

theorem NullableTypeRef.WellFormed.isPhrase :
    ∀ {x : NullableTypeRef α}, x.WellFormed → IsPhrase x.print
  | .named _, h => NamedType.WellFormed.isPhrase h
  | .list _, h => ListType.WellFormed.isPhrase h

theorem NonNullType.WellFormed.isPhrase : ∀ {x : NonNullType α}, x.WellFormed → IsPhrase x.print
  | ⟨inner, _⟩, h => by
    have hinner : IsPhrase inner.print := NullableTypeRef.WellFormed.isPhrase h
    exact hinner.append ⟨by decide, by decide, by decide⟩

end

/-! ## Values -/

mutual

theorem Value.WellFormed.isPhrase : ∀ {x : Value α}, x.WellFormed degree → IsPhrase x.print
  | .var _, h => Variable.WellFormed.isPhrase h
  | .int _, h => isPhrase_of_isInteger h
  | .float _, h => isPhrase_of_isFloat h
  | .string x, _ => isPhrase_quote x.text
  | .boolean ⟨value, _⟩, _ => by
    have hwords : isName "false" = true ∧ isName "true" = true := by decide
    cases value
    · exact isPhrase_of_isName hwords.1
    · exact isPhrase_of_isName hwords.2
  | .enum _, h => isPhrase_of_isName h.1
  | .list ⟨values, _⟩, h => by
    have hvalues : IsOneLine (joinParts (Value.printAll values) ", ") :=
      isOneLine_joinParts (by decide) (Value.AllWellFormed.isPhrase h)
    exact .between (by decide) (by decide) ⟨by decide, hvalues, by decide⟩
  | .object ⟨fields, _⟩, h => by
    have hfields : IsOneLine (joinParts (ObjectField.printAll fields) ", ") :=
      isOneLine_joinParts (by decide) (ObjectField.AllWellFormed.isPhrase h.2)
    exact .between (by decide) (by decide) ⟨by decide, hfields, by decide⟩

theorem Value.AllWellFormed.isPhrase :
    ∀ {xs : List (Value α)}, Value.AllWellFormed degree xs →
      ∀ part ∈ Value.printAll xs, IsPhrase part
  | [], _ => List.forall_mem_nil _
  | _ :: _, h =>
    List.forall_mem_cons.2 ⟨Value.WellFormed.isPhrase h.1, Value.AllWellFormed.isPhrase h.2⟩

theorem ObjectField.AllWellFormed.isPhrase :
    ∀ {xs : List (ObjectField α)}, ObjectField.AllWellFormed degree xs →
      ∀ part ∈ ObjectField.printAll xs, IsPhrase part
  | [], _ => List.forall_mem_nil _
  | ⟨_, _, _⟩ :: _, ⟨⟨hname, hvalue⟩, hxs⟩ =>
    List.forall_mem_cons.2
      ⟨hname.isPhrase.join (by decide) (Value.WellFormed.isPhrase hvalue),
        ObjectField.AllWellFormed.isPhrase hxs⟩

end

theorem Argument.WellFormed.isPhrase {x : Argument α} (h : x.WellFormed degree) :
    IsPhrase x.print :=
  h.1.isPhrase.join (by decide) h.2.isPhrase

theorem Argument.isPhraseOrEmpty_printList {xs : List (Argument α)}
    (h : ∀ x ∈ xs, x.WellFormed degree) : IsPhraseOrEmpty (Argument.printList xs) :=
  isPhraseOrEmpty_parenthesized fun x hx => (h x hx).isPhrase

theorem Directive.WellFormed.isPhrase {x : Directive α} (h : x.WellFormed degree) :
    IsPhrase x.print :=
  (h.1.isPhrase.behind (by decide) (by decide)).append_or_empty
    (Argument.isPhraseOrEmpty_printList h.2)

theorem Directive.isPhraseOrEmpty_printList {xs : List (Directive α)}
    (h : ∀ x ∈ xs, x.WellFormed degree) : IsPhraseOrEmpty (Directive.printList xs) :=
  isPhraseOrEmpty_joinParts_map (by decide) fun x hx => (h x hx).isPhrase

/-- A type and the value that is the default, if there is one. -/
theorem Value.DefaultWellFormed.isPhrase {text : String} (htext : IsPhrase text)
    {x : Option (Value α)} (h : Value.DefaultWellFormed degree x) :
    IsPhrase (text ++ Value.printDefault x) := by
  cases x with
  | none => exact htext.append_enclose (.inl rfl) (by decide)
  | some x => exact htext.append_enclose (.inr (h x rfl).1.isPhrase) (by decide)

end GraphQLSyntax
