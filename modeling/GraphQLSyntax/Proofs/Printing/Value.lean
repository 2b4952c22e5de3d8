import GraphQLSyntax.Printing.Value
import GraphQLSyntax.Proofs.Printing.Layout

/-!
# Printed names, types, values and directives

What is printed for a well-formed node is written from just the lexemes of the node.
-/

namespace GraphQLSyntax

variable {α β : Type} {degree : Degree}

/-! ## Punctuation and keywords -/

theorem written_punctuator {c : Char} {kind : TokenKind}
    (h : TokenKind.ofPunctuator? c = some kind) : Written [c] [.bare kind] :=
  Lexeme.SpelledAs.written (.punctuator c kind h)

/-- A colon and a space, as they stand between a name and what it is the name of. -/
theorem written_colon : Written ": ".toList [.bare .colon] :=
  (written_punctuator rfl).append (.blank ' ' rfl .nil) (apart_of_all (by decide))

theorem endsWord_colon : EndsWord ": ".toList :=
  endsWord_of_all (by decide)

/-- Two texts with a colon between them. -/
theorem Written.colon {s t : String} {ls ms : List Lexeme} (h : Written s.toList ls)
    (h' : Written t.toList ms) : Written (s ++ ": " ++ t).toList (ls ++ .bare .colon :: ms) := by
  rw [String.append_assoc]
  exact h.concat (written_colon.concat h' (apart_of_all (by decide)))
    (apart_of_endsWord (endsWord_concat (by decide) endsWord_colon t))

/-- A keyword and a space. -/
theorem written_keyword {lead word : String} (hword : isName word = true)
    (hlead : lead.toList = word.toList ++ [' ']) : Written lead.toList [.ofName word] := by
  rw [hlead]
  exact .token (.name word hword) (apart_of_endsWord (endsWord_of_all (by decide)))
    (.blank ' ' rfl .nil)

/-- A text between two punctuators. -/
theorem Written.between {s t u : String} {l m : Lexeme} {ls : List Lexeme}
    (hs : Written s.toList [l]) (hu : Written u.toList [m])
    (hlast : s.toList.getLast?.all (fun c => !isNameRest c) = true)
    (hfirst : u.toList.head?.all (fun c => !(isNameRest c || c == '.')) = true)
    (h : Written t.toList ls) : Written (s ++ t ++ u).toList (l :: ls ++ [m]) :=
  (hs.concat h (apart_of_all hlast)).concat hu (apart_of_endsWord (endsWord_of_all hfirst))

/-- A text in brackets. -/
theorem Written.bracketed {t : String} {ls : List Lexeme} (h : Written t.toList ls) :
    Written ("[" ++ t ++ "]").toList (.bare .bracketOpen :: ls ++ [.bare .bracketClose]) :=
  .between (written_punctuator rfl) (written_punctuator rfl) (by decide) (by decide) h

/-! ## Names and types -/

theorem Name.WellFormed.written {x : Name α} (h : x.WellFormed) :
    Written x.print.toList (spell x.terminals) :=
  Lexeme.SpelledAs.written (.name x.value h)

theorem NamedType.WellFormed.written {x : NamedType α} (h : x.WellFormed) :
    Written x.print.toList (spell x.terminals) :=
  Name.WellFormed.written h

theorem Variable.WellFormed.written {x : Variable α} (h : x.WellFormed) :
    Written x.print.toList (spell x.terminals) :=
  (written_punctuator rfl).concat (s := "$") (Name.WellFormed.written h)
    (apart_of_all (by decide))

mutual

theorem TypeRef.WellFormed.written :
    ∀ {x : TypeRef α}, x.WellFormed → Written x.print.toList (spell x.terminals)
  | .named _, h => NamedType.WellFormed.written h
  | .list _, h => ListType.WellFormed.written h
  | .nonNull _, h => NonNullType.WellFormed.written h

theorem ListType.WellFormed.written :
    ∀ {x : ListType α}, x.WellFormed → Written x.print.toList (spell x.terminals)
  | ⟨item, _⟩, h => by
    have hitem : Written item.print.toList (spell item.terminals) := TypeRef.WellFormed.written h
    simpa [ListType.terminals, ListType.print] using hitem.bracketed

theorem NullableTypeRef.WellFormed.written :
    ∀ {x : NullableTypeRef α}, x.WellFormed → Written x.print.toList (spell x.terminals)
  | .named _, h => NamedType.WellFormed.written h
  | .list _, h => ListType.WellFormed.written h

theorem NonNullType.WellFormed.written :
    ∀ {x : NonNullType α}, x.WellFormed → Written x.print.toList (spell x.terminals)
  | ⟨inner, _⟩, h => by
    have hinner : Written inner.print.toList (spell inner.terminals) :=
      NullableTypeRef.WellFormed.written h
    have hbang : Written "!".toList [.bare .bang] := written_punctuator rfl
    rw [NonNullType.terminals, NonNullType.print, spell_append]
    exact hinner.concat hbang (apart_of_endsWord (endsWord_of_all (by decide)))

end

/-! ## Values -/

theorem BooleanValue.written (x : BooleanValue α) : Written x.print.toList (spell x.terminals) := by
  obtain ⟨_ | _, _⟩ := x
  · exact Lexeme.SpelledAs.written (.name "false" (by decide))
  · exact Lexeme.SpelledAs.written (.name "true" (by decide))

mutual

theorem Value.WellFormed.written :
    ∀ {x : Value α}, x.WellFormed degree → Written x.print.toList (spell x.terminals)
  | .var _, h => Variable.WellFormed.written h
  | .int x, h => Lexeme.SpelledAs.written (.int x.text h)
  | .float x, h => Lexeme.SpelledAs.written (.float x.text h)
  | .string x, _ => Lexeme.SpelledAs.written (.string x.text)
  | .boolean x, _ => x.written
  | .enum x, h => Lexeme.SpelledAs.written (.name x.text h.1)
  | .list ⟨values, _⟩, h => by
    have hvalues := Value.AllWellFormed.written h
    rw [Value.terminals, ListValue.terminals, spell_append, spell_cons]
    exact hvalues.bracketed
  | .object ⟨fields, _⟩, h => by
    have hfields := ObjectField.AllWellFormed.written [] h.2
    rw [Value.terminals, ObjectValue.terminals, spell_append, spell_cons]
    exact .between (s := "\x7b") (u := "\x7d") (written_punctuator rfl) (written_punctuator rfl)
      (by decide) (by decide) hfields

theorem Value.AllWellFormed.written :
    ∀ {xs : List (Value α)}, Value.AllWellFormed degree xs →
      Written (joinParts (Value.printAll xs) ", ").toList (spell (Value.terminalsAll xs))
  | [], _ => .nil
  | x :: xs, h => by
    rw [Value.printAll, Value.terminalsAll, spell_append]
    exact .joinParts_cons isSeparator_comma (Value.WellFormed.written h.1)
      (Value.AllWellFormed.written h.2)

theorem ObjectField.AllWellFormed.written (taken : List String) :
    ∀ {xs : List (ObjectField α)}, ObjectField.AllWellFormed degree xs →
      Written (joinParts (ObjectField.printAll xs) ", ").toList
        (spell (ObjectField.terminalsAll taken xs))
  | [], _ => .nil
  | ⟨name, value, _⟩ :: xs, ⟨⟨hname, hvalue⟩, hxs⟩ => by
    rw [ObjectField.printAll, ObjectField.terminalsAll, spell_append]
    exact .joinParts_cons isSeparator_comma
      ((Name.WellFormed.written hname).colon (Value.WellFormed.written hvalue))
      (ObjectField.AllWellFormed.written _ hxs)

end

theorem Value.terminals_ne_nil (x : Value α) : x.terminals ≠ [] := by
  rcases x with _ | _ | _ | _ | _ | _ | ⟨_, _⟩ | ⟨_, _⟩ <;>
    simp [Value.terminals, Variable.terminals, Literal.terminals, BooleanValue.terminals,
      ListValue.terminals, ObjectValue.terminals]

theorem Argument.WellFormed.written {x : Argument α} (h : x.WellFormed degree) :
    Written x.print.toList (spell x.terminals) := by
  simpa [Argument.terminals, Argument.print, Name.print] using h.1.written.colon h.2.written

theorem Argument.written_list {xs : List (Argument α)} (h : ∀ x ∈ xs, x.WellFormed degree) :
    Written (Argument.printList xs).toList
      (spell (parenthesizedTerminals Argument.terminals xs)) :=
  .parenthesized (fun x hx => (h x hx).written) fun x => by simp [Argument.terminals]

theorem Directive.WellFormed.written {x : Directive α} (h : x.WellFormed degree) :
    Written x.print.toList (spell x.terminals) := by
  have hat : Written "@".toList [.bare .atSign] := written_punctuator rfl
  have hname := hat.concat h.1.written (apart_of_all (by decide))
  have hall := hname.concat (Argument.written_list h.2)
    (apart_of_endsWord (endsWord_enclose (by decide) (endsWord_of_all (by decide)) _ _))
  simpa [Directive.terminals, Directive.print, Name.print] using hall

theorem Directive.written_list {xs : List (Directive α)} (h : ∀ x ∈ xs, x.WellFormed degree) :
    Written (Directive.printList xs).toList (spell (xs.flatMap Directive.terminals)) :=
  .joinParts_map isSeparator_space fun x hx => (h x hx).written

theorem Value.DefaultWellFormed.written {x : Option (Value α)}
    (h : Value.DefaultWellFormed degree x) :
    Written (Value.printDefault x).toList (spell (Value.defaultTerminals x)) := by
  cases x with
  | none => exact .nil
  | some x =>
    have hequals : Written " = ".toList [.bare .equals] :=
      .blank ' ' rfl ((written_punctuator rfl).append (.blank ' ' rfl .nil)
        (apart_of_all (by decide)))
    have hempty : Written "".toList [] := .nil
    have hvalue := (h x rfl).1.written.enclose (by simp [spell, x.terminals_ne_nil]) hequals
      hempty (apart_of_all (by decide)) endsWord_nil
    simpa [Value.defaultTerminals, Value.printDefault] using hvalue

end GraphQLSyntax
