import GraphQLSyntax.Proofs.Location.Executable
import GraphQLSyntax.Proofs.Location.Schema

/-!
# Documents that are laid out

The definitions of a document lie over all tokens before the end.  Looking for the end
consumes it, so the tag of a document, unlike any other, reaches up to the end token.
-/

namespace GraphQLSyntax

open GraphQLSyntax.Parser

variable {δ : Type}

namespace Parser

section

variable {γ : Type → Type} [∀ α, SizeOf (γ α)] [Part γ] {limit : Nat}
variable {s s' : ParserState} {xs : List (γ Tag)}

/-- The items take up everything that comes before the end. -/
theorem untilEnd_tiles {item : Parser (γ Tag)} (hitem : LaysOut anything item fun x => [.part x])
    (hs : s.Locates) (h : untilEnd item limit s = .ok xs s') :
    ∃ (u : List Token) (token : Token), s.readings = u.map .ok ++ [.ok token] ∧
      token.kind = .eof ∧ s'.lastStop = token.stop ∧ s'.options = {} ∧
        Tiles (Piece.parts xs) u ∧ xs ≠ [] := by
  induction limit generalizing s xs with
  | zero => cases h
  | succ limit ih =>
    obtain ⟨x, s₁, hx, h⟩ := bind_eq_ok h
    obtain ⟨u, hu, htiles⟩ := hitem s x s₁ hs trivial hx
    obtain ⟨b, s₂, hskip, h⟩ := bind_eq_ok h
    obtain ⟨heof, hnil⟩ | ⟨hkind, -⟩ := (hu.locates hs).isStream.of_ok_cons
    · have hkind : s₁.ahead.kind = .eof := congrArg Lexeme.kind heof
      rw [skipEnd_of_eof hkind hnil] at hskip
      cases hskip
      cases h
      exact ⟨u, s₁.ahead, by rw [hu.readings_eq, ParserState.readings, hnil], hkind, rfl,
        (hu.locates hs).options_eq, htiles, nofun⟩
    · rw [skipEnd_of_ne hkind] at hskip
      cases hskip
      obtain ⟨ys, s₃, hys, h⟩ := bind_eq_ok h
      cases h
      obtain ⟨v, token, heq, hend, hstop, hoptions, htiles', -⟩ := ih (hu.locates hs) hys
      refine ⟨u ++ v, token, ?_, hend, hstop, hoptions, htiles.append htiles', nofun⟩
      rw [hu.readings_eq, heq, List.map_append, List.append_assoc]

/-- A run of a parser of documents makes a document of what takes up the tokens. -/
theorem run_tiles {item : Nat → Parser (γ Tag)} {f : List (γ Tag) → Tag → δ}
    (hitem : ∀ n, LaysOut anything (item n) fun x => [.part x]) {source : Source}
    {readings : List Reading} (hs : IsStream readings) {y : δ}
    (h : run (fun n => do
      let start ← here
      let xs ← untilEnd (item n) n
      return f xs (← ParserCore.mark start)) source {} readings = .ok y) :
    ∃ (xs : List (γ Tag)) (m : Tag) (ts : List Token) (token : Token), y = f xs m ∧
      readings = ts.map .ok ++ [.ok token] ∧ token.kind = .eof ∧ Tiles (Piece.parts xs) ts ∧
      ts.head?.map Token.start = some m.start ∧ m.stop = token.stop := by
  rcases readings with _ | ⟨fault | ahead, upcoming⟩
  · cases h
  · cases h
  · rw [run] at h
    split at h
    · rename_i hrun
      obtain rfl := Except.ok.inj h
      obtain ⟨start, s₁, hstart, hrun⟩ := bind_eq_ok hrun
      cases hstart
      obtain ⟨xs, s₂, hxs, hrun⟩ := bind_eq_ok hrun
      have hlocates : ParserState.Locates { source, options := {}, ahead, upcoming } := ⟨rfl, hs⟩
      obtain ⟨ts, token, heq, hkind, hstop, hoptions, htiles, hne⟩ :=
        untilEnd_tiles (hitem _) hlocates hxs
      obtain ⟨m, s₃, hm, hrun⟩ := bind_eq_ok hrun
      cases hm
      cases hrun
      obtain ⟨t, ts, rfl⟩ := List.exists_cons_of_ne_nil
        (htiles.ne_nil (by simpa [Piece.parts] using hne))
      obtain rfl := Except.ok.inj (List.cons.inj heq).1
      refine ⟨xs, _, _ :: ts, token, rfl, heq, hkind, htiles, ?_, ?_⟩
      · rw [hoptions]
        rfl
      · rw [hoptions, ← hstop]
        rfl
    · cases h

end

end Parser

/-- A tree and the tokens that it was read from, the end coming behind them. -/
structure Node.IsDocumentOver (n : Node Tag) (ts : List Token) (token : Token) : Prop where
  isWritten : n.IsWritten
  tiles : Tiles n.pieces ts
  start_eq : ts.head?.map Token.start = some n.tag.start
  stop_eq : n.tag.stop = token.stop

/-- What is parsed by default options lies over the tokens of the source. -/
theorem Source.parseNode_isDocumentOver {source : Source} (hs : IsStream source.tokens)
    {grammar : Grammar} {t : Node Tag} (h : source.parseNode grammar {} = .ok t) :
    ∃ (ts : List Token) (token : Token), source.tokens = ts.map .ok ++ [.ok token] ∧
      token.kind = .eof ∧ t.IsDocumentOver ts token := by
  have hrun := runParser_of_parseNode h
  cases grammar with
  | executable =>
    obtain ⟨d, hd, rfl⟩ := exists_eq_ok_of_map hrun
    obtain ⟨xs, m, ts, token, rfl, heq, hkind, htiles, hstart, hstop⟩ :=
      run_tiles (fun _ => laysOut_definition) hs hd
    exact ⟨ts, token, heq, hkind, trivial, htiles, hstart, hstop⟩
  | schema =>
    obtain ⟨d, hd, rfl⟩ := exists_eq_ok_of_map hrun
    obtain ⟨xs, m, ts, token, rfl, heq, hkind, htiles, hstart, hstop⟩ :=
      run_tiles (fun _ => laysOut_schemaDefinition) hs hd
    exact ⟨ts, token, heq, hkind, trivial, htiles, hstart, hstop⟩

end GraphQLSyntax
