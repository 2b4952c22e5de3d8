import GraphQLSyntax.Proofs.Lexical.Cursor
import GraphQLSyntax.Proofs.Lexical.Division

/-!
# Bodies at the limit of offsets

Offsets have 32 bits.  A body of just as many bytes as there are offsets can still be read
if there is something to ignore at its end, since no token ends behind the last offset then.
In a longer body whose last line begins with a token, reading never comes to the end:
whatever offset it starts from, there is a token ahead of it.
-/

namespace GraphQLSyntax

/-! ## As many bytes as there are offsets -/

/-- Reading what is left of a written text that ends with something to ignore. -/
theorem Source.readOn_of_written_blank {source : Source} (hfits : source.byteCount ≤ UInt32.size)
    {limit : Nat} {before cs : List Char} {ls : List Lexeme}
    (hchars : source.chars = before ++ cs) (h : Written cs ls)
    (hblank : ∀ c, cs.getLast? = some c → isBlank c = true) (hlimit : byteLength cs < limit) :
    ∃ (ts : List Token) (token : Token),
      source.readOn limit (source.scanAt (byteLength before)) = ts.map .ok ++ [.ok token] ∧
        token.kind = .eof ∧ ts.map Token.lexeme = ls := by
  induction limit generalizing before cs ls with
  | zero => omega
  | succ limit ih =>
    obtain ⟨scanned, hscan, hcases⟩ := h.scan (byteLength before)
    rw [← scanAt_byteLength hchars] at hscan
    obtain ⟨rfl, heof⟩ | ⟨ms, rfl, hrest⟩ := hcases
    · have hlast : (scanned.token.kind == .eof) = true := beq_iff_eq.2 (congrArg Lexeme.kind heof)
      refine ⟨[], scanned.token, ?_, congrArg Lexeme.kind heof, rfl⟩
      rw [hscan, readOn, if_pos hlast]
      rfl
    · have hkind := h.not_eof scanned.lexeme List.mem_cons_self
      rw [readOn_succ limit hscan hkind]
      rw [scanAt_byteLength hchars] at hscan
      obtain ⟨gap, text, rfl, -, htext, -, hstop⟩ := divides_of_scan hscan hkind
      have hne : scanned.rest ≠ [] := by
        intro hnil
        obtain ⟨c, hc, hink⟩ := htext.exists_getLast?
        rw [hblank c (by rw [hnil, List.append_nil, List.getLast?_append, hc]; rfl)] at hink
        cases hink
      have hchars' : source.chars = (before ++ gap ++ text) ++ scanned.rest := by simp [hchars]
      have hcount := source.byteCount_eq
      have hsize := byteLength_pos hne
      rw [hchars', byteLength_append] at hcount
      rw [← byteLength_append, ← List.append_assoc] at hstop
      have htoNat : scanned.token.stop.toNat = byteLength (before ++ gap ++ text) :=
        hstop ▸ UInt32.toNat_ofNat_of_lt' (by omega)
      have hlast : ∀ c, scanned.rest.getLast? = some c → isBlank c = true := fun c hc =>
        hblank c (by rw [List.getLast?_append, hc]; rfl)
      have htextSize := byteLength_pos htext.ne_nil
      simp only [byteLength_append] at hlimit
      obtain ⟨ts, token, heq, hend, hlexemes⟩ := ih hchars' hrest hlast (by omega)
      refine ⟨scanned.token :: ts, token, ?_, hend, congrArg (_ :: ·) hlexemes⟩
      rw [htoNat, heq]
      rfl

/-- A written body is read as its lexemes if it ends with something to ignore and has no more
bytes than there are offsets. -/
theorem Source.tokens_of_written_blank {source : Source} (hfits : source.byteCount ≤ UInt32.size)
    {ls : List Lexeme} (h : Written source.chars ls)
    (hblank : ∀ c, source.chars.getLast? = some c → isBlank c = true) :
    ∃ (ts : List Token) (token : Token), source.tokens = ts.map .ok ++ [.ok token] ∧
      token.kind = .eof ∧ ts.map Token.lexeme = ls := by
  rw [tokens_eq_readOn_scanAt]
  exact readOn_of_written_blank hfits (List.nil_append _).symm h hblank
    (by simp [byteCount_eq])

/-! ## More bytes -/

/-- Something is left of a text if a line in it begins with something that is not ignored,
provided that a comment in which the text starts ends before that line. -/
theorem skipIgnored_ne_nil {c : Char} (hc : IsInk c) (after : List Char) {inComment : Bool}
    {offset : Nat} {before : List Char} (hstart : before = [] → inComment = false)
    (hline : ∀ d, before.getLast? = some d → d = '\n') :
    (skipIgnored inComment offset (before ++ c :: after)).2 ≠ [] := by
  induction before generalizing inComment offset with
  | nil =>
    rw [hstart rfl, List.nil_append, skipIgnored]
    simp [hc.1, hc.2]
  | cons d before ih =>
    -- A character other than a line feed is not the last one before the line.
    have hmore : d ≠ '\n' → before ≠ [] := by
      rintro hd rfl
      exact hd (hline d rfl)
    have hline' : ∀ e, before.getLast? = some e → e = '\n' := fun e he =>
      hline e (by rw [List.getLast?_cons, he]; rfl)
    rw [List.cons_append, skipIgnored]
    split
    case isTrue hcomment =>
      refine ih (fun hnil => absurd hnil (hmore ?_)) hline'
      rintro rfl
      simp [isLineTerminator] at hcomment
    case isFalse =>
      split
      case isTrue => exact ih (fun _ => rfl) hline'
      case isFalse =>
        split
        case isTrue hsign =>
          refine ih (fun hnil => absurd hnil (hmore ?_)) hline'
          rw [beq_iff_eq.1 hsign]
          decide
        case isFalse => exact List.cons_ne_nil _ _

namespace Source

variable {source : Source} {front after : List Char} {c : Char}

/-- The end is not scanned from any place up to where a line begins with a token. -/
theorem scanAt_ne_eof (hchars : source.chars = front ++ ['\n'] ++ c :: after) (hc : IsInk c)
    {offset : Nat} (hoffset : offset ≤ byteLength (front ++ ['\n'])) {scanned : Scanned}
    (h : source.scanAt offset = .ok scanned) : scanned.lexeme.kind ≠ .eof := by
  have hcount := source.byteCount_eq
  have hsize := byteLength_pos (List.cons_ne_nil c after)
  rw [hchars, byteLength_append] at hcount
  rw [scanAt, if_neg (by omega)] at h
  split at h
  case h_1 cs hcs =>
    obtain ⟨before, hbefore, rfl⟩ := exists_append_of_dropBytes? hcs <| by
      rw [hchars, byteLength_append]
      omega
    obtain ⟨line, rfl, hline⟩ : ∃ line, cs = line ++ c :: after ∧
        ∀ d, line.getLast? = some d → d = '\n' := by
      rw [hchars] at hbefore
      obtain ⟨more, rfl, hmore⟩ | ⟨line, hfront, hcs⟩ := List.append_eq_append_iff.1 hbefore
      · rw [byteLength_append _ more] at hoffset
        cases more with
        | nil => exact ⟨[], hmore.symm, by simp⟩
        | cons d more =>
          have := d.utf8Size_pos
          rw [byteLength_cons] at hoffset
          omega
      · refine ⟨line, hcs, fun d hd => ?_⟩
        have hlast := congrArg List.getLast? hfront
        rw [List.getLast?_concat, List.getLast?_append, hd] at hlast
        exact (Option.some.inj hlast).symm
    have hskip : (skipIgnored false (byteLength before) (line ++ c :: after)).2 ≠ [] :=
      skipIgnored_ne_nil hc after (fun _ => rfl) hline
    exact fun hkind => hskip ((scanToken_covers h).eq_nil hkind)
  case h_2 => cases h

/-- In a body that is too long for its last line to be passed, the end is never read. -/
theorem readOn_ne_eof (hchars : source.chars = front ++ ['\n'] ++ c :: after) (hc : IsInk c)
    (hlong : UInt32.size ≤ byteLength (front ++ ['\n']) + 1) {limit offset : Nat}
    (hoffset : offset < UInt32.size) {token : Token}
    (h : .ok token ∈ source.readOn limit (source.scanAt offset)) : token.kind ≠ .eof := by
  induction limit generalizing offset with
  | zero => cases h
  | succ limit ih =>
    cases hscan : source.scanAt offset with
    | error fault => simp [hscan, readOn] at h
    | ok scanned =>
      have hkind := scanAt_ne_eof hchars hc (by omega) hscan
      rw [readOn_succ limit hscan hkind, List.mem_cons] at h
      obtain heq | h := h
      · obtain rfl := Except.ok.inj heq
        exact hkind
      · exact ih scanned.token.stop.toNat_lt h

theorem tokens_ne_eof (hchars : source.chars = front ++ ['\n'] ++ c :: after) (hc : IsInk c)
    (hlong : UInt32.size ≤ byteLength (front ++ ['\n']) + 1) {token : Token}
    (h : .ok token ∈ source.tokens) : token.kind ≠ .eof := by
  rw [tokens_eq_readOn_scanAt] at h
  exact readOn_ne_eof hchars hc hlong (by decide) h

end Source

end GraphQLSyntax
