import GraphQLSyntax.Proofs.Lexical.Written

/-!
# What a scanner does not see

A scanner takes its text whatever the offset is that it starts from, and of what comes
after the text it sees the first character at most.  So a text may be cut off anywhere
behind a token, and ignored text may be put there: the token is scanned as it was before.
-/

namespace GraphQLSyntax

theorem head?_of_isPrefix {c : Char} {cs ds : List Char} (hpre : ds <+: cs)
    (h : ds.head? = some c) : cs.head? = some c := by
  obtain ⟨es, rfl⟩ := hpre
  rw [List.head?_append, h]
  rfl

/-- The text begins with something that can be seen only if the other text begins with it. -/
def BeginsAs (cs ds : List Char) : Prop :=
  ∀ c, cs.head? = some c → IsInk c → ds.head? = some c

namespace BeginsAs

variable {cs ds es : List Char}

theorem refl (cs : List Char) : BeginsAs cs cs :=
  fun _ hc _ => hc

theorem trans (h : BeginsAs cs ds) (h' : BeginsAs ds es) : BeginsAs cs es :=
  fun c hc hink => h' c (h c hc hink) hink

theorem of_isPrefix (hpre : cs <+: ds) : BeginsAs cs ds :=
  fun _ hc _ => head?_of_isPrefix hpre hc

theorem of_head? (h : cs.head? = ds.head?) : BeginsAs cs ds :=
  fun _ hc _ => h ▸ hc

/-- What a token could go on with is not at the front of ignored text. -/
theorem of_not_isInk (h : ∀ c, cs.head? = some c → ¬ IsInk c) (ds : List Char) :
    BeginsAs cs ds :=
  fun c hc hink => absurd hink (h c hc)

/-- Behind the same text, only the first characters of what is left may differ. -/
theorem append (h : BeginsAs cs ds) (text : List Char) : BeginsAs (text ++ cs) (text ++ ds) := by
  cases text with
  | nil => exact h
  | cons => exact of_head? rfl

end BeginsAs

theorem NoHead.of_beginsAs {p : Char → Bool} {cs ds : List Char} (h : NoHead p cs)
    (hink : ∀ c, p c = true → IsInk c) (hbegins : BeginsAs ds cs) : NoHead p ds := by
  intro c hc
  rw [← Bool.not_eq_true]
  intro hp
  rw [h c (hbegins c hc (hink c hp))] at hp
  exact Bool.false_ne_true hp

theorem NoHead.noDigit_of_beginsAs {cs ds : List Char} (h : NoHead Char.isDigit cs)
    (hbegins : BeginsAs ds cs) : NoHead Char.isDigit ds :=
  h.of_beginsAs (fun _ hc => isInk_of_isNameRest (isNameRest_of_isDigit hc)) hbegins

/-- The text is taken for the lexeme, wherever it starts and whatever comes after it, unless
that begins with something else than the rest that a token could go on with. -/
def Takes (text : List Char) (lexeme : Lexeme) (rest : List Char) : Prop :=
  ∀ start rest', BeginsAs rest' rest →
    scanToken start (text ++ rest') = .ok ⟨lexeme, start, start + byteLength text, rest'⟩

/-! ## Numbers -/

theorem scanExponent_cut {offset : Nat} {exponent rest rest' : List Char}
    (h : scanExponent offset (exponent ++ rest) = .ok (exponent, rest))
    (hbegins : BeginsAs rest' rest) (offset' : Nat) :
    scanExponent offset' (exponent ++ rest') = .ok (exponent, rest') := by
  obtain ⟨hform, -, hnone, hsome⟩ := scanExponent_eq_ok_iff.1 h
  refine scanExponent_eq_ok_iff.2 ⟨hform, rfl, ?_, fun hne =>
    (hsome hne).noDigit_of_beginsAs hbegins⟩
  rintro rfl hletter
  exact hnone rfl (hbegins 'e' hletter ⟨by decide, by decide⟩)

theorem scanFraction_cut {offset : Nat} {fraction rest rest' : List Char}
    (h : scanFraction offset (fraction ++ rest) = .ok (fraction, rest))
    (hbegins : BeginsAs rest' rest) (offset' : Nat) :
    scanFraction offset' (fraction ++ rest') = .ok (fraction, rest') := by
  by_cases hpoint : (fraction ++ rest).head? = some '.'
  · obtain ⟨afterPoint, heq⟩ := List.head?_eq_some_iff.1 hpoint
    rw [heq, scanFraction] at h
    obtain ⟨⟨digits, afterDigits⟩, hdigits, h⟩ := bind_eq_ok_iff.1 h
    obtain ⟨⟨exponent, rest₁⟩, hexponent, h⟩ := bind_eq_ok_iff.1 h
    obtain ⟨rfl, rfl⟩ := Prod.mk.inj (Except.ok.inj h)
    obtain ⟨hform, -, hafter⟩ := scanDigits_eq_ok_iff.1 hdigits
    obtain ⟨-, rfl, -⟩ := scanExponent_eq_ok_iff.1 hexponent
    have hafter' : NoHead Char.isDigit (exponent ++ rest') :=
      hafter.noDigit_of_beginsAs (hbegins.append exponent)
    have hcs : '.' :: digits ++ exponent ++ rest' = '.' :: (digits ++ (exponent ++ rest')) := by
      simp
    rw [hcs, scanFraction, scanDigits_eq_ok_iff.2 ⟨hform, rfl, hafter'⟩]
    show Bind.bind (scanExponent _ _) _ = _
    rw [scanExponent_cut hexponent hbegins]
    rfl
  · -- Without a point, nothing is taken.
    have hnone : ∀ offset cs, cs.head? ≠ some '.' → scanFraction offset cs = .ok ([], cs) := by
      intro offset cs hcs
      rw [scanFraction]
      rintro rest rfl
      exact hcs rfl
    rw [hnone _ _ hpoint] at h
    obtain ⟨rfl, -⟩ := Prod.mk.inj (Except.ok.inj h)
    exact hnone _ _ fun hpoint' => hpoint (hbegins '.' hpoint' ⟨by decide, by decide⟩)

theorem scanNumber_takes {start : Nat} {c : Char} {cs : List Char} {scanned : Scanned}
    (h : scanNumber start (c :: cs) = .ok scanned) :
    ∃ text, cs = text ++ scanned.rest ∧ Takes (c :: text) scanned.lexeme scanned.rest := by
  obtain ⟨integer, fraction, rest, _, hinteger, hform, hcs, hafter, hfraction, rfl⟩ :=
    scanNumber_parts h
  have hascii := isAscii_append hinteger.isAscii hform.isAscii
  obtain ⟨c, ds, hfirst, hc⟩ := hinteger.exists_cons
  rw [hfirst, List.cons_append, List.cons_append] at hcs
  obtain ⟨rfl, rfl⟩ := List.cons.inj hcs
  refine ⟨ds ++ fraction, rfl, fun start' rest' hbegins => ?_⟩
  have hafter' : NoHead Char.isDigit (fraction ++ rest') :=
    hafter.noDigit_of_beginsAs (hbegins.append fraction)
  have hscan := scanNumber_of_parts start' hinteger hafter' (scanFraction_cut hfraction hbegins)
  rw [hfirst, List.cons_append, List.cons_append, ← scanToken_of_sign_or_digit hc] at hscan
  rw [List.cons_append, hscan, ← List.cons_append, ← hfirst, hascii.byteLength_eq]

/-! ## Names -/

theorem scanName_takes {start : Nat} {c : Char} {cs : List Char} (hc : isNameStart c = true) :
    ∃ text, cs = text ++ (scanName start (c :: cs)).rest ∧
      Takes (c :: text) (scanName start (c :: cs)).lexeme (scanName start (c :: cs)).rest := by
  obtain ⟨text, rest, rfl, htext, hrest⟩ := exists_name_run hc cs
  rw [← List.cons_append, scanName_run start htext hrest]
  refine ⟨text, rfl, fun start' rest' hbegins => ?_⟩
  have hrest' : NoHead isNameRest rest' :=
    hrest.of_beginsAs (fun _ => isInk_of_isNameRest) hbegins
  rw [List.cons_append, scanToken_of_isNameStart hc, ← List.cons_append,
    scanName_run start' htext hrest',
    (isAscii_of_isNameRest htext).byteLength_eq]

/-! ## All tokens -/

theorem scanString_takes {start : Nat} {cs : List Char} {scanned : Scanned}
    (h : scanString start cs = .ok scanned) :
    ∃ text, cs = text ++ scanned.rest ∧
      Takes ('"' :: text) scanned.lexeme scanned.rest := by
  obtain ⟨⟨contents, stop, rest⟩, hcontents, h⟩ := bind_eq_ok_iff.1 h
  obtain rfl := Except.ok.inj h
  obtain ⟨text, rfl, -, hread⟩ := scanContents_reads hcontents
  refine ⟨text, rfl, fun start' rest' _ => ?_⟩
  have hstring : scanToken start' ('"' :: text ++ rest') = scanString start' (text ++ rest') := rfl
  rw [hstring, scanString, hread, byteLength_cons, show '"'.utf8Size = 1 by decide,
    ← Nat.add_assoc]
  rfl

/-- A token is scanned from the first character on, whatever its kind. -/
theorem scanToken_takes {start : Nat} {c : Char} {cs : List Char} {scanned : Scanned}
    (h : scanToken start (c :: cs) = .ok scanned) :
    ∃ text, cs = text ++ scanned.rest ∧
      Takes (c :: text) scanned.lexeme scanned.rest := by
  have hscans := scansToken start c cs
  generalize scanToken start (c :: cs) = result at h hscans
  cases hscans with
  | punctuator _ hkind =>
    obtain rfl := Except.ok.inj h
    refine ⟨[], rfl, fun start' rest' _ => ?_⟩
    rw [byteLength_cons, (ofPunctuator?_hasValue hkind).1, List.singleton_append, scanToken, hkind]
    rfl
  | spread =>
    obtain rfl := Except.ok.inj h
    exact ⟨['.', '.'], rfl, fun _ _ _ => rfl⟩
  | name _ hc =>
    obtain rfl := Except.ok.inj h
    exact scanName_takes hc
  | number => exact scanNumber_takes h
  | string => exact scanString_takes h
  | nothing => cases h

/-! ## Blanks and comments -/

/-- Blanks and comments end at the first character that is neither, wherever they start. -/
theorem skipIgnored_reads {inComment : Bool} {offset start : Nat} {cs text : List Char} {c : Char}
    (h : skipIgnored inComment offset cs = (start, c :: text)) :
    IsInk c ∧ ∃ ignored, cs = ignored ++ c :: text ∧ ∀ offset' text',
      skipIgnored inComment offset' (ignored ++ c :: text') =
        (offset' + byteLength ignored, c :: text') := by
  induction cs generalizing inComment offset with
  | nil => simp [skipIgnored] at h
  | cons d cs ih =>
    -- A character that is left out comes in front of what else is ignored.
    have hskip : ∀ {inComment'}, (∀ offset' cs', skipIgnored inComment offset' (d :: cs') =
          skipIgnored inComment' (offset' + d.utf8Size) cs') →
        IsInk c ∧ ∃ ignored, d :: cs = ignored ++ c :: text ∧ ∀ offset' text',
          skipIgnored inComment offset' (ignored ++ c :: text') =
            (offset' + byteLength ignored, c :: text') := by
      intro inComment' hstep
      obtain ⟨hc, ignored, rfl, hreads⟩ := ih ((hstep ..).symm.trans h)
      refine ⟨hc, d :: ignored, rfl, fun offset' text' => ?_⟩
      rw [List.cons_append, hstep, hreads, byteLength_cons, Nat.add_assoc]
    by_cases hcomment : (inComment && !isLineTerminator d) = true
    · exact hskip fun _ _ => by rw [skipIgnored, if_pos hcomment]
    · by_cases hblank : isBlank d = true
      · exact hskip fun _ _ => by rw [skipIgnored, if_neg hcomment, if_pos hblank]
      · by_cases hsign : (d == '#') = true
        · exact hskip fun _ _ => by rw [skipIgnored, if_neg hcomment, if_neg hblank, if_pos hsign]
        · have hstop : ∀ offset' cs', skipIgnored inComment offset' (d :: cs') =
              (offset', d :: cs') := fun _ _ => by
            rw [skipIgnored, if_neg hcomment, if_neg hblank, if_neg hsign]
          obtain ⟨-, hcs⟩ := Prod.mk.inj ((hstop ..).symm.trans h)
          obtain ⟨rfl, rfl⟩ := List.cons.inj hcs
          exact ⟨⟨by simpa using hblank, by simpa using hsign⟩, [], rfl, hstop⟩

/-- Before the rest, and before whatever begins as the rest does, what is scanned is the
lexeme, from the text that comes after what is ignored. -/
def ScansAs (ignored text : List Char) (lexeme : Lexeme) (rest : List Char) : Prop :=
  ∀ offset rest', BeginsAs rest' rest → scan offset (ignored ++ text ++ rest') =
    .ok ⟨lexeme, offset + byteLength ignored, offset + byteLength (ignored ++ text), rest'⟩

theorem ScansAs.mono {ignored text rest rest' : List Char} {lexeme : Lexeme}
    (h : ScansAs ignored text lexeme rest) (hbegins : BeginsAs rest' rest) :
    ScansAs ignored text lexeme rest' :=
  fun offset _ hbegins' => h offset _ (hbegins'.trans hbegins)

/-- A token is scanned from a text that may be cut off before it, and changed behind it. -/
theorem scan_local {offset : Nat} {cs : List Char} {scanned : Scanned}
    (h : scan offset cs = .ok scanned) (hkind : scanned.lexeme.kind ≠ .eof) :
    ∃ ignored text, cs = ignored ++ text ++ scanned.rest ∧ text ≠ [] ∧
      ScansAs ignored text scanned.lexeme scanned.rest ∧
      ScansAs [] text scanned.lexeme scanned.rest := by
  cases hskip : skipIgnored false offset cs with
  | mk start text =>
    rw [scan, hskip] at h
    cases text with
    | nil =>
      obtain rfl := Except.ok.inj h
      exact absurd rfl hkind
    | cons c text =>
      obtain ⟨hc, ignored, rfl, hskips⟩ := skipIgnored_reads hskip
      obtain ⟨text, rfl, htakes⟩ := scanToken_takes h
      refine ⟨ignored, c :: text, by simp, by simp, ?_, ?_⟩ <;> intro offset' rest' hbegins
      · have hcs : ignored ++ c :: text ++ rest' = ignored ++ c :: (text ++ rest') := by simp
        rw [hcs, scan, hskips, ← List.cons_append, byteLength_append, ← Nat.add_assoc]
        exact htakes _ _ hbegins
      · rw [List.nil_append, List.cons_append, scan_ink hc]
        exact htakes _ _ hbegins

end GraphQLSyntax
