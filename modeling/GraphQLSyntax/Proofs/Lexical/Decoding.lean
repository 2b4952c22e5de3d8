import Mathlib.Data.List.Forall2
import Mathlib.Data.Nat.Digits.Defs
import Mathlib.Tactic.Ring
import GraphQLSyntax.Proofs.Lexical.Offsets

/-!
# Decoding string literals

A text that begins with a quotation mark is read as a string exactly if items and a closing
quotation mark come after it.  The value is what the items stand for, and the token ends behind
the closing mark.  Every other such text breaks off in one of three ways, and the fault is told
where it does so.  What the items and these ways are is said without regard to how they are read.
-/

namespace GraphQLSyntax

/-! ## Codes -/

/-- The hexadecimal digits of either case, each with its value. -/
def hexDigits : List (Char × Nat) :=
  ['0', '1', '2', '3', '4', '5', '6', '7', '8', '9'].zipIdx ++
    ['a', 'b', 'c', 'd', 'e', 'f'].zipIdx 10 ++ ['A', 'B', 'C', 'D', 'E', 'F'].zipIdx 10

/-- A run of digits lies between the first and the last one of them. -/
theorem mem_hexDigits_of_le (value size : Nat) {c first last : Char}
    (hrun : ∀ k < size, (Char.ofNat (first.toNat + k), value + k) ∈ hexDigits)
    (hsize : last.toNat < first.toNat + size) (hc : first ≤ c ∧ c ≤ last) :
    (c, c.toNat - first.toNat + value) ∈ hexDigits := by
  have hfirst : first.toNat ≤ c.toNat := UInt32.le_iff_toNat_le.1 hc.1
  have hlast : c.toNat ≤ last.toNat := UInt32.le_iff_toNat_le.1 hc.2
  have hmem := hrun (c.toNat - first.toNat) (by omega)
  rwa [Nat.add_sub_cancel' hfirst, Char.ofNat_toNat, Nat.add_comm value] at hmem

theorem hexDigit?_eq_some_iff {c : Char} {value : Nat} :
    hexDigit? c = some value ↔ (c, value) ∈ hexDigits := by
  constructor
  · intro h
    unfold hexDigit? at h
    split at h
    case isTrue hc =>
      obtain rfl := Option.some.inj h
      exact mem_hexDigits_of_le 0 10 (by decide) (by decide) hc
    case isFalse =>
      split at h
      case isTrue hc =>
        obtain rfl := Option.some.inj h
        exact mem_hexDigits_of_le 10 6 (by decide) (by decide) hc
      case isFalse =>
        split at h
        case isTrue hc =>
          obtain rfl := Option.some.inj h
          exact mem_hexDigits_of_le 10 6 (by decide) (by decide) hc
        case isFalse => cases h
  · have hall : ∀ p ∈ hexDigits, hexDigit? p.1 = some p.2 := by decide
    intro h
    exact hall _ h

/-- Four hexadecimal digits write the code, the first of them counting most. -/
def WritesCode (digits : List Char) (code : Nat) : Prop :=
  ∃ values : List Nat, values.length = 4 ∧
    List.Forall₂ (fun digit value => (digit, value) ∈ hexDigits) digits values ∧
      code = Nat.ofDigits 16 values.reverse

theorem isHexCode_iff {digits : List Char} {code : Nat} :
    IsHexCode digits code ↔ WritesCode digits code := by
  constructor
  · rintro ⟨hlength, hcode⟩
    obtain ⟨a, b, c, d, rest, w, x, y, z, rfl, ha, hb, hc, hd, rfl⟩ := hexCode?_eq_some hcode
    obtain rfl : rest = [] := by simpa using hlength
    rw [hexDigit?_eq_some_iff] at ha hb hc hd
    refine ⟨[w, x, y, z], rfl, .cons ha (.cons hb (.cons hc (.cons hd .nil))), ?_⟩
    simp [Nat.ofDigits]
    ring
  · rintro ⟨values, hlength, hdigits, rfl⟩
    refine ⟨hdigits.length_eq.trans hlength, ?_⟩
    obtain ⟨w, x, y, z, rfl⟩ := List.length_eq_four.1 hlength
    obtain ⟨a, _, ha, hafter, rfl⟩ := List.forall₂_cons_right_iff.1 hdigits
    obtain ⟨b, _, hb, hafter', rfl⟩ := List.forall₂_cons_right_iff.1 hafter
    obtain ⟨c, _, hc, hlast, rfl⟩ := List.forall₂_cons_right_iff.1 hafter'
    obtain ⟨d, _, hd, hnil, rfl⟩ := List.forall₂_cons_right_iff.1 hlast
    obtain rfl := List.forall₂_nil_right_iff.1 hnil
    rw [← hexDigit?_eq_some_iff] at ha hb hc hd
    simp [hexCode?, ha, hb, hc, hd, Nat.ofDigits]
    ring

/-! ## Where a literal breaks off -/

/-- No escape sequence begins with a backslash and goes on with the text, or with a part of
it. -/
def NoEscape (after : List Char) : Prop :=
  ∀ escape rest c, after = escape ++ rest → ¬ StringItem ('\\' :: escape) c

theorem escape?_eq_none_iff {after : List Char} : escape? after = none ↔ NoEscape after := by
  constructor
  · intro hnone escape rest c hafter hitem
    rw [hafter, hitem.escape?_append rest] at hnone
    cases hnone
  · intro h
    cases hescape : escape? after with
    | none => rfl
    | some p =>
      obtain ⟨c, n⟩ := p
      obtain ⟨escape, rest, hafter, -, hitem⟩ := stringItem_of_escape? hescape
      exact absurd hitem (h escape rest c hafter)

/-- What comes after an opening quotation mark breaks off at the byte, counted from there, for
the cause: a line or the text ends, the text ends behind a backslash, or what comes after a
backslash is no escape sequence. -/
inductive LiteralBreaksOff (contents : List Char) : Nat → Cause → Prop
  | ended {text meant after : List Char} (hcontents : contents = text ++ after)
      (hitems : StringItems text meant) (hafter : ∀ c, after.head? = some c → EndsLine c) :
      LiteralBreaksOff contents (byteLength text) .unterminatedString
  | backslash {text meant : List Char} (hcontents : contents = text ++ ['\\'])
      (hitems : StringItems text meant) :
      LiteralBreaksOff contents (byteLength text + 1) .unterminatedString
  | escape {text meant after : List Char} (hcontents : contents = text ++ '\\' :: after)
      (hitems : StringItems text meant) (hafter : after ≠ []) (hnone : NoEscape after) :
      LiteralBreaksOff contents (byteLength text + 1) .badEscape

variable {contents : List Char} {offset n : Nat} {cause : Cause} {fault : Fault}

theorem byteLength_concat_backslash (text : List Char) :
    byteLength (text ++ ['\\']) = byteLength text + 1 := by
  rw [byteLength_append, byteLength_cons]
  rfl

/-- The byte is one of the text, or the one right behind it. -/
theorem LiteralBreaksOff.le_byteLength (h : LiteralBreaksOff contents n cause) :
    n ≤ byteLength contents := by
  cases h with
  | ended hcontents =>
    rw [hcontents, byteLength_append]
    exact Nat.le_add_right _ _
  | backslash hcontents =>
    rw [hcontents, byteLength_concat_backslash]
  | escape hcontents =>
    rw [hcontents, List.append_cons, byteLength_append, byteLength_concat_backslash]
    exact Nat.le_add_right _ _

theorem LiteralBreaksOff.of_brokenContents {before after : List Char}
    (h : BrokenContents before after cause) :
    LiteralBreaksOff (before ++ after) (byteLength before) cause := by
  cases h with
  | ended hitems hafter => exact .ended rfl hitems hafter
  | backslash hitems =>
    rw [byteLength_concat_backslash, List.append_nil]
    exact .backslash rfl hitems
  | escape hitems hafter hnone =>
    rw [byteLength_concat_backslash, List.append_assoc]
    exact .escape rfl hitems hafter (escape?_eq_none_iff.1 hnone)

/-! ## Scanning contents -/

theorem scanContents_backslash_nil (offset : Nat) (decoded : List Char) :
    scanContents offset decoded ['\\'] = .error (.atOffset (offset + 1) .unterminatedString) := by
  rw [scanContents]
  rfl

theorem scanContents_of_noEscape {after : List Char} (hafter : after ≠ [])
    (hnone : NoEscape after) (offset : Nat) (decoded : List Char) :
    scanContents offset decoded ('\\' :: after) =
      .error (.atOffset (offset + 1) .badEscape) := by
  have hescape : escape? after = none := escape?_eq_none_iff.2 hnone
  have hempty : after.isEmpty = false := by simpa using hafter
  rw [scanContents]
  simp [isLineTerminator, hempty, hescape]

theorem scanContents_of_endsLine {after : List Char}
    (hafter : ∀ c, after.head? = some c → EndsLine c) (offset : Nat) (decoded : List Char) :
    scanContents offset decoded after = .error (.atOffset offset .unterminatedString) := by
  cases after with
  | nil => rw [scanContents]
  | cons c after =>
    have hline : EndsLine c := hafter c rfl
    have hquote : c ≠ '"' := by
      rintro rfl
      exact absurd hline (by simp [EndsLine])
    rw [← isLineTerminator_iff] at hline
    rw [scanContents]
    simp [hquote, hline]

/-- The contents of a string are scanned exactly if they are items up to a closing quotation
mark. -/
theorem scanContents_eq_ok_iff (decoded : List Char) {meant rest : List Char} {stop : Nat} :
    scanContents offset decoded contents = .ok (decoded.reverse ++ meant, stop, rest) ↔
      ∃ text, contents = text ++ '"' :: rest ∧ StringItems text meant ∧
        stop = offset + byteLength text + 1 := by
  have hread : ∀ {text meant'}, StringItems text meant' →
      scanContents offset decoded (text ++ '"' :: rest) =
        .ok (decoded.reverse ++ meant', offset + byteLength text + 1, rest) := by
    intro text meant' hitems
    rw [scanContents_items hitems, scanContents_closing]
    simp
  constructor
  · intro h
    obtain ⟨text, meant', rfl, hitems, hmeant⟩ := exists_items_of_scanContents h
    obtain rfl := List.append_cancel_left hmeant
    rw [hread hitems, Except.ok.injEq, Prod.mk.injEq, Prod.mk.injEq] at h
    exact ⟨text, rfl, hitems, h.2.1.symm⟩
  · rintro ⟨text, rfl, hitems, rfl⟩
    exact hread hitems

/-- Scanning the contents of a string fails exactly where they break off. -/
theorem scanContents_eq_error_iff (decoded : List Char) :
    scanContents offset decoded contents = .error fault ↔
      ∃ n, LiteralBreaksOff contents n fault.cause ∧
        fault = .atOffset (offset + n) fault.cause := by
  constructor
  · intro h
    obtain ⟨before, after, cause, rfl, hbroken, rfl⟩ := scanContents_eq_error h
    exact ⟨byteLength before, .of_brokenContents hbroken, rfl⟩
  · rintro ⟨n, hbreaks, hfault⟩
    rw [hfault]
    generalize fault.cause = cause at hbreaks
    cases hbreaks with
    | ended hcontents hitems hafter =>
      rw [hcontents, scanContents_items hitems, scanContents_of_endsLine hafter]
    | backslash hcontents hitems =>
      rw [hcontents, scanContents_items hitems, scanContents_backslash_nil, Nat.add_assoc]
    | escape hcontents hitems hafter hnone =>
      rw [hcontents, scanContents_items hitems, scanContents_of_noEscape hafter hnone,
        Nat.add_assoc]

/-! ## Reading literals -/

theorem scanString_eq_ok_iff (start : Nat) {scanned : Scanned} :
    scanString start contents = .ok scanned ↔
      ∃ text meant rest, contents = text ++ '"' :: rest ∧ StringItems text meant ∧
        scanned =
          { lexeme := ⟨.string, some (String.ofList meant)⟩
            start
            stop := start + 1 + byteLength text + 1
            rest } := by
  constructor
  · intro h
    obtain ⟨⟨meant, stop, rest⟩, hscan, h⟩ := bind_eq_ok_iff.1 h
    obtain ⟨text, hcontents, hitems, rfl⟩ := (scanContents_eq_ok_iff []).1 hscan
    exact ⟨text, meant, rest, hcontents, hitems, (Except.ok.inj h).symm⟩
  · rintro ⟨text, meant, rest, hcontents, hitems, rfl⟩
    have hscan : scanContents (start + 1) [] contents =
        .ok ([].reverse ++ meant, start + 1 + byteLength text + 1, rest) :=
      (scanContents_eq_ok_iff []).2 ⟨text, hcontents, hitems, rfl⟩
    exact bind_eq_ok_iff.2 ⟨_, hscan, rfl⟩

theorem scanString_eq_error_iff (start : Nat) :
    scanString start contents = .error fault ↔
      ∃ n, LiteralBreaksOff contents n fault.cause ∧
        fault = .atOffset (start + 1 + n) fault.cause := by
  rw [← scanContents_eq_error_iff [], scanString, bind_eq_error_iff]
  simp

namespace Source

variable {source : Source}

theorem readToken_of_quotationMark (hchars : source.chars = '"' :: contents) :
    source.readToken 0 = (scanString 0 contents).map Scanned.token := by
  have hink : IsInk '"' := ⟨by decide, by decide⟩
  have hscan : source.scanAt 0 = scanString 0 contents := by
    rw [scanAt_zero, hchars, scan_ink hink]
    rfl
  rw [readToken, ← hscan]
  rfl

theorem byteCount_of_quotationMark (hchars : source.chars = '"' :: contents) :
    source.byteCount = 1 + byteLength contents := by
  rw [source.byteCount_eq, hchars, byteLength_cons]
  rfl

/-- A token is read exactly if items and a closing quotation mark come after the opening one. -/
theorem readToken_literal_eq_ok_iff (hfits : source.byteCount < UInt32.size)
    (hchars : source.chars = '"' :: contents) {token : Token} :
    source.readToken 0 = .ok token ↔
      ∃ text meant rest, contents = text ++ '"' :: rest ∧ StringItems text meant ∧
        token.lexeme = ⟨.string, some (String.ofList meant)⟩ ∧ token.start = 0 ∧
          token.stop.toNat = byteLength ('"' :: text ++ ['"']) := by
  have hcount : source.byteCount = 1 + byteLength contents := byteCount_of_quotationMark hchars
  have hmark : byteLength ['"'] = 1 := rfl
  have hstop : ∀ text rest, contents = text ++ '"' :: rest →
      (UInt32.ofNat (0 + 1 + byteLength text + 1)).toNat =
        byteLength ('"' :: text ++ ['"']) := by
    intro text rest hcontents
    have hlength : byteLength ('"' :: text ++ ['"']) = 0 + 1 + byteLength text + 1 := by
      rw [byteLength_append, byteLength_cons]
      rfl
    rw [hlength, UInt32.toNat_ofNat_of_lt']
    rw [hcontents, List.append_cons, byteLength_append, byteLength_append] at hcount
    omega
  rw [readToken_of_quotationMark hchars]
  constructor
  · intro hread
    cases hscan : scanString 0 contents with
    | error fault =>
      rw [hscan] at hread
      cases hread
    | ok scanned =>
      rw [hscan] at hread
      obtain rfl := Except.ok.inj hread
      obtain ⟨text, meant, rest, hcontents, hitems, rfl⟩ := (scanString_eq_ok_iff 0).1 hscan
      exact ⟨text, meant, rest, hcontents, hitems, rfl, rfl, hstop text rest hcontents⟩
  · rintro ⟨text, meant, rest, hcontents, hitems, hlexeme, hstart, hend⟩
    have hscan : scanString 0 contents = .ok _ :=
      (scanString_eq_ok_iff 0).2 ⟨text, meant, rest, hcontents, hitems, rfl⟩
    have htoken : UInt32.ofNat (0 + 1 + byteLength text + 1) = token.stop :=
      UInt32.toNat_inj.1 ((hstop text rest hcontents).trans hend.symm)
    rw [hscan]
    show Except.ok (Token.mk _ _ _) = _
    rw [htoken, ← hlexeme]
    exact congrArg Except.ok (congrArg (Token.mk token.lexeme · token.stop) hstart.symm)

/-- Reading fails exactly where what comes after the opening quotation mark breaks off. -/
theorem readToken_literal_eq_error_iff (hfits : source.byteCount < UInt32.size)
    (hchars : source.chars = '"' :: contents) :
    source.readToken 0 = .error fault ↔
      ∃ n, LiteralBreaksOff contents n fault.cause ∧ fault.position.toNat = 1 + n := by
  have hcount : source.byteCount = 1 + byteLength contents := byteCount_of_quotationMark hchars
  have hposition : ∀ n, LiteralBreaksOff contents n fault.cause →
      (UInt32.ofNat (0 + 1 + n)).toNat = 1 + n := by
    intro n hbreaks
    have hle : n ≤ byteLength contents := hbreaks.le_byteLength
    rw [UInt32.toNat_ofNat_of_lt' (by omega), Nat.zero_add]
  have hmap : (scanString 0 contents).map Scanned.token = .error fault ↔
      scanString 0 contents = .error fault := by
    cases scanString 0 contents <;> simp [Except.map]
  rw [readToken_of_quotationMark hchars, hmap, scanString_eq_error_iff]
  constructor
  · rintro ⟨n, hbreaks, hfault⟩
    refine ⟨n, hbreaks, ?_⟩
    rw [← hposition n hbreaks]
    exact congrArg (UInt32.toNat ∘ Fault.position) hfault
  · rintro ⟨n, hbreaks, heq⟩
    have hoffset : fault.position = UInt32.ofNat (0 + 1 + n) :=
      UInt32.toNat_inj.1 (heq.trans (hposition n hbreaks).symm)
    exact ⟨n, hbreaks, congrArg (Fault.mk · fault.cause) hoffset⟩

/-- A text that begins with a quotation mark is read as a string, and as which one, exactly if
items and a closing quotation mark come after it; otherwise the fault is told where it breaks
off.  The codes in items are those that four hexadecimal digits of either case write. -/
theorem readToken_literal (hfits : source.byteCount < UInt32.size)
    (hchars : source.chars = '"' :: contents) :
    (∀ token, source.readToken 0 = .ok token ↔
      ∃ text meant rest, contents = text ++ '"' :: rest ∧ StringItems text meant ∧
        token.lexeme = ⟨.string, some (String.ofList meant)⟩ ∧ token.start = 0 ∧
          token.stop.toNat = byteLength ('"' :: text ++ ['"'])) ∧
      (∀ fault, source.readToken 0 = .error fault ↔
        ∃ n, LiteralBreaksOff contents n fault.cause ∧ fault.position.toNat = 1 + n) ∧
      ∀ digits code, IsHexCode digits code ↔ WritesCode digits code :=
  ⟨fun _ => readToken_literal_eq_ok_iff hfits hchars,
    fun _ => readToken_literal_eq_error_iff hfits hchars, fun _ _ => isHexCode_iff⟩

/-- A surrogate pair with digits of both cases, and another quotation mark behind the string. -/
theorem readToken_literal_pair :
    let source : Source := ⟨"\"\\ud83d\\uDE00\"\"", ""⟩
    let pair := ['\\', 'u', 'd', '8', '3', 'd', '\\', 'u', 'D', 'E', '0', '0']
    source.byteCount < UInt32.size ∧ source.chars = '"' :: (pair ++ ['"', '"']) ∧
      source.readToken 0 = .ok ⟨⟨.string, some "😀"⟩, 0, 14⟩ := by
  intro source pair
  have hfits : source.byteCount < UInt32.size := by decide
  have hchars : source.chars = '"' :: (pair ++ ['"', '"']) := by decide
  have hpair : StringItem pair '😀' :=
    @StringItem.pair ['d', '8', '3', 'd'] ['D', 'E', '0', '0'] 0xD83D 0xDE00 ⟨rfl, rfl⟩ ⟨rfl, rfl⟩
      (by decide) (by decide)
  have hitems : StringItems (pair ++ []) ['😀'] := .cons hpair .nil
  refine ⟨hfits, hchars, ((readToken_literal hfits hchars).1 _).2 ?_⟩
  exact ⟨pair, ['😀'], ['"'], rfl, hitems, rfl, rfl, rfl⟩

end Source

end GraphQLSyntax
