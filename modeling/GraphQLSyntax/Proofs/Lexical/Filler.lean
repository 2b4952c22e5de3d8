import GraphQLSyntax.Proofs.Lexical.Segment

/-!
# Filling in ignored text

Text that is ignored may be put between two tokens, before the first one and behind the last
one.  It has to be complete: a comment that is put there brings the end of its line along, so
that it does not swallow what comes after it.  The same tokens are read then, and those behind
the place are moved by the length of what was put there.
-/

namespace GraphQLSyntax

/-- Spaces and whole comments, each with what ends its line. -/
inductive IsFiller : List Char → Prop
  | nil : IsFiller []
  | spacing {c : Char} {cs : List Char} (hc : IsSpacing c) (hcs : IsFiller cs) : IsFiller (c :: cs)
  | comment {text cs : List Char} {c : Char} (htext : ∀ d ∈ text, ¬ EndsLine d) (hc : EndsLine c)
      (hcs : IsFiller cs) : IsFiller ('#' :: text ++ c :: cs)

variable {w gap rest : List Char}

theorem isSpacing_of_endsLine {c : Char} (h : EndsLine c) : IsSpacing c :=
  isBlank_iff.1 (isBlank_of_isLineTerminator (isLineTerminator_iff.2 h))

theorem IsSpacing.not_isInk {c : Char} (h : IsSpacing c) : ¬ IsInk c := by
  intro hink
  rw [← isBlank_iff, hink.1] at h
  exact Bool.false_ne_true h

namespace IsFiller

/-- Nothing that a token could go on with is at the front of a filler. -/
theorem not_isInk (h : IsFiller w) : ∀ c, w.head? = some c → ¬ IsInk c := by
  rintro c hhead
  cases h with
  | nil => cases hhead
  | spacing hc =>
    obtain rfl := Option.some.inj hhead
    exact hc.not_isInk
  | comment =>
    obtain rfl := Option.some.inj hhead
    exact fun hink => absurd hink.2 (by decide)

/-- Before a filler, a text is scanned as it is before what the filler is put in front of. -/
theorem beginsAs_append (h : IsFiller w) (rest : List Char) : BeginsAs (w ++ rest) rest := by
  cases w with
  | nil => exact .refl rest
  | cons => exact .of_not_isInk h.not_isInk rest

/-- A filler is ignored, and it ends no text that is ignored behind it. -/
theorem ignored_append (h : IsFiller w) (hgap : Ignored rest gap) : Ignored rest (w ++ gap) := by
  induction h with
  | nil => exact hgap
  | spacing hc _ ih => exact .spacing hc ih
  | comment htext hc _ ih =>
    rw [List.append_assoc]
    refine .comment htext (fun d hd => ?_) (.spacing (isSpacing_of_endsLine hc) ih)
    obtain rfl := Option.some.inj hd
    exact hc

theorem ignored (h : IsFiller w) (rest : List Char) : Ignored rest w := by
  have hgap := h.ignored_append (Ignored.nil : Ignored rest [])
  rwa [List.append_nil] at hgap

/-- Up to the end of the first line, a filler goes on with a comment that it is put into. -/
theorem exists_line (h : IsFiller w) :
    ∃ text cs, w = text ++ cs ∧ (∀ c ∈ text, ¬ EndsLine c) ∧
      (∀ c, cs.head? = some c → EndsLine c) ∧ IsFiller cs := by
  induction h with
  | nil => exact ⟨[], [], rfl, nofun, nofun, .nil⟩
  | @spacing c cs hc hcs ih =>
    by_cases hline : EndsLine c
    · refine ⟨[], c :: cs, rfl, nofun, fun d hd => ?_, .spacing hc hcs⟩
      obtain rfl := Option.some.inj hd
      exact hline
    · obtain ⟨text, cs, rfl, htext, hend, hcs⟩ := ih
      exact ⟨c :: text, cs, rfl, List.forall_mem_cons.2 ⟨hline, htext⟩, hend, hcs⟩
  | @comment text cs c htext hc hcs =>
    have hsign : ¬ EndsLine '#' := by simp [EndsLine]
    refine ⟨'#' :: text, c :: cs, rfl, List.forall_mem_cons.2 ⟨hsign, htext⟩, fun d hd => ?_,
      .spacing (isSpacing_of_endsLine hc) hcs⟩
    obtain rfl := Option.some.inj hd
    exact hc

/-- Behind ignored text at the end, a filler is ignored, even if it is put into a comment. -/
theorem ignored_of_end (h : IsFiller w) (hgap : Ignored [] gap) : Ignored [] (gap ++ w) := by
  induction hgap with
  | nil => exact h.ignored []
  | spacing hc _ ih => exact .spacing hc ih
  | @comment text cs htext hend hcs ih =>
    cases cs with
    | nil =>
      obtain ⟨line, cs, rfl, hline, hend, hcs⟩ := h.exists_line
      have hcomment : ∀ c ∈ text ++ line, ¬ EndsLine c := List.forall_mem_append.2 ⟨htext, hline⟩
      have heq : '#' :: text ++ [] ++ (line ++ cs) = '#' :: (text ++ line) ++ cs := by simp
      rw [heq]
      exact .comment hcomment (by simpa using hend) (hcs.ignored [])
    | cons =>
      rw [List.append_assoc]
      exact .comment htext hend ih

end IsFiller

/-! ## Moving tokens -/

/-- The token, moved by a number of bytes. -/
def Token.shift (n : UInt32) (token : Token) : Token :=
  { token with start := token.start + n, stop := token.stop + n }

/-- The token, moved by a number of bytes if it does not start before an offset. -/
def Token.shiftFrom (offset n : UInt32) (token : Token) : Token :=
  if offset ≤ token.start then token.shift n else token

theorem Token.shiftFrom_of_le {offset n : UInt32} {token : Token} (h : offset ≤ token.start) :
    token.shiftFrom offset n = token.shift n :=
  if_pos h

theorem Token.shiftFrom_of_lt {offset n : UInt32} {token : Token} (h : token.start < offset) :
    token.shiftFrom offset n = token :=
  if_neg (UInt32.not_le.2 h)

@[simp] theorem Token.lexeme_shiftFrom (offset n : UInt32) (token : Token) :
    (token.shiftFrom offset n).lexeme = token.lexeme := by
  rw [shiftFrom]
  split <;> rfl

namespace Reads

variable {offset : Nat} {segment : List Char} {ts u : List Token}

/-- One segment may come after the other. -/
theorem append {segment' : List Char} (h : Reads offset segment u (segment' ++ rest))
    (h' : Reads (offset + byteLength segment) segment' ts rest) :
    Reads offset (segment ++ segment') (u ++ ts) rest := by
  generalize hafter : segment' ++ rest = after at h
  induction h with
  | nil => simpa using h'
  | @token offset ignored text segment after lexeme u hkind hne hscan htext _ ih =>
    subst hafter
    rw [← List.append_assoc] at hscan htext
    rw [byteLength_append (ignored ++ text), ← Nat.add_assoc] at h'
    rw [List.append_assoc (ignored ++ text)]
    exact .token hkind hne hscan htext (ih h' rfl)

/-- A segment that starts later has its tokens later. -/
theorem shift (h : Reads offset segment ts rest) (n : Nat) :
    Reads (offset + n) segment (ts.map (Token.shift (.ofNat n))) rest := by
  have hofNat : ∀ offset m, UInt32.ofNat (offset + m) + UInt32.ofNat n =
      UInt32.ofNat (offset + n + m) := fun offset m => by
    rw [← UInt32.ofNat_add, Nat.add_right_comm]
  induction h with
  | nil => exact .nil ..
  | token hkind hne hscan htext _ ih =>
    rw [Nat.add_right_comm] at ih
    rw [List.map_cons, Token.shift, hofNat, hofNat]
    exact .token hkind hne hscan htext ih

/-- A filler may be put before a segment that is not empty. -/
theorem fill (hw : IsFiller w) (hts : ts ≠ [])
    (h : Reads (offset + byteLength w) segment ts rest) : Reads offset (w ++ segment) ts rest := by
  cases h with
  | nil => exact absurd rfl hts
  | @token _ ignored text segment _ lexeme ts hkind hne hscan htext hrest =>
    have hscan' : ScansAs (w ++ ignored) text lexeme (segment ++ rest) := by
      intro offset' rest' hbegins
      have hskip := (hw.ignored (ignored ++ text ++ rest')).skipIgnored_eq offset'
      have hscan := hscan (offset' + byteLength w) rest' hbegins
      rw [scan, ← hskip] at hscan
      rw [List.append_assoc w, List.append_assoc w, byteLength_append w, byteLength_append w,
        ← Nat.add_assoc, ← Nat.add_assoc]
      exact hscan
    have heq : w ++ (ignored ++ text ++ segment) = w ++ ignored ++ text ++ segment := by simp
    have hoffset : ∀ cs, offset + byteLength w + byteLength (ignored ++ cs) =
        offset + byteLength (w ++ ignored ++ cs) := by simp [Nat.add_assoc]
    have hstart := hoffset []
    rw [List.append_nil, List.append_nil] at hstart
    rw [hoffset] at hrest ⊢
    rw [heq, hstart]
    exact .token hkind hne hscan' htext hrest

end Reads

/-! ## Filling in -/

/-- Two texts in front of the same text are the same if they have as many bytes. -/
theorem append_inj_of_byteLength {cs ds cs' ds' : List Char} (h : cs ++ ds = cs' ++ ds')
    (hlength : byteLength cs = byteLength cs') : cs = cs' ∧ ds = ds' := by
  have hnil : ∀ {a : List Char}, byteLength a = 0 → a = [] := fun {a} ha => by
    cases a with
    | nil => rfl
    | cons => exact absurd ha (Nat.ne_of_gt (byteLength_pos (List.cons_ne_nil _ _)))
  obtain ⟨a, rfl, rfl⟩ | ⟨a, rfl, rfl⟩ := List.append_eq_append_iff.1 h
  · rw [byteLength_append] at hlength
    obtain rfl : a = [] := hnil (by omega)
    simp
  · rw [byteLength_append] at hlength
    obtain rfl : a = [] := hnil (by omega)
    simp

namespace Source

variable {source source' : Source} {front back rest' : List Char} {ts u v : List Token}

/-- The end is moved by the length of what is put into a source. -/
theorem shiftFrom_endToken (hchars : source.chars = front ++ back)
    (hchars' : source'.chars = front ++ w ++ back) (hfits : source'.byteCount < UInt32.size) :
    source.endToken.shiftFrom (.ofNat (byteLength front)) (.ofNat (byteLength w)) =
      source'.endToken := by
  have hsize := source.byteCount_eq
  have hsize' := source'.byteCount_eq
  rw [hchars, byteLength_append] at hsize
  rw [hchars', byteLength_append, byteLength_append] at hsize'
  have hle : UInt32.ofNat (byteLength front) ≤ source.endToken.start := by
    show UInt32.ofNat (byteLength front) ≤ UInt32.ofNat source.byteCount
    rw [UInt32.le_iff_toNat_le, UInt32.toNat_ofNat_of_lt' (by omega),
      UInt32.toNat_ofNat_of_lt' (by omega)]
    omega
  have hlength : source.length + UInt32.ofNat (byteLength w) = source'.length := by
    rw [length, length, ← UInt32.ofNat_add]
    congr 1
    omega
  rw [Token.shiftFrom_of_le hle]
  simp only [Token.shift, endToken, hlength]

/-- Tokens before a place stay, and tokens behind it are moved. -/
theorem map_shiftFrom {offset : Nat} (hu : Reads 0 front u rest) (hv : Reads offset gap v rest')
    (hoffset : byteLength front ≤ offset) (hfits : offset + byteLength gap < UInt32.size)
    (n : UInt32) :
    (u ++ v).map (Token.shiftFrom (.ofNat offset) n) = u ++ v.map (Token.shift n) := by
  have hstay : ∀ t ∈ u, t.shiftFrom (.ofNat offset) n = t := by
    obtain ⟨hordered, hinside⟩ := hu.inOrder (by omega)
    intro t ht
    refine Token.shiftFrom_of_lt (UInt32.lt_of_lt_of_le (hordered.nonempty t ht) ?_)
    rw [UInt32.le_iff_toNat_le, UInt32.toNat_ofNat_of_lt' (by omega)]
    have := (hinside t ht).2
    omega
  have hmove : ∀ t ∈ v, t.shiftFrom (.ofNat offset) n = t.shift n := by
    obtain ⟨-, hinside⟩ := hv.inOrder hfits
    intro t ht
    refine Token.shiftFrom_of_le ?_
    rw [UInt32.le_iff_toNat_le, UInt32.toNat_ofNat_of_lt' (by omega)]
    exact (hinside t ht).1
  rw [List.map_append, List.map_congr_left hstay, List.map_congr_left hmove, List.map_id']

/-- A filler may be put where the tokens of a source are split. -/
theorem tokens_fill_of_split (hw : IsFiller w) (hchars' : source'.chars = front ++ w ++ back)
    (hchars : source.chars = front ++ back) (hfits : source'.byteCount < UInt32.size)
    {after rest : List Char} (hback : back = after ++ rest) (hu : Reads 0 front u back)
    (hv : Reads (byteLength front) after v rest) (hgap : Ignored [] rest) :
    source'.tokens = ((u ++ v ++ [source.endToken]).map
      (Token.shiftFrom (.ofNat (byteLength front)) (.ofNat (byteLength w)))).map .ok := by
  have hsize' := source'.byteCount_eq
  rw [hchars', hback] at hsize'
  simp only [byteLength_append] at hsize'
  have hu' : Reads 0 front u (w ++ back) := hu.mono (hw.beginsAs_append back)
  rw [List.map_append, map_shiftFrom hu hv (Nat.le_refl _) (by omega), List.map_singleton,
    shiftFrom_endToken hchars hchars' hfits, List.map_append]
  by_cases hnone : v = []
  · -- Behind the place there is nothing but ignored text.
    subst hnone
    cases hv with
    | nil =>
      rw [hback, List.nil_append] at hchars' hu'
      rw [List.append_assoc] at hchars'
      simpa using tokens_of_reads hfits hchars' hu' (hw.ignored_append hgap)
  · have hfill := (hv.shift (byteLength w)).fill hw (by simpa using hnone)
    rw [← Nat.zero_add (byteLength front)] at hfill
    rw [hback, ← List.append_assoc] at hu'
    have hchars'' : source'.chars = front ++ (w ++ after) ++ rest := by
      rw [hchars', hback]
      simp
    exact tokens_of_reads hfits hchars'' (hu'.append hfill) hgap

/-- A filler may be put behind everything, even into a comment that goes on to the end. -/
theorem tokens_fill_of_end (hw : IsFiller w) (hchars' : source'.chars = source.chars ++ w)
    (hfits : source'.byteCount < UInt32.size) {segment rest : List Char}
    (hchars : source.chars = segment ++ rest) (hts : Reads 0 segment ts rest)
    (hgap : Ignored [] rest) :
    source'.tokens = ((ts ++ [source.endToken]).map
      (Token.shiftFrom (.ofNat (byteLength source.chars)) (.ofNat (byteLength w)))).map .ok := by
  have hsize' := source'.byteCount_eq
  rw [hchars', hchars] at hsize'
  simp only [byteLength_append] at hsize'
  have hchars'' : source'.chars = segment ++ (rest ++ w) := by
    rw [hchars', hchars, List.append_assoc]
  have hbegins : BeginsAs (rest ++ w) rest := by
    cases rest with
    | nil => simpa using hw.beginsAs_append []
    | cons => exact .of_head? rfl
  have hend : source.endToken.shiftFrom (.ofNat (byteLength source.chars))
      (.ofNat (byteLength w)) = source'.endToken :=
    shiftFrom_endToken (List.append_nil _).symm (by rw [hchars', List.append_nil]) hfits
  have hstay := map_shiftFrom hts (.nil (byteLength source.chars) rest)
    (by rw [hchars, byteLength_append]; omega) (by rw [hchars]; simp; omega) (.ofNat (byteLength w))
  rw [List.append_nil, List.map_nil, List.append_nil] at hstay
  rw [List.map_append, hstay, List.map_singleton, hend, List.map_append]
  exact tokens_of_reads hfits hchars'' (hts.mono hbegins) (hw.ignored_of_end hgap)

/-- Tokens that are read without a fault are some tokens and the end. -/
theorem exists_tokens_eq (hfits : source.byteCount < UInt32.size)
    (h : source.tokens = ts.map .ok) :
    ∃ us, ts = us ++ [source.endToken] ∧ ∃ segment rest, source.chars = segment ++ rest ∧
      Reads 0 segment us rest ∧ Ignored [] rest := by
  have hstream := tokens_isStream hfits
  obtain ⟨us, last, heq, -, hlast⟩ := hstream.exists_eq
  obtain ⟨us', token, rfl, hus, hok⟩ : ∃ us' token, ts = us' ++ [token] ∧ us' = us ∧
      Except.ok token = last := by
    rw [h] at heq
    obtain ⟨us', l, rfl, hus, hl⟩ := List.map_eq_append_iff.1 heq
    obtain ⟨token, rfl, hok⟩ := List.map_eq_singleton_iff.1 hl
    exact ⟨us', token, rfl, (List.map_inj_right fun _ _ => Except.ok.inj).1 hus, hok⟩
  subst hus hok
  have hkind : token.kind = .eof := beq_iff_eq.1 hlast
  obtain ⟨hstart, hstop, hreads⟩ := reads_of_tokens hfits heq hkind
  have hlexeme : token.lexeme = .bare .eof := by
    have hproper : token.lexeme.IsProper := hstream.isProper_of_mem (by simp [heq])
    rw [hproper.eq_bare (by rw [show token.lexeme.kind = .eof from hkind]; rfl)]
    exact congrArg Lexeme.bare hkind
  have htoken : token = source.endToken := by
    obtain ⟨lexeme, start, stop⟩ := token
    simp only at hlexeme hstart hstop
    rw [endToken, hlexeme, hstart, hstop]
  exact ⟨us', by rw [htoken], hreads⟩

/-- If a filler is put into a source where it begins or where one of its tokens ends, the same
tokens are read, and those that do not start before the place are moved. -/
theorem tokens_fill (hw : IsFiller w) (hchars : source.chars = front ++ back)
    (hchars' : source'.chars = front ++ w ++ back) (hfits : source'.byteCount < UInt32.size)
    (h : source.tokens = ts.map .ok)
    (hplace : front = [] ∨ ∃ t ∈ ts, t.stop.toNat = byteLength front) :
    source'.tokens = (ts.map
      (Token.shiftFrom (.ofNat (byteLength front)) (.ofNat (byteLength w)))).map .ok := by
  have hsize := source.byteCount_eq
  have hsize' := source'.byteCount_eq
  rw [hchars, byteLength_append] at hsize
  rw [hchars'] at hsize'
  simp only [byteLength_append] at hsize'
  obtain ⟨us, rfl, segment, rest, hsplit, hreads, hgap⟩ := exists_tokens_eq (by omega) h
  rw [hsplit] at hchars
  obtain rfl | ⟨t, ht, hstop⟩ := hplace
  · exact tokens_fill_of_split hw hchars' (hsplit.trans hchars) hfits hchars.symm
      (.nil 0 back) hreads hgap
  obtain ht | ht := List.mem_append.1 ht
  · -- The token divides the segment where it ends.
    obtain ⟨u, v, rfl⟩ := List.append_of_mem ht
    rw [List.append_cons u t v] at hreads ⊢
    obtain ⟨before, after, rfl, hu, hv⟩ := hreads.split
    have hlast := hu.stop_eq List.getLast?_concat
    rw [Nat.zero_add] at hlast hv
    have hbefore : byteLength before = byteLength front := by
      rw [← hstop, hlast, UInt32.toNat_ofNat_of_lt']
      have hless := congrArg byteLength hchars
      simp only [byteLength_append] at hless
      omega
    rw [List.append_assoc] at hchars
    obtain ⟨rfl, rfl⟩ := append_inj_of_byteLength hchars hbefore
    rw [List.append_assoc] at hsplit
    exact tokens_fill_of_split hw hchars' hsplit hfits rfl hu hv hgap
  · -- The place is the end.
    obtain rfl := List.mem_singleton.1 ht
    have hend : source.endToken.stop.toNat = source.byteCount :=
      UInt32.toNat_ofNat_of_lt' (by omega)
    obtain rfl : back = [] := by
      cases back with
      | nil => rfl
      | cons c back =>
        have := byteLength_pos (List.cons_ne_nil c back)
        omega
    rw [List.append_nil] at hchars hchars'
    rw [← hchars, ← hsplit] at hchars' ⊢
    exact tokens_fill_of_end hw hchars' hfits hsplit hreads hgap

end Source

end GraphQLSyntax
