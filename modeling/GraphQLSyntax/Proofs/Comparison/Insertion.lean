import Mathlib.Data.List.Forall2
import GraphQLSyntax.Proofs.Comparison.Schema
import GraphQLSyntax.Proofs.Lexical.Filler
import GraphQLSyntax.Proofs.Tree.Tags

/-!
# Ignored text between the tokens of a document

Ignored text that is put between two tokens of a document moves the tokens behind it and
changes nothing else.  The parser does not see where tokens are, so it comes to the same tree
but for the locations, or refuses both documents for the same cause, at tokens that stand in the
same place of the two streams.
-/

namespace GraphQLSyntax

/-! ## Tokens at other places -/

/-- The tokens are the same but for their places, and these are related. -/
structure Token.Twin (R : Token → Token → Prop) (t t' : Token) : Prop where
  lexeme_eq : t.lexeme = t'.lexeme
  places : R t t'

/-- Both readings are tokens, which are the same but for their places. -/
inductive Reading.Twin (R : Token → Token → Prop) : Reading → Reading → Prop
  | ok {t t' : Token} (h : t.Twin R t') : Reading.Twin R (.ok t) (.ok t')

/-- Two parsers have the same tokens to read but for the places. -/
structure ParserState.Twin (R : Token → Token → Prop) (s s' : ParserState) : Prop where
  ahead : s.ahead.Twin R s'.ahead
  upcoming : List.Forall₂ (Reading.Twin R) s.upcoming s'.upcoming

/-- Nothing but the places is different in two runs, and the tags are not looked at. -/
def Comparison.relocation (R : Token → Token → Prop) : Comparison Unit where
  Tokens := Token.Twin R
  Faults fault fault' := ∃ cause t t', Token.Twin R t t' ∧ fault = ⟨t.start, cause⟩ ∧
    fault' = ⟨t'.start, cause⟩
  States := ParserState.Twin R
  left := untag
  right := untag
  lexeme_eq := Token.Twin.lexeme_eq
  faults_of_tokens cause ht := ⟨cause, _, _, ht, rfl, rfl⟩
  ahead := ParserState.Twin.ahead
  advance := by
    rintro ⟨_, _, ahead, upcoming, _, _⟩ ⟨_, _, ahead', upcoming', _, _⟩ ⟨hahead, hupcoming⟩
    cases hupcoming with
    | nil => exact .ok hahead.lexeme_eq ⟨hahead, .nil⟩
    | cons hnext hrest =>
      cases hnext with
      | ok ht => exact .ok hahead.lexeme_eq ⟨ht, hrest⟩
  mark hs _ := .ok rfl ⟨hs.ahead, hs.upcoming⟩

/-! ## Parsing what has been moved -/

/-- Two outcomes of parsing differ in places at most: trees that are the same once the tags are
taken off, or errors of one category with one wording, at a token and at what the token has
become. -/
inductive SameButPlaces (ts : List Token) (move : Token → Token) :
    Except SyntaxError (Node Tag) → Except SyntaxError (Node Tag) → Prop
  | ok {t t' : Node Tag} (h : t.map untag = t'.map untag) : SameButPlaces ts move (.ok t) (.ok t')
  | error {error error' : SyntaxError} {token : Token} (hmem : token ∈ ts)
      (hposition : error.fault.position = token.start)
      (hposition' : error'.fault.position = (move token).start)
      (hcategory : error.category = error'.category)
      (hdescription : error.description = error'.description) :
      SameButPlaces ts move (.error error) (.error error')

namespace Source

variable {source source' : Source} {ts : List Token} {move : Token → Token}

/-- Runs on tokens and on the moved tokens go along with each other. -/
theorem runs_move (hmove : ∀ t, (move t).lexeme = t.lexeme) (hts : source.tokens = ts.map .ok)
    (hne : source.tokens ≠ []) (hts' : source'.tokens = (ts.map move).map .ok)
    (options : ParseOptions) {β δ : Type} {view : (Tag → Unit) → β → δ} {p : Nat → Parser β}
    (hp : ∀ n, (Comparison.relocation fun t t' => t ∈ ts ∧ t' = move t).Alike view (p n) (p n)) :
    (Comparison.relocation fun t t' => t ∈ ts ∧ t' = move t).Runs view
      (Parser.run p source options source.tokens)
      (Parser.run p source' options source'.tokens) := by
  have htwins : List.Forall₂ (Reading.Twin fun t t' => t ∈ ts ∧ t' = move t) source.tokens
      source'.tokens := by
    rw [hts, hts', List.map_map, List.forall₂_map_left_iff, List.forall₂_map_right_iff,
      List.forall₂_same]
    exact fun t ht => .ok ⟨(hmove t).symm, ht, rfl⟩
  generalize source.tokens = readings at hne htwins
  generalize source'.tokens = readings' at htwins
  cases htwins with
  | nil => exact absurd rfl hne
  | cons hahead hrest =>
    cases hahead with
    | ok hahead => exact Comparison.Alike.run hp ⟨hahead, hrest⟩ hrest.length_eq

/-- Two sources with the same tokens but for places are parsed to the same but for places. -/
theorem parseNode_move (hmove : ∀ t, (move t).lexeme = t.lexeme)
    (hts : source.tokens = ts.map .ok) (hne : source.tokens ≠ [])
    (hts' : source'.tokens = (ts.map move).map .ok) (grammar : Grammar) (options : ParseOptions) :
    SameButPlaces ts move (source.parseNode grammar options)
      (source'.parseNode grammar options) := by
  have hruns := runs_runParser (runs_move hmove hts hne hts' options) grammar
  rw [parseNode_eq_mapError, parseNode_eq_mapError]
  generalize source.runParser grammar options = result at hruns
  generalize source'.runParser grammar options = result' at hruns
  cases hruns with
  | ok hview => exact .ok hview
  | error hfault =>
    obtain ⟨cause, t, _, ⟨-, ht, rfl⟩, rfl, rfl⟩ := hfault
    exact .error ht rfl rfl rfl rfl

end Source

/-- Ignored text is ignored.  A filler may be put into a source where it begins or where one of
its tokens ends: then the same tokens are read, of which those that do not start before the
place are moved by the length of the filler, and parsing comes to the same but for places. -/
theorem Source.parseNode_fill {source source' : Source} {w front back : List Char}
    {ts : List Token} (hw : IsFiller w) (hchars : source.chars = front ++ back)
    (hchars' : source'.chars = front ++ w ++ back) (hfits : source'.byteCount < UInt32.size)
    (h : source.tokens = ts.map .ok)
    (hplace : front = [] ∨ ∃ t ∈ ts, t.stop.toNat = byteLength front) :
    let move := Token.shiftFrom (.ofNat (byteLength front)) (.ofNat (byteLength w))
    source'.tokens = (ts.map move).map .ok ∧
      ∀ grammar options, SameButPlaces ts move (source.parseNode grammar options)
        (source'.parseNode grammar options) := by
  intro move
  have htokens := tokens_fill hw hchars hchars' hfits h hplace
  have hsmaller : source.byteCount < UInt32.size := by
    rw [byteCount_eq, hchars'] at hfits
    rw [byteCount_eq, hchars]
    simp only [byteLength_append] at hfits ⊢
    omega
  exact ⟨htokens, fun grammar options => parseNode_move (Token.lexeme_shiftFrom _ _) h
    (tokens_isStream hsmaller).ne_nil htokens grammar options⟩

/-- A comma and a comment move a brace, and the end behind it, by five bytes. -/
theorem Source.parseNode_fill_comment :
    let source : Source := ⟨"\x7ba\x7d", ""⟩
    let source' : Source := ⟨"\x7ba,#é\n\x7d", ""⟩
    let ts : List Token := [⟨.bare .braceOpen, 0, 1⟩, ⟨⟨.name, some "a"⟩, 1, 2⟩,
      ⟨.bare .braceClose, 2, 3⟩, ⟨.bare .eof, 3, 3⟩]
    source.tokens = ts.map .ok ∧
      source'.tokens = [.ok ⟨.bare .braceOpen, 0, 1⟩, .ok ⟨⟨.name, some "a"⟩, 1, 2⟩,
        .ok ⟨.bare .braceClose, 7, 8⟩, .ok ⟨.bare .eof, 8, 8⟩] ∧
      ∀ grammar options, SameButPlaces ts (Token.shiftFrom 2 5)
        (source.parseNode grammar options) (source'.parseNode grammar options) := by
  intro source source' ts
  have hline : ∀ d ∈ ['é'], ¬ EndsLine d := by simp [EndsLine]
  have hw : IsFiller [',', '#', 'é', '\n'] :=
    .spacing (isBlank_iff.1 rfl) (.comment hline (by simp [EndsLine]) .nil)
  have hts : source.tokens = ts.map .ok := by decide +kernel
  have hfits : source'.byteCount < UInt32.size := by decide
  have hchars : source.chars = ['\x7b', 'a'] ++ ['\x7d'] := by decide
  have hchars' : source'.chars = ['\x7b', 'a'] ++ [',', '#', 'é', '\n'] ++ ['\x7d'] := by
    decide
  obtain ⟨htokens, hparse⟩ := parseNode_fill hw hchars hchars' hfits hts
    (.inr ⟨⟨⟨.name, some "a"⟩, 1, 2⟩, by decide, by decide⟩)
  exact ⟨hts, htokens, hparse⟩

end GraphQLSyntax
