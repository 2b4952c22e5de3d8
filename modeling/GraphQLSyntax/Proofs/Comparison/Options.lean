import GraphQLSyntax.Proofs.Comparison.Schema
import GraphQLSyntax.Proofs.Tree.Tags

/-!
# What parse options decide

A parse by some options goes along with one by default options: whatever the options are, both
have the same tokens to read, and both give their nodes the same numbers.  Only where a node is
tagged are the options looked at.  So two parses of a source by different options come to the same
error, or to trees that differ in their tags at most; and of the locations that a parse by default
options gives to all nodes, the options leave out the source or everything.
-/

namespace GraphQLSyntax

/-! ## A parse by options and one by default options -/

namespace ParseOptions

/-- The tag that a node over the same bytes has by the options. -/
def retag (options : ParseOptions) (source : Source) (tag : Tag) : Tag :=
  { tag with location := options.locate source tag.start tag.stop }

/-- The first run goes by the options, the second one by default options, and otherwise they are in
the same state. -/
structure Accompanies (options : ParseOptions) (source : Source) (s s' : ParserState) : Prop where
  source_eq : s.source = source
  options_eq : s.options = options
  eq_default : s' = { s with options := {} }

/-- The tags of the first run are those of the second one by the options. -/
def comparison (options : ParseOptions) (source : Source) : Comparison Tag where
  Tokens := Eq
  Faults := Eq
  States := options.Accompanies source
  left := id
  right := options.retag source
  lexeme_eq := congrArg Token.lexeme
  faults_of_tokens := by
    rintro t _ cause rfl
    rfl
  ahead := by
    rintro s _ ⟨-, -, rfl⟩
    rfl
  advance := by
    rintro ⟨_, _, ahead, upcoming, lastStop, serial⟩ _ ⟨rfl, rfl, rfl⟩
    rcases upcoming with _ | ⟨fault | next, rest⟩
    · exact .ok rfl ⟨rfl, rfl, rfl⟩
    · exact .error rfl _ _
    · exact .ok rfl ⟨rfl, rfl, rfl⟩
  mark := by
    rintro s _ t _ ⟨rfl, rfl, rfl⟩ rfl
    exact .ok rfl ⟨rfl, rfl, rfl⟩

theorem runs_comparison {β δ : Type} {view : (Tag → Tag) → β → δ} {p : Nat → Parser β}
    (options : ParseOptions) (source : Source) (readings : List Reading)
    (hp : ∀ n, (options.comparison source).Alike view (p n) (p n)) :
    (options.comparison source).Runs view (Parser.run p source options readings)
      (Parser.run p source {} readings) :=
  match readings with
  | [] => .error rfl
  | .error _ :: _ => .error rfl
  | .ok _ :: _ => Comparison.Alike.run hp ⟨rfl, rfl, rfl⟩ rfl

end ParseOptions

/-- What is parsed by some options is what is parsed by default options, with tags by these
options. -/
theorem Source.parseNode_eq (source : Source) (grammar : Grammar) (options : ParseOptions) :
    source.parseNode grammar options =
      (source.parseNode grammar {}).map (Node.map (options.retag source)) := by
  have hruns := runs_runParser (options.runs_comparison source source.tokens) grammar
  rw [parseNode_eq_mapError, parseNode_eq_mapError]
  generalize source.runParser grammar options = result at hruns
  generalize source.runParser grammar {} = result' at hruns
  cases hruns with
  | @ok t whole hview =>
    -- the first run is looked at as it is
    exact congrArg Except.ok (t.map_id.symm.trans hview)
  | error hfault => exact congrArg (fun fault => Except.error (SyntaxError.mk source fault)) hfault

/-- By default options every node has a location, with the source. -/
theorem Source.location_of_parseNode {source : Source} {grammar : Grammar} {t n : Node Tag}
    (h : source.parseNode grammar {} = .ok t) (hn : n ∈ t.preorder) :
    n.tag.location = some ⟨n.tag.start, n.tag.stop, some source⟩ := by
  -- the tags are those by default options already
  have heq := source.parseNode_eq grammar {}
  rw [h] at heq
  rw [Except.ok.inj heq, Node.preorder_map] at hn
  obtain ⟨m, -, rfl⟩ := List.mem_map.1 hn
  rw [Node.tag_map]
  rfl

/-! ## What is left of locations -/

/-- Two outcomes of parsing differ in tags at most: they are the same error, or trees that
are the same once the tags are taken off. -/
def SameButTags : Except SyntaxError (Node Tag) → Except SyntaxError (Node Tag) → Prop
  | .error error, .error error' => error = error'
  | .ok t, .ok t' => t.map untag = t'.map untag
  | _, _ => False

/-- What the options leave of the locations in a tree, compared with those of the whole
tree, from which nothing is left out. -/
structure ParseOptions.Leaves (options : ParseOptions) (source : Source) (t whole : Node Tag) :
    Prop where
  /-- Without locations there is none, whatever else is asked for. -/
  of_noLocation : options.noLocation = true → ∀ n ∈ t.preorder, n.tag.location = none
  /-- Without the source, every node keeps its range of bytes. -/
  of_noSource : options.noLocation = false → options.noSource = true →
    List.Forall₂ (fun n m => ∃ l ∈ n.tag.location, ∃ l' ∈ m.tag.location,
      l.start = l'.start ∧ l.stop = l'.stop ∧ l.source = none) t.preorder whole.preorder
  /-- Otherwise every node has the source that was passed in. -/
  of_default : options.noLocation = false → options.noSource = false →
    ∀ n ∈ t.preorder, ∃ l ∈ n.tag.location, l.source = some source

theorem ParseOptions.leaves_map (options : ParseOptions) {source : Source} {whole : Node Tag}
    (h : ∀ m ∈ whole.preorder, m.tag.location = some ⟨m.tag.start, m.tag.stop, some source⟩) :
    options.Leaves source (whole.map (options.retag source)) whole := by
  refine ⟨fun hno => ?_, fun hno hsource => ?_, fun hno hsource => ?_⟩
  · rw [Node.preorder_map]
    refine List.forall_mem_map.2 fun m _ => ?_
    rw [Node.tag_map, retag, locate, if_pos hno]
  · rw [Node.preorder_map, List.forall₂_map_left_iff]
    refine List.forall₂_same.2 fun m hm => ?_
    rw [Node.tag_map]
    refine ⟨⟨m.tag.start, m.tag.stop, none⟩, ?_, _, h m hm, rfl, rfl, rfl⟩
    simp [retag, locate, hno, hsource]
  · rw [Node.preorder_map]
    refine List.forall_mem_map.2 fun m _ => ?_
    rw [Node.tag_map]
    refine ⟨⟨m.tag.start, m.tag.stop, some source⟩, ?_, rfl⟩
    simp [retag, locate, hno, hsource]

/-- Parse options matter for locations only.  By any two options a source is refused for the
same fault, or parsed as trees that differ in tags at most; and what is parsed by some
options is parsed by default options too, and has what the options leave of the locations
there. -/
theorem Source.parseNode_options (source : Source) (grammar : Grammar) :
    (∀ options options', SameButTags (source.parseNode grammar options)
      (source.parseNode grammar options')) ∧
    ∀ options t, source.parseNode grammar options = .ok t →
      ∃ whole, source.parseNode grammar {} = .ok whole ∧ options.Leaves source t whole := by
  have heq := source.parseNode_eq grammar
  cases hdefault : source.parseNode grammar {} with
  | error error =>
    have herror : ∀ options, source.parseNode grammar options = .error error := by
      intro options
      rw [heq, hdefault]
      rfl
    refine ⟨fun options options' => ?_, fun options t ht => ?_⟩
    · rw [herror, herror]
      rfl
    · rw [herror] at ht
      cases ht
  | ok whole =>
    have hok : ∀ options : ParseOptions,
        source.parseNode grammar options = .ok (whole.map (options.retag source)) := by
      intro options
      rw [heq, hdefault]
      rfl
    refine ⟨fun options options' => ?_, fun options t ht => ⟨whole, rfl, ?_⟩⟩
    · rw [hok, hok]
      show (whole.map _).map untag = (whole.map _).map untag
      rw [Node.map_map, Node.map_map]
      rfl
    · rw [hok] at ht
      obtain rfl := Except.ok.inj ht
      exact options.leaves_map fun m => location_of_parseNode hdefault

/-- Without the source, a field keeps the range of bytes that it has by default. -/
theorem Source.parseNode_options_noSource :
    let source : Source := ⟨"\x7ba\x7d", ""⟩
    ∃ t whole, source.parseNode .executable { noSource := true } = .ok t ∧
      source.parseNode .executable {} = .ok whole ∧ t.map untag = whole.map untag ∧
      (t.preorder.map fun n => n.tag.location) =
        [some ⟨0, 3, none⟩, some ⟨0, 3, none⟩, some ⟨0, 3, none⟩, some ⟨1, 2, none⟩,
          some ⟨1, 2, none⟩] ∧
      ParseOptions.Leaves { noSource := true } source t whole := by
  intro source
  have hlocations : (source.parseNode .executable { noSource := true } >>= fun t =>
      .ok (t.preorder.map fun n => n.tag.location)) =
      .ok [some ⟨0, 3, none⟩, some ⟨0, 3, none⟩, some ⟨0, 3, none⟩, some ⟨1, 2, none⟩,
        some ⟨1, 2, none⟩] := by
    decide +kernel
  obtain ⟨t, ht, hlocations⟩ := bind_eq_ok_iff.1 hlocations
  obtain ⟨hsame, hleaves⟩ := source.parseNode_options .executable
  obtain ⟨whole, hwhole, hleaves⟩ := hleaves _ t ht
  have hsame := hsame { noSource := true } {}
  rw [ht, hwhole] at hsame
  exact ⟨t, whole, ht, hwhole, hsame, Except.ok.inj hlocations, hleaves⟩

end GraphQLSyntax
