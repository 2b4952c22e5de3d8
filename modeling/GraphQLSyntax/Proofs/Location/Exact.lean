import GraphQLSyntax.Proofs.Comparison.Options
import GraphQLSyntax.Proofs.Location.Document

/-!
# Locations are exact

Every node of a parsed tree but the document itself is located from the start of its first
token to the end of its last one.  The tokens in between are those that it is written
with, and so are the tokens of its text if that is read alone.  Children are located inside
their parent, one after the other.
-/

namespace GraphQLSyntax

/-- The text of the source is read as the lexemes. -/
def Source.IsReadAs (source : Source) (ls : List Lexeme) : Prop :=
  ∃ (ts : List Token) (token : Token), source.tokens = ts.map .ok ++ [.ok token] ∧
    token.kind = .eof ∧ ts.map Token.lexeme = ls

/-- The location covers a text between two characters of the source, which is read as the
lexemes. -/
def Location.CoversTextOf (location : Location) (source : Source) (ls : List Lexeme) : Prop :=
  ∃ before text after : String, source.body = before ++ text ++ after ∧
    before.utf8ByteSize = location.start.toNat ∧
    (before ++ text).utf8ByteSize = location.stop.toNat ∧
    location.text? = some text ∧ { source with body := text }.IsReadAs ls

/-- The location is that of lexemes among the tokens of a source. -/
structure Location.IsExact (location : Location) (source : Source) (ts : List Token)
    (ls : List Lexeme) : Prop where
  source_eq : location.source = some source
  start_mem : location.start ∈ ts.map Token.start
  stop_mem : location.stop ∈ ts.map Token.stop
  nonempty : location.start < location.stop
  between_eq : (Token.between ts location.start location.stop).map Token.lexeme = ls
  coversText : location.CoversTextOf source ls

namespace Node

/-- One node is located inside another. -/
def IsInside (n m : Node Tag) : Prop :=
  ∃ l ∈ n.tag.location, ∃ l' ∈ m.tag.location, l'.start ≤ l.start ∧ l.stop ≤ l'.stop

/-- One node is located before another. -/
def IsBefore (n m : Node Tag) : Prop :=
  ∃ l ∈ n.tag.location, ∃ l' ∈ m.tag.location, l.stop ≤ l'.start

/-- The children of a node are located inside it, one after the other. -/
structure LocatesChildren (n : Node Tag) : Prop where
  inside : ∀ c ∈ n.children, c.IsInside n
  apart : n.children.Pairwise IsBefore

end Node

section

variable {source : Source} {ts u : List Token} {token : Token} {n : Node Tag}

/-- Tokens next to each other are read again from the text that a tag of theirs covers. -/
theorem Tag.Spans.coversTextOf (hfits : source.byteCount < UInt32.size)
    (htokens : source.tokens = ts.map .ok ++ [.ok token]) (hkind : token.kind = .eof)
    {tag : Tag} (hspans : tag.Spans u) (hu : u <:+: ts) :
    Location.CoversTextOf ⟨tag.start, tag.stop, some source⟩ source (u.map Token.lexeme) := by
  obtain ⟨v, w, rfl⟩ := hu
  obtain ⟨first, -, hfirst, hstart⟩ := hspans.exists_first
  obtain ⟨last, -, hlast, hstop⟩ := hspans.exists_last
  obtain ⟨-, -, segment, rest, hchars, hreads, -⟩ := Source.reads_of_tokens hfits htokens hkind
  obtain ⟨before, text, after, us, rfl, hbefore, hupTo, hus, heq⟩ := hreads.cut hfirst hlast
  rw [Nat.zero_add, hstart] at hbefore
  rw [Nat.zero_add, hstop] at hupTo
  rw [List.append_assoc (before ++ text)] at hchars
  have htext : (Source.mk (.ofList text) source.name).byteCount < UInt32.size := by
    have hsize := source.byteCount_eq
    rw [hchars, byteLength_append, byteLength_append] at hsize
    rw [Source.byteCount_eq, Source.chars, String.toList_ofList]
    omega
  have hsize : ∀ cs, (String.ofList cs).utf8ByteSize = byteLength cs := fun cs => by
    rw [utf8ByteSize_eq_byteLength, String.toList_ofList]
  refine ⟨.ofList before, .ofList text, .ofList (after ++ rest), ?_, ?_, ?_, ?_, ?_⟩
  · rw [← String.ofList_append, ← String.ofList_append, ← hchars, Source.chars,
      String.ofList_toList]
  · rw [hbefore, hsize, source.toNat_byteLength hfits (List.append_assoc before .. ▸ hchars)]
  · rw [hupTo, ← String.ofList_append, hsize, source.toNat_byteLength hfits hchars]
  · rw [hbefore, hupTo]
    exact Location.text?_eq_some hfits hchars
  · have hus' : Reads 0 (Source.mk (.ofList text) source.name).chars us [] := by
      rwa [Source.chars, String.toList_ofList]
    have htokens := Source.tokens_of_reads htext (List.append_nil _).symm hus' .nil
    exact ⟨us, _, htokens, rfl, heq⟩

/-- A node that lies over tokens is located exactly where these are. -/
theorem Node.LiesOver.isExact (hfits : source.byteCount < UInt32.size)
    (htokens : source.tokens = ts.map .ok ++ [.ok token]) (hkind : token.kind = .eof)
    (hover : n.LiesOver u) (hu : u <:+: ts) :
    Location.IsExact ⟨n.tag.start, n.tag.stop, some source⟩ source ts n.yield := by
  obtain ⟨hts, -⟩ := Source.tokens_inOrder hfits htokens hkind
  obtain ⟨first, hfirst, -, hstart⟩ := hover.spans.exists_first
  obtain ⟨last, hlast, -, hstop⟩ := hover.spans.exists_last
  refine ⟨rfl, ?_, ?_, (hts.sublist hu.sublist).start_lt_stop hover.spans, ?_, ?_⟩
  · exact List.mem_map.2 ⟨first, hu.subset hfirst, hstart⟩
  · exact List.mem_map.2 ⟨last, hu.subset hlast, hstop⟩
  · obtain ⟨v, w, rfl⟩ := hu
    rw [hts.between_eq hover.spans, hover.map_lexeme]
  · rw [← hover.map_lexeme]
    exact hover.spans.coversTextOf hfits htokens hkind hu

/-- The children of a node whose tag encloses the tokens that they lie over. -/
theorem Tiles.locatesChildren (hwritten : n.IsWritten) (htiles : Tiles n.pieces u)
    (hu : Token.InOrder u) (htag : n.tag.Encloses u)
    (hlocated : ∀ m ∈ n.preorder,
      m.tag.location = some ⟨m.tag.start, m.tag.stop, some source⟩) :
    n.LocatesChildren := by
  have hchildren : n.children = n.pieces.filterMap Piece.child? :=
    n.children_eq_filterMap_pieces hwritten
  have hnode := hlocated n n.self_mem_preorder
  have hchild : ∀ c ∈ n.children, c.tag.location = some ⟨c.tag.start, c.tag.stop, some source⟩ :=
    fun c hc => hlocated c (Node.mem_preorder_of_mem_children hc c.self_mem_preorder)
  constructor
  · intro c hc
    refine ⟨_, hchild c hc, _, hnode, ?_⟩
    rw [hchildren] at hc
    exact htiles.within htag hc
  · have hpairwise := htiles.pairwise hu
    rw [← hchildren] at hpairwise
    refine hpairwise.imp_of_mem fun hc hd hle => ?_
    exact ⟨_, hchild _ hc, _, hchild _ hd, hle⟩

end

/-- In a source that is not too long, and with nothing left out of locations, the document
is located from the first token to the end of the source, every other node exactly where it
is written, and children inside their parent, one after the other. -/
theorem Source.parseNode_locates {source : Source} (hfits : source.byteCount < UInt32.size)
    {grammar : Grammar} {t : Node Tag} (h : source.parseNode grammar {} = .ok t) :
    ∃ (ts : List Token) (first token : Token), source.tokens = ts.map .ok ++ [.ok token] ∧
      token.kind = .eof ∧ ts.head? = some first ∧
      t.tag.location = some ⟨first.start, source.length, some source⟩ ∧
      (∀ n ∈ t.preorder.tail, ∃ l ∈ n.tag.location, l.IsExact source ts n.yield) ∧
      ∀ n ∈ t.preorder, n.LocatesChildren := by
  obtain ⟨ts, token, htokens, hkind, ht⟩ := parseNode_isDocumentOver (tokens_isStream hfits) h
  have hlocated : ∀ n ∈ t.preorder,
      n.tag.location = some ⟨n.tag.start, n.tag.stop, some source⟩ :=
    fun n => location_of_parseNode h
  obtain ⟨hts, hstops⟩ := tokens_inOrder hfits htokens hkind
  obtain ⟨-, hend, -⟩ := reads_of_tokens hfits htokens hkind
  obtain ⟨first, hfirst, hstart⟩ := Option.map_eq_some_iff.1 ht.start_eq
  have hroot : t.tag.Encloses ts := by
    intro t ht'
    rw [← hstart, ht.stop_eq, hend]
    exact ⟨hts.head_start_le hfirst ht', hstops t ht'⟩
  refine ⟨ts, first, token, htokens, hkind, hfirst, ?_, fun n hn => ?_, fun n hn => ?_⟩
  · rw [hlocated t t.self_mem_preorder, hstart, ← hend, ← ht.stop_eq]
  · obtain ⟨u, hu, hover⟩ := Node.exists_liesOver_of_mem_tail ht.isWritten ht.tiles hn
    exact ⟨_, hlocated n (List.mem_of_mem_tail hn), hover.isExact hfits htokens hkind hu⟩
  · have hbelow : ∀ m ∈ n.preorder,
        m.tag.location = some ⟨m.tag.start, m.tag.stop, some source⟩ :=
      fun m hm => hlocated m (Node.mem_preorder_trans hn hm)
    rw [Node.preorder_eq] at hn
    obtain rfl | hn := List.mem_cons.1 hn
    · exact ht.tiles.locatesChildren ht.isWritten hts hroot hbelow
    · obtain ⟨u, hu, hover⟩ := Node.exists_liesOver_of_mem_tail ht.isWritten ht.tiles
        (by rwa [Node.preorder_eq])
      have hinorder := hts.sublist hu.sublist
      exact hover.tiles.locatesChildren hover.isWritten hinorder (hover.spans.encloses hinorder)
        hbelow

/-- A list of non-null values with a default, and an alias: each node ends with what it is
written with, also where its last token is that of a child. -/
theorem Source.parseNode_locates_nested :
    (Source.mk "query q($a:[Int!]=[1])\x7bb:c\x7d " "").byteCount < UInt32.size ∧
      ∃ t, (Source.mk "query q($a:[Int!]=[1])\x7bb:c\x7d " "").parseNode .executable {} = .ok t ∧
        (t.preorder.map fun n => n.tag.location.map fun l => (l.start.toNat, l.stop.toNat)) =
          [some (0, 28), some (0, 27), some (6, 7), some (8, 21), some (8, 10), some (9, 10),
            some (11, 17), some (12, 16), some (12, 15), some (12, 15), some (18, 21),
            some (19, 20), some (22, 27), some (23, 26), some (23, 24), some (25, 26)] ∧
        (∃ ts, ∀ n ∈ t.preorder.tail, ∃ l ∈ n.tag.location,
          l.IsExact (Source.mk "query q($a:[Int!]=[1])\x7bb:c\x7d " "") ts n.yield) ∧
        ∀ n ∈ t.preorder, n.LocatesChildren := by
  have hfits : (Source.mk "query q($a:[Int!]=[1])\x7bb:c\x7d " "").byteCount < UInt32.size := by
    decide
  have hranges : ((Source.mk "query q($a:[Int!]=[1])\x7bb:c\x7d " "").parseNode .executable {} >>=
      fun t => .ok (t.preorder.map fun n =>
        n.tag.location.map fun l => (l.start.toNat, l.stop.toNat))) =
      .ok [some (0, 28), some (0, 27), some (6, 7), some (8, 21), some (8, 10), some (9, 10),
        some (11, 17), some (12, 16), some (12, 15), some (12, 15), some (18, 21),
        some (19, 20), some (22, 27), some (23, 26), some (23, 24), some (25, 26)] := by
    decide +kernel
  obtain ⟨t, ht, hranges⟩ := bind_eq_ok_iff.1 hranges
  obtain ⟨ts, -, -, -, -, -, -, hexact, hchildren⟩ := parseNode_locates hfits ht
  exact ⟨hfits, t, ht, Except.ok.inj hranges, ⟨ts, hexact⟩, hchildren⟩

end GraphQLSyntax
