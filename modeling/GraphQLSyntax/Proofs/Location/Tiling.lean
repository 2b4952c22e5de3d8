import GraphQLSyntax.Grammar.Parser
import GraphQLSyntax.Proofs.Lexical.Segment
import GraphQLSyntax.Proofs.Tree.Tags
import GraphQLSyntax.Proofs.Yield.Node

/-!
# Trees laid out over tokens

A tree lies over a list of tokens if its pieces take up the tokens one after the other: a
lexeme takes up a token, a child the tokens that its own pieces take up, and its tag reaches
from the start of the first of these to the end of the last one.  Where no token begins before
the one before it has ended, all that can be said about the places in the tree follows from
this: which tokens lie between the ends of a node, that children lie inside their parent, and
that they do so one after the other.
-/

namespace GraphQLSyntax

/-- The tag reaches from the start of the first token to the end of the last one. -/
structure Tag.Spans (tag : Tag) (u : List Token) : Prop where
  start_eq : u.head?.map Token.start = some tag.start
  stop_eq : u.getLast?.map Token.stop = some tag.stop

/-- The pieces take up the tokens one after the other. -/
inductive Tiles : List (Piece Tag) → List Token → Prop
  | nil : Tiles [] []
  | lexeme (t : Token) {ps : List (Piece Tag)} {u : List Token} (hrest : Tiles ps u) :
      Tiles (.lexeme t.lexeme :: ps) (t :: u)
  | child (n : Node Tag) {ps : List (Piece Tag)} {u v : List Token} (hwritten : n.IsWritten)
      (hspans : n.tag.Spans v) (hpieces : Tiles n.pieces v) (hrest : Tiles ps u) :
      Tiles (.child n :: ps) (v ++ u)

/-- The node lies over the tokens, from the first to the last one. -/
structure Node.LiesOver (n : Node Tag) (u : List Token) : Prop where
  isWritten : n.IsWritten
  spans : n.tag.Spans u
  tiles : Tiles n.pieces u

theorem Tag.Spans.ne_nil {tag : Tag} {u : List Token} (h : tag.Spans u) : u ≠ [] := by
  rintro rfl
  cases h.start_eq

/-- The first token, at which the tag starts. -/
theorem Tag.Spans.exists_first {tag : Tag} {u : List Token} (h : tag.Spans u) :
    ∃ t ∈ u, u.head? = some t ∧ t.start = tag.start := by
  obtain ⟨t, ht, hstart⟩ := Option.map_eq_some_iff.1 h.start_eq
  exact ⟨t, List.mem_of_head? ht, ht, hstart⟩

/-- The last token, at which the tag stops. -/
theorem Tag.Spans.exists_last {tag : Tag} {u : List Token} (h : tag.Spans u) :
    ∃ t ∈ u, u.getLast? = some t ∧ t.stop = tag.stop := by
  obtain ⟨t, ht, hstop⟩ := Option.map_eq_some_iff.1 h.stop_eq
  exact ⟨t, List.mem_of_getLast? ht, ht, hstop⟩

namespace Tiles

variable {ps qs : List (Piece Tag)} {u v : List Token}

theorem append (h : Tiles ps u) (h' : Tiles qs v) : Tiles (ps ++ qs) (u ++ v) := by
  induction h with
  | nil => exact h'
  | lexeme t _ ih => exact .lexeme t ih
  | child n hwritten hspans hpieces _ _ ih =>
    rw [List.append_assoc]
    exact .child n hwritten hspans hpieces ih

theorem of_liesOver {n : Node Tag} (h : n.LiesOver u) : Tiles [.child n] u := by
  rw [← List.append_nil u]
  exact .child n h.isWritten h.spans h.tiles .nil

theorem ne_nil (h : Tiles ps u) (hps : ps ≠ []) : u ≠ [] := by
  cases h with
  | nil => exact absurd rfl hps
  | lexeme => simp
  | child n _ hspans => simp [hspans.ne_nil]

/-- The tokens are what the pieces are written with. -/
theorem map_lexeme (h : Tiles ps u) : u.map Token.lexeme = ps.flatMap Piece.yield := by
  induction h with
  | nil => rfl
  | lexeme t _ ih => simp [ih]
  | child n _ _ _ _ ihpieces ih =>
    rw [List.map_append, List.flatMap_cons, ihpieces, ih, ← n.yield_eq_flatMap_pieces]
    rfl

/-- Each child lies over some of the tokens, which are next to each other. -/
theorem exists_liesOver (h : Tiles ps u) {n : Node Tag} (hn : n ∈ ps.filterMap Piece.child?) :
    ∃ v, v <:+: u ∧ n.LiesOver v := by
  induction h with
  | nil => simp at hn
  | @lexeme t ps u _ ih =>
    obtain ⟨v, hv, hover⟩ := ih (by simpa [List.filterMap_cons] using hn)
    exact ⟨v, hv.trans (List.suffix_cons t u).isInfix, hover⟩
  | @child m ps u w hwritten hspans hpieces _ _ ih =>
    obtain rfl | hn : n = m ∨ n ∈ ps.filterMap Piece.child? := by
      simpa [List.filterMap_cons, Piece.child?] using hn
    · exact ⟨w, (List.prefix_append w u).isInfix, hwritten, hspans, hpieces⟩
    · obtain ⟨v, hv, hover⟩ := ih hn
      exact ⟨v, hv.trans (List.suffix_append w u).isInfix, hover⟩

end Tiles

namespace Node

variable {n : Node Tag} {u : List Token}

/-- The nodes below one whose pieces take up tokens lie over some of these tokens. -/
theorem exists_liesOver_of_mem_tail (hwritten : n.IsWritten) (htiles : Tiles n.pieces u)
    {m : Node Tag} (hm : m ∈ n.preorder.tail) : ∃ v, v <:+: u ∧ m.LiesOver v := by
  induction n using inductionOn generalizing u with
  | step n ih =>
    rw [preorder_eq, List.tail_cons] at hm
    obtain ⟨c, hc, hm⟩ := List.mem_flatMap.1 hm
    have hpiece : c ∈ n.pieces.filterMap Piece.child? := by
      rwa [← children_eq_filterMap_pieces hwritten]
    obtain ⟨v, hv, hover⟩ := htiles.exists_liesOver hpiece
    obtain rfl | hm : m = c ∨ m ∈ c.preorder.tail := by
      rw [preorder_eq] at hm ⊢
      exact List.mem_cons.1 hm
    · exact ⟨v, hv, hover⟩
    · obtain ⟨w, hw, hover'⟩ := ih c hc hover.isWritten hover.tiles hm
      exact ⟨w, hw.trans hv, hover'⟩

theorem LiesOver.map_lexeme (h : n.LiesOver u) :
    u.map Token.lexeme = n.yield := by
  rw [h.tiles.map_lexeme, yield_eq_flatMap_pieces]

end Node

/-! ## Tokens between the ends of a tag -/

/-- The tokens between two offsets. -/
def Token.between (ts : List Token) (start stop : UInt32) : List Token :=
  ts.filter fun t => start ≤ t.start ∧ t.stop ≤ stop

namespace Token.InOrder

variable {u v w : List Token}

/-- The tokens between the ends of a tag are those that it spans. -/
theorem between_eq (h : InOrder (u ++ v ++ w)) {tag : Tag} (hspans : tag.Spans v) :
    between (u ++ v ++ w) tag.start tag.stop = v := by
  obtain ⟨first, hfirst, hhead, hstart⟩ := hspans.exists_first
  obtain ⟨last, hlast, hend, hstop⟩ := hspans.exists_last
  have hv : InOrder v := h.sublist (List.IsInfix.sublist ⟨u, w, rfl⟩)
  have hbefore : between u tag.start tag.stop = [] := by
    refine List.filter_eq_nil_iff.2 fun t ht hinside => ?_
    have hlt := h.nonempty t (by simp [ht])
    rw [List.append_assoc] at h
    have hle := h.stop_le_start ht (List.mem_append_left w hfirst)
    rw [decide_eq_true_eq, ← hstart] at hinside
    exact UInt32.lt_irrefl _ (UInt32.lt_of_lt_of_le hlt (UInt32.le_trans hle hinside.1))
  have hafter : between w tag.start tag.stop = [] := by
    refine List.filter_eq_nil_iff.2 fun t ht hinside => ?_
    have hlt := h.nonempty t (by simp [ht])
    have hle := h.stop_le_start (List.mem_append_right u hlast) ht
    rw [decide_eq_true_eq, ← hstop] at hinside
    exact UInt32.lt_irrefl _ (UInt32.lt_of_lt_of_le hlt (UInt32.le_trans hinside.2 hle))
  have hinside : between v tag.start tag.stop = v := by
    refine List.filter_eq_self.2 fun t ht => ?_
    rw [decide_eq_true_eq, ← hstart, ← hstop]
    exact ⟨hv.head_start_le hhead ht, hv.stop_le_last hend ht⟩
  rw [between] at hbefore hafter hinside ⊢
  rw [List.filter_append, List.filter_append, hbefore, hafter, hinside, List.nil_append,
    List.append_nil]

theorem start_lt_stop (h : InOrder u) {tag : Tag} (hspans : tag.Spans u) :
    tag.start < tag.stop := by
  obtain ⟨first, hfirst, -, hstart⟩ := hspans.exists_first
  obtain ⟨last, -, hlast, hstop⟩ := hspans.exists_last
  rw [← hstart, ← hstop]
  exact UInt32.lt_of_lt_of_le (h.nonempty first hfirst) (h.stop_le_last hlast hfirst)

end Token.InOrder

/-! ## Tags in order -/

/-- The tokens lie between the ends of the tag. -/
def Tag.Encloses (tag : Tag) (u : List Token) : Prop :=
  ∀ t ∈ u, tag.start ≤ t.start ∧ t.stop ≤ tag.stop

theorem Tag.Spans.encloses {tag : Tag} {u : List Token} (h : tag.Spans u)
    (hu : Token.InOrder u) : tag.Encloses u := by
  intro t ht
  obtain ⟨first, -, hfirst, hstart⟩ := h.exists_first
  obtain ⟨last, -, hlast, hstop⟩ := h.exists_last
  rw [← hstart, ← hstop]
  exact ⟨hu.head_start_le hfirst ht, hu.stop_le_last hlast ht⟩

namespace Tiles

variable {ps : List (Piece Tag)} {u : List Token}

/-- The tags of children do not reach beyond the tokens that they are laid out over. -/
theorem within (h : Tiles ps u) {tag : Tag} (htag : tag.Encloses u) {n : Node Tag}
    (hn : n ∈ ps.filterMap Piece.child?) :
    tag.start ≤ n.tag.start ∧ n.tag.stop ≤ tag.stop := by
  obtain ⟨v, hv, hover⟩ := h.exists_liesOver hn
  obtain ⟨first, hfirst, -, hstart⟩ := hover.spans.exists_first
  obtain ⟨last, hlast, -, hstop⟩ := hover.spans.exists_last
  rw [← hstart, ← hstop]
  exact ⟨(htag first (hv.subset hfirst)).1, (htag last (hv.subset hlast)).2⟩

/-- The tags of children come one after the other. -/
theorem pairwise (h : Tiles ps u) (hu : Token.InOrder u) :
    (ps.filterMap Piece.child?).Pairwise fun n m => n.tag.stop ≤ m.tag.start := by
  induction h with
  | nil => exact .nil
  | @lexeme t ps u _ ih =>
    simpa [List.filterMap_cons, Piece.child?] using
      ih (hu.sublist (List.sublist_cons_self t u))
  | @child n ps u v _ hspans _ hrest ihpieces ih =>
    rw [List.filterMap_cons]
    refine .cons (fun m hm => ?_) (ih (hu.sublist (List.sublist_append_right v u)))
    obtain ⟨w, hw, hover⟩ := hrest.exists_liesOver hm
    obtain ⟨last, hlast, -, hstop⟩ := hspans.exists_last
    obtain ⟨first, hfirst, -, hstart⟩ := hover.spans.exists_first
    rw [← hstop, ← hstart]
    exact hu.stop_le_start hlast (hw.subset hfirst)

end Tiles

end GraphQLSyntax
