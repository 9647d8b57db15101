import DeclVisibility.Proofs.Text.Position
import DeclVisibility.Proofs.Tree.Links
import DeclVisibility.Tree.Basic

/-!
# Trees that read as one nested value

A tree shows a nested value if that stands below the root, whatever is held beside it
(`Tree.Shows`). It reads as one if its forest is made of that value and nothing else, and every
token of a fixed kind is spelled as its kind demands (`Tree.ReadsAs`). The text of such a tree is
the text of the value, and every node of the value starts where the text before it ends
(`Tree.Shows.offsetOf?_eq`), because the walk in search of a node stops where the tokens before it
end (`Subtree.seek_eq`).
-/

namespace DeclVisibility

/-- Whether a text is what a token of this kind must be written as. -/
def TokenKind.Spells (kind : TokenKind) (text : String) : Prop :=
  ∀ spelling, kind.spelling? = some spelling → text = spelling

/-- Every token is spelled as its kind demands. -/
def Subtree.Spelled (s : Subtree) : Prop := ∀ leaf ∈ s.leaves, leaf.kind.Spells leaf.text

theorem Subtree.spelled_token {leaf : Leaf} :
    (token leaf).Spelled ↔ leaf.kind.Spells leaf.text := by
  rw [Spelled, leaves_token, List.forall_mem_singleton]

theorem Subtree.spelled_element {id : ElementId} {kind : ElementKind} {children : List Subtree} :
    (element id kind children).Spelled ↔ ∀ c ∈ children, c.Spelled := by
  rw [Spelled, leaves_element, List.forall_mem_flatMap]
  rfl

/-- The root and what is below it are this nested value. Other nodes may be held beside it, and the
root may hang in one of them. -/
structure Tree.Shows (t : Tree) (s : Subtree) : Prop where
  root : s.id = .element t.root
  placed : ∃ tops, t.toForest.MadeOf tops ∧ ∃ top ∈ tops, ∃ p, (p, s) ∈ top.placed none

/-- The tree is this nested value, and nothing is held beside it. -/
structure Tree.ReadsAs (t : Tree) (s : Subtree) : Prop where
  madeOf : t.toForest.MadeOf [s]
  root : s.id = .element t.root
  spelled : s.Spelled

/-! ## Searching for a node -/

namespace Subtree

/-- What the search of a node ends with, given the tokens before it or else all of them. -/
def searchEnd (pos : Position) (all : List Leaf) : Option (List Leaf) → Search
  | some before => .found (pos + Position.ofString (textOfLeaves before))
  | none => .passed (pos + Position.ofString (textOfLeaves all))

theorem searchEnd_prepend (pos : Position) (first all : List Leaf) (before? : Option (List Leaf)) :
    searchEnd (pos + Position.ofString (textOfLeaves first)) all before? =
      searchEnd pos (first ++ all) (before?.map (first ++ ·)) := by
  cases before? <;>
    simp [searchEnd, textOfLeaves_append, Position.ofString_append, Position.add_assoc]

/-- The walk stops where the tokens before the node end. -/
theorem seek_eq {target : NodeId} {s : Subtree} : ∀ pos : Position,
    s.seek target pos = searchEnd pos s.leaves (s.leavesBefore? target) := by
  have empty : Position.ofString (textOfLeaves []) = .zero := rfl
  induction s with
  | token leaf =>
    intro pos
    rw [seek, leavesBefore?, leaves_token]
    split
    · rw [searchEnd, empty, Position.add_zero]
    · rw [searchEnd, textOfLeaves, List.map_singleton]
      simp
  | element id kind children ih =>
    -- a child that was passed moves the start of the search in the others
    have all : ∀ pos, seekAll target pos children =
        searchEnd pos (children.flatMap leaves) (leavesBeforeAll? target children) := by
      induction children with
      | nil =>
        intro pos
        rw [seekAll, leavesBeforeAll?, List.flatMap_nil, searchEnd, empty, Position.add_zero]
      | cons c rest ihr =>
        intro pos
        have hr := ihr fun s hs => ih s (List.mem_cons_of_mem c hs)
        rw [seekAll, ih c List.mem_cons_self pos, leavesBeforeAll?, List.flatMap_cons]
        cases c.leavesBefore? target with
        | some before => rfl
        | none =>
          rw [← searchEnd_prepend, ← hr]
          rfl
    intro pos
    rw [seek, leavesBefore?, leaves_element]
    split
    · rw [searchEnd, empty, Position.add_zero]
    · exact all pos

end Subtree

/-! ## What can be read off such a tree -/

namespace Tree.Shows

variable {t : Tree} {s : Subtree}

theorem exists_carries (h : t.Shows s) : ∃ p, t.Carries p s := by
  obtain ⟨tops, made, top, htop, p, hplace⟩ := h.placed
  exact ⟨p, (made.carries top htop).of_placed hplace⟩

theorem nodup (h : t.Shows s) : s.nodes.Nodup := by
  obtain ⟨tops, made, top, htop, p, hplace⟩ := h.placed
  exact (made.nodup_of_mem htop).sublist (Subtree.nodes_sublist hplace)

/-- The nested view of every node of the value is what is placed there. -/
theorem subtree? (h : t.Shows s) {q : Option ElementId} {x : Option ElementId × Subtree}
    (hx : x ∈ s.placed q) : t.subtree? x.2.id = some x.2 := by
  obtain ⟨tops, made, top, htop, p, hplace⟩ := h.placed
  obtain ⟨q', hx⟩ := Subtree.placed_in hx p
  exact made.subtree? htop (x := (q', x.2)) (Subtree.placed_trans hplace hx)

theorem whole? (h : t.Shows s) : t.whole? = some s := by
  rw [Tree.whole?, ← h.root]
  exact h.subtree? (Subtree.self_mem_placed none s)

theorem text (h : t.Shows s) : t.text = s.text := by
  have hwhole := h.whole?
  rw [Tree.whole?] at hwhole
  rw [Tree.text, Forest.nodeText, hwhole]

theorem nodeText_placed (h : t.Shows s) {q : Option ElementId} {x : Option ElementId × Subtree}
    (hx : x ∈ s.placed q) : t.nodeText x.2.id = x.2.text := by
  rw [Forest.nodeText, h.subtree? hx]

/-- A node starts where the text before it ends. -/
theorem offsetOf?_eq (h : t.Shows s) (node : NodeId) : t.offsetOf? node =
    (s.leavesBefore? node).map fun before => Position.ofString (Subtree.textOfLeaves before) := by
  rw [Tree.offsetOf?, h.whole?, Option.bind_some, Subtree.seek_eq]
  cases s.leavesBefore? node with
  | none => rfl
  | some before =>
    rw [Subtree.searchEnd, Subtree.Search.position?, Position.zero_add, Option.map_some]

/-- A placed node starts where the text before it ends, and its own text comes next. -/
theorem exists_span (h : t.Shows s) {q : Option ElementId} {x : Option ElementId × Subtree}
    (hx : x ∈ s.placed q) :
    ∃ before after, t.offsetOf? x.2.id = some (.ofString before) ∧
      t.text = before ++ t.nodeText x.2.id ++ after := by
  obtain ⟨before, after, hbefore, hleaves⟩ := Subtree.exists_span h.nodup hx
  refine ⟨Subtree.textOfLeaves before, Subtree.textOfLeaves after, ?_, ?_⟩
  · rw [h.offsetOf?_eq, hbefore, Option.map_some]
  · rw [h.text, h.nodeText_placed hx, Subtree.text, hleaves, Subtree.textOfLeaves_append,
      Subtree.textOfLeaves_append, Subtree.text]

end Tree.Shows

namespace Tree.ReadsAs

variable {t : Tree} {s : Subtree}

theorem shows (h : t.ReadsAs s) : t.Shows s where
  root := h.root
  placed := ⟨[s], h.madeOf, s, List.mem_cons_self, none, Subtree.self_mem_placed none s⟩

theorem carries (h : t.ReadsAs s) : t.Carries none s :=
  h.madeOf.carries s List.mem_cons_self

theorem nodup (h : t.ReadsAs s) : s.nodes.Nodup :=
  h.madeOf.nodup_of_mem List.mem_cons_self

theorem holds_iff (h : t.ReadsAs s) {node : NodeId} : t.holds node = true ↔ node ∈ s.nodes := by
  rw [h.madeOf.holds_iff, List.flatMap_singleton]

theorem exists_placed (h : t.ReadsAs s) {node : NodeId} (held : t.holds node = true) :
    ∃ x ∈ s.placed none, x.2.id = node :=
  (Subtree.mem_nodes_iff none).mp (h.holds_iff.mp held)

theorem exists_placed_element (h : t.ReadsAs s) {id : ElementId}
    (held : t.holds (.element id) = true) :
    ∃ q kind children, (q, .element id kind children) ∈ s.placed none := by
  obtain ⟨u, hu, hx⟩ := h.madeOf.exists_placed_element held
  rw [List.mem_singleton] at hu
  exact hu ▸ hx

theorem whole? (h : t.ReadsAs s) : t.whole? = some s := h.shows.whole?

theorem text (h : t.ReadsAs s) : t.text = s.text := h.shows.text

theorem nodeText_placed (h : t.ReadsAs s) {x : Option ElementId × Subtree}
    (hx : x ∈ s.placed none) : t.nodeText x.2.id = x.2.text :=
  h.shows.nodeText_placed hx

/-- A node starts where the text before it ends. -/
theorem offsetOf?_eq (h : t.ReadsAs s) (node : NodeId) : t.offsetOf? node =
    (s.leavesBefore? node).map fun before => Position.ofString (Subtree.textOfLeaves before) :=
  h.shows.offsetOf?_eq node

theorem offsetOf?_isSome (h : t.ReadsAs s) {node : NodeId} (held : t.holds node = true) :
    (t.offsetOf? node).isSome := by
  obtain ⟨before, hbefore⟩ := Subtree.exists_leavesBefore? (h.holds_iff.mp held)
  rw [h.offsetOf?_eq, hbefore]
  rfl

/-- A placed node starts where the text before it ends, and its own text comes next. -/
theorem exists_span (h : t.ReadsAs s) {x : Option ElementId × Subtree} (hx : x ∈ s.placed none) :
    ∃ before after, t.offsetOf? x.2.id = some (.ofString before) ∧
      t.text = before ++ t.nodeText x.2.id ++ after :=
  h.shows.exists_span hx

/-- A position in the tree is the extent of the text before it. -/
theorem exists_text_of_offsetOf? (h : t.ReadsAs s) {node : NodeId} {pos : Position}
    (hpos : t.offsetOf? node = some pos) :
    ∃ before after, t.text = before ++ after ∧ pos = .ofString before := by
  have held : t.holds node = true := by
    rw [h.offsetOf?_eq, Option.map_eq_some_iff] at hpos
    obtain ⟨before, hbefore, -⟩ := hpos
    exact h.holds_iff.mpr (Subtree.mem_nodes_of_leavesBefore? hbefore)
  obtain ⟨x, hx, rfl⟩ := h.exists_placed held
  obtain ⟨before, after, hoffset, htext⟩ := h.exists_span hx
  rw [String.append_assoc] at htext
  refine ⟨before, _, htext, ?_⟩
  exact Option.some.inj (hpos.symm.trans hoffset)

end Tree.ReadsAs

end DeclVisibility
