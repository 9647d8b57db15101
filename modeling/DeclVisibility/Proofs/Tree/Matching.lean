import DeclVisibility.Proofs.Outline.Mirror
import DeclVisibility.Proofs.Tree.Bare

/-!
# Trees that differ in spaces and comments

Two trees are alike if their nested values have the same draft once spaces and comments are left
out (`Tree.Alike`). The nodes that carry meaning are then matched in text order (`Subtree.Matched`),
and with two nodes their parents and their children are matched (`Subtree.Faces`). So the elements
of one tree mirror those of the other (`Tree.Alike.mirrors`), with the same visibilities and the
same texts without trivia, and the anchor of a declaration is matched by an anchor
(`Tree.Alike.anchorOf`).
-/

namespace DeclVisibility

/-- Two lists without repetitions match each entry of the one with one entry of the other. -/
theorem eq_iff_of_mem_zip {α β : Type} {as : List α} {bs : List β} (nodup : as.Nodup)
    (nodup' : bs.Nodup) {a b : α} {a' b' : β} (ha : (a, a') ∈ as.zip bs)
    (hb : (b, b') ∈ as.zip bs) : a = b ↔ a' = b' := by
  obtain ⟨i, hi, heq⟩ := List.mem_iff_getElem.mp ha
  obtain ⟨j, hj, heq'⟩ := List.mem_iff_getElem.mp hb
  rw [List.getElem_zip] at heq heq'
  obtain ⟨rfl, rfl⟩ := Prod.mk.inj heq
  obtain ⟨rfl, rfl⟩ := Prod.mk.inj heq'
  rw [nodup.getElem_inj_iff, nodup'.getElem_inj_iff]

/-- An entry of a list faces one of the list that is related to it. -/
theorem exists_split_of_forall₂ {α β : Type} {Mate : α → β → Prop} {a : α} {before after : List α} :
    ∀ {bs : List β}, List.Forall₂ Mate (before ++ a :: after) bs → ∃ before' b after',
      bs = before' ++ b :: after' ∧ List.Forall₂ Mate before before' ∧ Mate a b := by
  induction before with
  | nil =>
    intro bs h
    obtain ⟨b, after', ha, -, rfl⟩ := List.forall₂_cons_left_iff.mp h
    exact ⟨[], b, after', rfl, .nil, ha⟩
  | cons first before ih =>
    intro bs h
    obtain ⟨b, rest, hfirst, hrest, rfl⟩ := List.forall₂_cons_left_iff.mp h
    obtain ⟨before', b', after', rfl, hbefore, ha⟩ := ih hrest
    exact ⟨b :: before', b', after', rfl, .cons hfirst hbefore, ha⟩

namespace Subtree

/-! ## Values with the same draft, node by node -/

/-- The subtrees that hang in the top. -/
def children : Subtree → List Subtree
  | token _ => []
  | element _ _ children => children

/-- Two subtrees with the same draft whose nodes are related in order. -/
structure Mates (Mate : NodeId → NodeId → Prop) (s s' : Subtree) : Prop where
  draft : s.draft = s'.draft
  nodes : List.Forall₂ Mate s.nodes s'.nodes

/-- Two placed subtrees that are mates, and so are the subtrees that hang in them; the elements that
they hang in are related. -/
structure Faces (Mate : NodeId → NodeId → Prop) (x y : Option ElementId × Subtree) : Prop
    extends Mates Mate x.2 y.2 where
  parent : Option.Rel (fun a a' => Mate (.element a) (.element a')) x.1 y.1
  children : List.Forall₂ (Mates Mate) x.2.children y.2.children

variable {s s' : Subtree} {Mate : NodeId → NodeId → Prop} {node node' : NodeId}

theorem length_nodes_of_draft (same : s.draft = s'.draft) : s.nodes.length = s'.nodes.length := by
  refine draft_induction (motive := fun s s' => s.nodes.length = s'.nodes.length) ?_ ?_ same
  · intro leaf leaf' _ _
    rw [nodes_token, nodes_token, List.length_singleton, List.length_singleton]
  · intro id id' kind children children' h
    have hlengths := map_eq_of_forall₂ (f := fun c => c.nodes.length) h
    rw [nodes_element, nodes_element, List.length_cons, List.length_cons, List.length_flatMap,
      List.length_flatMap, hlengths]

theorem elementKind?_of_draft (same : s.draft = s'.draft) : s'.elementKind? = s.elementKind? :=
  draft_induction (motive := fun s s' => s'.elementKind? = s.elementKind?)
    (fun _ _ _ _ => rfl) (fun _ _ _ _ _ _ => rfl) same

theorem word?_of_draft (same : s.draft = s'.draft) : s.word? = s'.word? := by
  refine draft_induction (motive := fun s s' => s.word? = s'.word?) ?_ (fun _ _ _ _ _ _ => rfl) same
  intro leaf leaf' hkind htext
  rw [word?, word?, hkind, htext]

/-- Where all nodes are related in order, those of each subtree are. -/
theorem forall₂_nodes_of_flatMap {Same : Subtree → Subtree → Prop} {ss ss' : List Subtree}
    (same : List.Forall₂ Same ss ss') (draft : ∀ c c', Same c c' → c.draft = c'.draft)
    (h : List.Forall₂ Mate (ss.flatMap nodes) (ss'.flatMap nodes)) :
    List.Forall₂ (fun c c' => Same c c' ∧ List.Forall₂ Mate c.nodes c'.nodes) ss ss' := by
  induction same with
  | nil => exact .nil
  | @cons c c' rest rest' hc _ ih =>
    have hlength := length_nodes_of_draft (draft c c' hc)
    rw [List.flatMap_cons, List.flatMap_cons] at h
    have hfirst := List.forall₂_take c.nodes.length h
    have hrest := List.forall₂_drop c.nodes.length h
    rw [List.take_left, hlength, List.take_left] at hfirst
    rw [List.drop_left, hlength, List.drop_left] at hrest
    exact .cons ⟨hc, hfirst⟩ (ih hrest)

namespace Mates

theorem top (h : Mates Mate s s') : Mate s.id s'.id := by
  obtain ⟨below, hbelow⟩ := s.exists_nodes_cons
  obtain ⟨below', hbelow'⟩ := s'.exists_nodes_cons
  have hnodes := h.nodes
  rw [hbelow, hbelow', List.forall₂_cons] at hnodes
  exact hnodes.1

/-- Induction over mates, whose children are mates. -/
theorem induction {motive : Subtree → Subtree → Prop} (h : Mates Mate s s')
    (token : ∀ leaf leaf', motive (.token leaf) (.token leaf'))
    (element : ∀ id id' kind children children', Mate (.element id) (.element id') →
      List.Forall₂ (fun c c' => Mates Mate c c' ∧ motive c c') children children' →
      motive (.element id kind children) (.element id' kind children')) : motive s s' := by
  have hboth := draft_induction (motive := fun s s' => s.draft = s'.draft ∧
    (Mates Mate s s' → motive s s')) ?_ ?_ h.draft
  · exact hboth.2 h
  · intro leaf leaf' hkind htext
    exact ⟨by rw [draft_token, draft_token, hkind, htext], fun _ => token leaf leaf'⟩
  · intro id id' kind children children' hchildren
    have hdrafts := map_eq_of_forall₂ (hchildren.imp fun _ _ hc => hc.1)
    refine ⟨by rw [draft_element, draft_element, hdrafts], fun h => ?_⟩
    have hnodes := h.nodes
    rw [nodes_element, nodes_element, List.forall₂_cons] at hnodes
    refine element id id' kind children children' hnodes.1 ?_
    refine (forall₂_nodes_of_flatMap hchildren (fun _ _ hc => hc.1) hnodes.2).imp fun c c' hc => ?_
    exact ⟨⟨hc.1.1, hc.2⟩, hc.1.2 ⟨hc.1.1, hc.2⟩⟩

theorem children (h : Mates Mate s s') : List.Forall₂ (Mates Mate) s.children s'.children :=
  h.induction (motive := fun s s' => List.Forall₂ (Mates Mate) s.children s'.children)
    (fun _ _ => .nil) fun _ _ _ _ _ _ hchildren => hchildren.imp fun _ _ hc => hc.1

theorem faces (h : Mates Mate s s') {p p' : Option ElementId}
    (parent : Option.Rel (fun a a' => Mate (.element a) (.element a')) p p') :
    Faces Mate (p, s) (p', s') :=
  ⟨h, parent, h.children⟩

/-- The places in the one face those in the other, in the same order. -/
theorem faces_placed (h : Mates Mate s s') {p p' : Option ElementId}
    (parent : Option.Rel (fun a a' => Mate (.element a) (.element a')) p p') :
    List.Forall₂ (Faces Mate) (s.placed p) (s'.placed p') := by
  refine h.induction (motive := fun s s' => Mates Mate s s' → ∀ p p' : Option ElementId,
    Option.Rel (fun a a' => Mate (.element a) (.element a')) p p' →
      List.Forall₂ (Faces Mate) (s.placed p) (s'.placed p')) ?_ ?_ h p p' parent
  · intro leaf leaf' h p p' parent
    rw [placed_token, placed_token, List.forall₂_cons]
    exact ⟨h.faces parent, .nil⟩
  · intro id id' kind children children' hmate hchildren h p p' parent
    rw [placed_element, placed_element, List.forall₂_cons]
    exact ⟨h.faces parent,
      List.rel_flatMap hchildren fun c c' hc => hc.2 hc.1 _ _ (.some hmate)⟩

end Mates

/-- From related children back over related ones, the foremost ones are related. -/
theorem foremost_of_forall₂ {before before' : List Subtree}
    (h : List.Forall₂ (Mates Mate) before before') : ∀ {c c' : Subtree}, Mate c.id c'.id →
      Mate (foremost before c).id (foremost before' c').id := by
  induction h with
  | nil => exact fun hc => hc
  | cons hd _ ih =>
    intro c c' hc
    rw [foremost, foremost, elementKind?_of_draft hd.draft]
    split
    · exact hc
    · exact ih hd.top

/-! ## Matched nodes -/

/-- The nodes stand in the same place among those that carry meaning. -/
def Matched (s s' : Subtree) (node node' : NodeId) : Prop :=
  (node, node') ∈ s.bare.nodes.zip s'.bare.nodes

theorem mates_bare (same : s.bare.draft = s'.bare.draft) :
    Mates (s.Matched s') s.bare s'.bare where
  draft := same
  nodes := List.forall₂_iff_zip.mpr ⟨length_nodes_of_draft same, fun hmem => hmem⟩

theorem Matched.symm (h : s.Matched s' node node') : s'.Matched s node' node := by
  obtain ⟨i, hi, heq⟩ := List.mem_iff_getElem.mp h
  rw [List.getElem_zip] at heq
  obtain ⟨rfl, rfl⟩ := Prod.mk.inj heq
  rw [List.length_zip, Nat.min_comm, ← List.length_zip] at hi
  exact List.mem_iff_getElem.mpr ⟨i, hi, List.getElem_zip⟩

/-- Matched nodes are placed in face of each other. -/
theorem Matched.exists_faces (h : s.Matched s' node node') (same : s.bare.draft = s'.bare.draft) :
    ∃ x ∈ s.bare.placed none, ∃ y ∈ s'.bare.placed none, x.2.id = node ∧ y.2.id = node' ∧
      Faces (s.Matched s') x y := by
  have hfaces := (mates_bare same).faces_placed .none
  rw [Matched, ← map_placed _ none, ← map_placed _ none, List.zip_map, List.mem_map] at h
  obtain ⟨⟨x, y⟩, hmem, heq⟩ := h
  obtain ⟨hnode, hnode'⟩ := Prod.mk.inj heq
  obtain ⟨hx, hy⟩ := List.of_mem_zip hmem
  exact ⟨x, hx, y, hy, hnode, hnode', (List.forall₂_iff_zip.mp hfaces).2 hmem⟩

/-- Only elements match elements. -/
theorem Matched.exists_element {a : ElementId} (h : s.Matched s' (.element a) node')
    (same : s.bare.draft = s'.bare.draft) : ∃ a', node' = .element a' := by
  obtain ⟨⟨q, u⟩, -, ⟨q', u'⟩, -, hid, rfl, hfaces⟩ := h.exists_faces same
  have hkind := elementKind?_of_draft hfaces.draft
  cases u with
  | token leaf => cases hid
  | element id kind children =>
    cases u' with
    | token leaf' => cases hkind
    | element id' kind' children' => exact ⟨id', rfl⟩

/-- Matched elements have the same kind, and their parents and children are matched. -/
theorem Matched.exists_elements {a a' : ElementId}
    (h : s.Matched s' (.element a) (.element a')) (same : s.bare.draft = s'.bare.draft) :
    ∃ q q' kind children children', (q, .element a kind children) ∈ s.bare.placed none ∧
      (q', .element a' kind children') ∈ s'.bare.placed none ∧
      Faces (s.Matched s') (q, .element a kind children) (q', .element a' kind children') := by
  obtain ⟨⟨q, u⟩, hx, ⟨q', u'⟩, hy, hid, hid', hfaces⟩ := h.exists_faces same
  cases u with
  | token leaf => cases hid
  | element id kind children =>
    cases u' with
    | token leaf => cases hid'
    | element id' kind' children' =>
      obtain rfl := NodeId.element.inj hid
      obtain rfl := NodeId.element.inj hid'
      have hdraft := hfaces.draft
      rw [draft_element, draft_element] at hdraft
      obtain ⟨rfl, -⟩ := Draft.element.inj hdraft
      exact ⟨q, q', kind, children, children', hx, hy, hfaces⟩

end Subtree

/-! ## Trees that are alike -/

/-- The trees differ in spaces and comments only. -/
structure Tree.Alike (t : Tree) (s : Subtree) (t' : Tree) (s' : Subtree) : Prop where
  reads : t.ReadsAs s
  reads' : t'.ReadsAs s'
  draft : s.bare.draft = s'.bare.draft

namespace Tree.Alike

variable {t t' : Tree} {s s' : Subtree} {a a' : ElementId} {node node' : NodeId}
  (h : t.Alike s t' s')
include h

theorem unique {other other' : NodeId} (hm : s.Matched s' node node')
    (hm' : s.Matched s' other other') : node = other ↔ node' = other' :=
  eq_iff_of_mem_zip h.reads.nodup_bare h.reads'.nodup_bare hm hm'

/-- The children of a kind are matched in order. -/
theorem childElements (hm : s.Matched s' (.element a) (.element a')) (wanted : ElementKind) :
    List.Forall₂ (fun c c' => s.Matched s' (.element c) (.element c'))
      (t.childElements a wanted) (t'.childElements a' wanted) := by
  obtain ⟨q, q', kind, children, children', hx, hy, hfaces⟩ := hm.exists_elements h.draft
  rw [h.reads.childElements_bare hx, h.reads'.childElements_bare hy]
  have hkept := List.rel_filter (R := Subtree.Mates (s.Matched s'))
    (p := fun c => c.elementKind? = some wanted) (q := fun c => c.elementKind? = some wanted)
    (fun c c' hc => by simp only [Subtree.elementKind?_of_draft hc.draft]) hfaces.children
  refine List.rel_filterMap ?_ hkept
  intro c c' hc
  have hdraft := hc.draft
  cases c with
  | token leaf =>
    cases c' with
    | token leaf' => exact .none
    | element id' kind' below' =>
      rw [Subtree.draft_token, Subtree.draft_element] at hdraft
      cases hdraft
  | element id kind below =>
    cases c' with
    | token leaf' =>
      rw [Subtree.draft_token, Subtree.draft_element] at hdraft
      cases hdraft
    | element id' kind' below' => exact .some hc.top

/-- The elements of the one tree mirror those of the other. -/
theorem mirrors : t.Mirrors t'.toForest fun a a' => s.Matched s' (.element a) (.element a') where
  unique hm hm' := by
    rw [← NodeId.element.injEq, ← NodeId.element.injEq]
    exact h.unique hm hm'
  kind hm := by
    obtain ⟨q, q', kind, children, children', hx, hy, -⟩ := hm.exists_elements h.draft
    rw [h.reads.elementKind?_bare hx, h.reads'.elementKind?_bare hy]
  parent hm := by
    obtain ⟨q, q', kind, children, children', hx, hy, hfaces⟩ := hm.exists_elements h.draft
    have hparent := h.reads.parent?_bare hx
    have hparent' := h.reads'.parent?_bare hy
    rw [Subtree.id_element] at hparent hparent'
    rw [hparent, hparent']
    exact hfaces.parent
  children hm wanted _ := h.childElements hm wanted

/-- Matched elements have the same text without spaces and comments. -/
theorem nonTriviaText (hm : s.Matched s' (.element a) (.element a')) :
    t'.nonTriviaText a' = t.nonTriviaText a := by
  obtain ⟨q, q', kind, children, children', hx, hy, hfaces⟩ := hm.exists_elements h.draft
  rw [h.reads.nonTriviaText_bare hx, h.reads'.nonTriviaText_bare hy]
  exact (Subtree.text_eq_of_draft hfaces.draft).symm

/-- Matched declarations are written to be equally visible. -/
theorem visibilityOf (hm : s.Matched s' (.element a) (.element a')) :
    (t'.visibilityOf a').value = (t.visibilityOf a).value := by
  have hfirst := rel_head? (h.childElements hm .vis)
  rw [← Forest.childElement?_eq_head?, ← Forest.childElement?_eq_head?] at hfirst
  rw [Forest.visibilityOf, Forest.visibilityOf]
  obtain ⟨hv, hv'⟩ | ⟨v, v', hv, hv', hvis⟩ := rel_cases hfirst
  · rw [hv, hv']
  · obtain ⟨q, q', kind, children, children', hx, hy, hfaces⟩ := hvis.exists_elements h.draft
    have hwords : children.filterMap Subtree.word? = children'.filterMap Subtree.word? := by
      rw [← List.forall₂_eq_eq_eq]
      refine List.rel_filterMap ?_ hfaces.children
      intro c c' hc
      rw [Subtree.word?_of_draft hc.draft]
      cases c'.word? with
      | none => exact .none
      | some word => exact .some rfl
    simp only [hv, hv']
    rw [h.reads.ofTokens_bare hx, h.reads'.ofTokens_bare hy, hwords]

/-- Matched declarations have the same name. -/
theorem symbolName? (hm : s.Matched s' (.element a) (.element a')) :
    t'.symbolName? a' = t.symbolName? a :=
  h.mirrors.symbolName? hm fun hc _ => h.nonTriviaText hc

/-- For matched nodes that hang in an element, the visibility goes before matched nodes. -/
theorem anchorOf (hm : s.Matched s' node node') (attached : (t.parent? node).isSome) :
    ∃ anchor anchor', (t.anchorOf node).outcome.value = .ok anchor ∧
      (t'.anchorOf node').outcome.value = .ok anchor' ∧ s.Matched s' anchor anchor' := by
  obtain ⟨⟨p?, c⟩, hx, ⟨p'?, c'⟩, hy, rfl, rfl, hfaces⟩ := hm.exists_faces h.draft
  rw [h.reads.parent?_bare hx] at attached
  obtain ⟨hp, -⟩ | ⟨p, p', rfl, rfl, hparent⟩ := rel_cases hfaces.parent
  · rw [hp] at attached
    cases attached
  obtain ⟨q, q', kind, children, children', hplace, hplace', hside⟩ :=
    hparent.exists_elements h.draft
  -- the node is a child of the element that it hangs in
  have hmem : c ∈ children := by
    rcases Subtree.placed_parent hx with htop | ⟨r, kind', all, hr, hmem⟩
    · cases (Prod.mk.inj htop).1
    · have hsame := Subtree.placed_unique h.reads.nodup_bare hplace hr rfl
      obtain ⟨-, -, rfl⟩ := Subtree.element.inj (Prod.mk.inj hsame).2
      exact hmem
  obtain ⟨before, after, rfl⟩ := List.append_of_mem hmem
  obtain ⟨before', d, after', rfl, hbefore, hd⟩ := exists_split_of_forall₂ hside.children
  have hnode : d.id = c'.id := (h.unique hd.top hm).mp rfl
  rw [← before.reverse_reverse] at hplace
  rw [← before'.reverse_reverse] at hplace'
  refine ⟨_, _, h.reads.anchorOf_bare hplace, ?_,
    Subtree.foremost_of_forall₂ (List.forall₂_reverse_iff.mpr hbefore) hd.top⟩
  rw [← hnode]
  exact h.reads'.anchorOf_bare hplace'

end Tree.Alike

end DeclVisibility
