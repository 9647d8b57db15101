import DeclVisibility.Proofs.Fix.Frame
import DeclVisibility.Proofs.Outline.Mirror

/-!
# What a fix keeps of other declarations

What an outline tells of a declaration is read off its children of some kinds, off the elements that
it hangs in, and off the texts below it. A fix adds one visibility and one blank to the children of
one declaration. So every element has the same children of each other kind as before
(`Fix.Inserts.childElements`), the elements mirror what they were (`Fix.Inserts.mirrors`), every
other element has the same visibility (`Fix.Inserts.visibilityOf_of_ne`), and a text that does not
hold the declaration is what it was (`Fix.Inserts.subtree?`). Names and parameters are such texts,
unless the declaration stands inside of the one that they belong to (`Fix.Apart`).
-/

namespace DeclVisibility

/-- A node with a parent stands among the children of its parent. -/
theorem Tree.ReadsAs.exists_child_placed {t : Tree} {s : Subtree} (h : t.ReadsAs s) {node : NodeId}
    {parent : ElementId} (hparent : t.parent? node = some parent) : ∃ q kind children c,
      (q, .element parent kind children) ∈ s.placed none ∧ c ∈ children ∧ c.id = node := by
  have hmem := h.madeOf.mem_children_iff.mpr hparent
  obtain ⟨q, kind, children, hx⟩ := h.exists_placed_element (Forest.holds_of_mem_children hmem)
  rw [h.madeOf.children_placed List.mem_cons_self hx] at hmem
  obtain ⟨c, hc, hid⟩ := List.mem_map.mp hmem
  exact ⟨q, kind, children, c, hx, hc, hid⟩

theorem Subtree.map_id_plantAll_eq (anchor : NodeId) (new : Subtree) : ∀ ss : List Subtree,
    (plantAll ss anchor new).map Subtree.id =
      (ss.map Subtree.id).flatMap fun node => (if node = anchor then [new.id] else []) ++ [node]
  | [] => by rw [plantAll, List.map_nil, List.flatMap_nil]
  | c :: rest => by
    rw [plantAll, List.map_cons, List.flatMap_cons, ← map_id_plantAll_eq anchor new rest]
    split <;> simp

namespace Fix

/-- The declaration of a fix is the element itself, or stands outside of it. -/
def Apart (fix : Fix) (t : Tree) (id : ElementId) : Prop :=
  id = fix.decl ∨ fix.decl ∉ t.descendants id

namespace Inserts

variable {fix : Fix} {t t' : Tree} {s : Subtree} {w : Inset} {id child : ElementId}
  {wanted : ElementKind}

/-! ## Children -/

section Children
variable (h : fix.Inserts t s w t') (readsAs : t.ReadsAs s)
  (held : t.holds (.element id) = true)
include h readsAs held

theorem elementKind? : t'.elementKind? id = t.elementKind? id :=
  readsAs.kind_publish h.readsAs held

theorem parent?_eq : t'.parent? (.element id) = t.parent? (.element id) :=
  (readsAs.parent_publish h.readsAs held).2

/-- The two new nodes stand before the anchor, and the other children as they did. -/
theorem children_eq : t'.children id = (t.children id).flatMap fun node =>
    (if node = w.anchor then [.element w.vis, .token w.blank] else []) ++ [node] := by
  obtain ⟨q, kind, children, hx⟩ := readsAs.exists_placed_element held
  have hplaced := Subtree.placed_publish w hx
  simp only [Subtree.publish_eq] at hplaced
  have hvis : NodeId.element w.vis ≠ w.anchor := by
    intro heq
    apply h.anchor_fresh readsAs
    rw [← heq]
    exact w.visibility.id_mem_nodes
  rw [readsAs.madeOf.children_placed List.mem_cons_self hx,
    h.readsAs.madeOf.children_placed List.mem_cons_self hplaced, Subtree.map_id_plantAll_eq,
    Subtree.map_id_plantAll_eq, List.flatMap_assoc]
  apply List.flatMap_congr
  intro node _
  by_cases hnode : node = w.anchor
  · simp [hnode, hvis, Inset.visibility, Inset.space]
  · simp [hnode]

/-- Of each kind but visibilities, the children are the same. -/
theorem childElements (hne : wanted ≠ .vis) :
    t'.childElements id wanted = t.childElements id wanted := by
  have hvis : t'.elementKind? w.vis = some .vis :=
    h.readsAs.madeOf.elementKind?_placed List.mem_cons_self
      (readsAs.new_placed (h.parent? readsAs) (h.anchor_fresh readsAs)).1
  have hsingle : (t.children id).flatMap (fun node => [node]) = t.children id :=
    List.flatMap_singleton' _
  rw [Forest.childElements, Forest.childElements, Forest.elementChildren, Forest.elementChildren,
    h.children_eq readsAs held, ← hsingle, List.flatMap_assoc, List.filterMap_flatMap,
    List.filterMap_flatMap, List.filter_flatMap, List.filter_flatMap]
  apply List.flatMap_congr
  intro node hnode
  have hnew : ((if node = w.anchor then [NodeId.element w.vis, .token w.blank] else []).filterMap
      NodeId.element?).filter (fun child => t'.elementKind? child = some wanted) = [] := by
    split
    · simp [NodeId.element?, hvis, Ne.symm hne]
    · rfl
  rw [List.flatMap_singleton, List.filterMap_append, List.filter_append, hnew, List.nil_append]
  cases node with
  | token other => rfl
  | element other =>
    have hsame := h.elementKind? readsAs (readsAs.madeOf.holds_child hnode)
    simp [NodeId.element?, List.filter_cons, hsame]

end Children

/-! ## Visibilities -/

/-- Every element but the declaration has the visibility that it had. The declaration itself is no
visibility, so it is none whose tokens are read. -/
theorem visibilityOf_of_ne (h : fix.Inserts t s w t') (readsAs : t.ReadsAs s)
    (held : t.holds (.element id) = true) (hne : id ≠ fix.decl)
    (notVis : t.elementKind? fix.decl ≠ some .vis) : t'.visibilityOf id = t.visibilityOf id := by
  rw [Forest.visibilityOf, Forest.visibilityOf, (h.agreeAt readsAs held hne).childElement?]
  cases hvis : t.childElement? id .vis with
  | none => rfl
  | some vis =>
    have hkind : t.elementKind? vis = some .vis := by simpa using List.find?_some hvis
    have hother : vis ≠ fix.decl := fun heq => notVis (heq ▸ hkind)
    have hvisHeld : t.holds (.element vis) = true :=
      Forest.holds_of_parent? (readsAs.madeOf.parent?_childElement? hvis)
    have htokens : t'.tokenChildren vis = t.tokenChildren vis := by
      rw [Forest.tokenChildren, Forest.tokenChildren, (h.agreeAt readsAs hvisHeld hother).children]
      apply List.filterMap_congr
      intro token htoken
      obtain ⟨node, hnode, heq⟩ := List.mem_filterMap.mp htoken
      cases node with
      | element other => cases heq
      | token other =>
        obtain rfl := Option.some.inj heq
        exact h.token? readsAs (readsAs.madeOf.holds_child hnode)
    simp only [htokens]

/-! ## Texts -/

/-- A node that the declaration does not stand below has the same nodes below it. -/
theorem subtree? (h : fix.Inserts t s w t') (readsAs : t.ReadsAs s)
    {x : Option ElementId × Subtree} (hx : x ∈ s.placed none)
    (outside : NodeId.element fix.decl ∉ x.2.nodes) : t'.subtree? x.2.id = t.subtree? x.2.id := by
  have hnodup := readsAs.nodup.sublist (Subtree.nodes_sublist hx)
  have hsame : x.2.publish w = x.2 := by
    -- the anchor is the node itself, or it is not below the node, since its parent is not
    have hplant : ∀ new : Subtree, x.2.plant w.anchor new = x.2 := by
      intro new
      by_cases htop : x.2.id = w.anchor
      · exact Subtree.plant_self hnodup htop
      · apply Subtree.plant_of_notMem
        intro hmem
        obtain ⟨⟨q, u⟩, hu, hid⟩ := (Subtree.mem_nodes_iff x.1).mp hmem
        have hparent := (readsAs.carries.of_placed (Subtree.placed_trans hx hu)).parent?
        rw [hid, h.parent? readsAs] at hparent
        obtain rfl : some fix.decl = q := hparent
        rcases Subtree.placed_parent hu with heq | ⟨q, kind, children, hq, -⟩
        · exact htop ((congrArg (fun y => y.2.id) heq).trans hid)
        · exact outside ((Subtree.mem_nodes_iff x.1).mpr ⟨_, hq, rfl⟩)
    rw [Subtree.publish, hplant, hplant]
  have hplaced := h.readsAs.madeOf.subtree? List.mem_cons_self (Subtree.placed_publish w hx)
  rw [readsAs.madeOf.subtree? List.mem_cons_self hx]
  simpa only [hsame] using hplaced

section Apart
variable (h : fix.Inserts t s w t') (readsAs : t.ReadsAs s) (apart : fix.Apart t id)
include h readsAs apart

/-- Below an element that the declaration is apart from, the nodes are the same ones. -/
theorem subtree?_below {x : Option ElementId × Subtree} {q : Option ElementId} {kind : ElementKind}
    {children : List Subtree} (hplace : (q, .element id kind children) ∈ s.placed none)
    {c : Subtree} (hc : c ∈ children) (hx : x ∈ c.placed (some id)) :
    t'.subtree? x.2.id = t.subtree? x.2.id := by
  refine h.subtree? readsAs (Subtree.placed_trans (Subtree.child_placed hplace hc) hx) ?_
  intro hmem
  have hbelow : NodeId.element fix.decl ∈ children.flatMap Subtree.nodes :=
    List.mem_flatMap.mpr ⟨c, hc, (Subtree.nodes_sublist hx).subset hmem⟩
  rcases apart with rfl | houtside
  · have hnodup := readsAs.nodup.sublist (Subtree.nodes_sublist hplace)
    rw [Subtree.nodes_element, List.nodup_cons] at hnodup
    exact hnodup.1 hbelow
  · rw [readsAs.madeOf.descendants_placed List.mem_cons_self hplace rfl] at houtside
    refine houtside (List.mem_filterMap.mpr ⟨.element fix.decl, ?_, rfl⟩)
    rw [Subtree.nodes_element]
    exact List.mem_cons_of_mem _ hbelow

theorem subtree?_child {node : NodeId} (hparent : t.parent? node = some id) :
    t'.subtree? node = t.subtree? node := by
  obtain ⟨q, kind, children, c, hplace, hc, rfl⟩ := readsAs.exists_child_placed hparent
  exact h.subtree?_below readsAs apart hplace hc (Subtree.self_mem_placed (some id) c)

theorem subtree?_grandchild {node : NodeId} (hchild : t.parent? (.element child) = some id)
    (hparent : t.parent? node = some child) : t'.subtree? node = t.subtree? node := by
  obtain ⟨q, kind, children, c, hplace, hc, hid⟩ := readsAs.exists_child_placed hchild
  obtain ⟨q', kind', children', g, hplace', hg, rfl⟩ := readsAs.exists_child_placed hparent
  -- the child and the parent of the node stand in one place
  have hchild' := Subtree.child_placed hplace hc
  have hsame := Subtree.placed_unique readsAs.nodup hplace' hchild' hid.symm
  obtain ⟨-, rfl⟩ := Prod.mk.inj hsame
  exact h.subtree?_below readsAs apart hplace hc
    (Subtree.child_placed (Subtree.self_mem_placed (some id) _) hg)

end Apart

/-! ## Names and parameters -/

/-- All elements stay what and where they are, but for the visibility that is put in. -/
theorem mirrors (h : fix.Inserts t s w t') (readsAs : t.ReadsAs s) :
    t.Mirrors t'.toForest fun a a' => a = a' ∧ t.holds (.element a) = true where
  unique := by
    rintro a b _ _ ⟨rfl, -⟩ ⟨rfl, -⟩
    exact Iff.rfl
  kind := by
    rintro a _ ⟨rfl, held⟩
    exact h.elementKind? readsAs held
  parent := by
    rintro a _ ⟨rfl, held⟩
    rw [h.parent?_eq readsAs held]
    cases hparent : t.parent? (.element a) with
    | none => exact .none
    | some parent => exact .some ⟨rfl, readsAs.madeOf.holds_parent hparent⟩
  children := by
    rintro a _ ⟨rfl, held⟩ wanted hne
    rw [h.childElements readsAs held hne, List.forall₂_same]
    intro child hchild
    exact ⟨rfl, Forest.holds_of_parent? (readsAs.madeOf.parent?_childElements hchild)⟩

section Symbols
variable (h : fix.Inserts t s w t') (readsAs : t.ReadsAs s)
  (held : t.holds (.element id) = true)
include h readsAs held

/-- A declaration keeps its name, unless the one that is made public stands inside of it. -/
theorem symbolName? (apart : fix.Apart t id) : t'.symbolName? id = t.symbolName? id := by
  refine (h.mirrors readsAs).symbolName? ⟨rfl, held⟩ ?_
  rintro child _ wanted ⟨rfl, -⟩ hchild
  rw [Forest.nonTriviaText, Forest.nonTriviaText,
    h.subtree?_child readsAs apart (readsAs.madeOf.parent?_childElement? hchild)]

/-- A method keeps the texts of its parameters, unless the declaration that is made public stands
inside of it. -/
theorem parameterTexts (apart : fix.Apart t id) : t'.parameterTexts id = t.parameterTexts id := by
  have hmirrors := h.mirrors readsAs
  rw [Tree.parameterTexts, Tree.parameterTexts, hmirrors.method? ⟨rfl, held⟩]
  cases hmethod : t.method? id with
  | none => rfl
  | some m =>
    obtain rfl := Forest.method_eq hmethod
    have hsame : t.methodDeclarations ⟨id⟩ = t'.methodDeclarations ⟨id⟩ := by
      rw [← List.forall₂_eq_eq_eq]
      exact (hmirrors.methodDeclarations ⟨rfl, held⟩).imp fun _ _ hmate => hmate.1
    rw [Option.map_some]
    simp only
    rw [← hsame]
    apply List.map_congr_left
    intro param hparam
    obtain ⟨params, hlist, hmem⟩ := Forest.mem_methodDeclarations hparam
    rw [Forest.nodeText, Forest.nodeText,
      h.subtree?_grandchild readsAs apart (readsAs.madeOf.parent?_childElement? hlist)
        (readsAs.madeOf.parent?_childElements hmem)]

end Symbols

end Inserts

end Fix

end DeclVisibility
