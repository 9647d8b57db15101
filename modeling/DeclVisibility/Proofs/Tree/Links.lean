import DeclVisibility.Proofs.Tree.Makeup

/-!
# The links of a forest made of subtrees

Each link is kept twice, in the child list of the parent and in the child. In a forest made of
subtrees the two agree (`MadeOf.mem_children_iff`), a child list names no node twice
(`MadeOf.nodup_children`), and every node that is held has a place in one of the subtrees, which
says what is held of it (`MadeOf.exists_placed`). That the links agree can be said of any forest
(`Forest.Linked`).
-/

namespace DeclVisibility

/-- The kind of the top, if it is an element. -/
def Subtree.elementKind? : Subtree → Option ElementKind
  | .token _ => none
  | .element _ kind _ => some kind

/-- What is held of the top when it hangs in an element, if it is a token. -/
def Subtree.token? (parent : ElementId) : Subtree → Option Token
  | .token leaf => some ⟨leaf.kind, leaf.text, some parent⟩
  | .element _ _ _ => none

@[simp] theorem Subtree.elementKind?_plant (anchor : NodeId) (new s : Subtree) :
    (s.plant anchor new).elementKind? = s.elementKind? := by
  cases s <;> simp [Subtree.elementKind?]

namespace Forest

variable {f : Forest} {tops : List Subtree} {s : Subtree}

/-- What is held of a placed node is what stands there. -/
theorem MadeOf.row_placed (h : f.MadeOf tops) (hs : s ∈ tops) {x : Option ElementId × Subtree}
    (hx : x ∈ s.placed none) : f.row? x.2.id = some (x.2.row x.1) :=
  h.carries s hs x hx

theorem MadeOf.exists_placed (h : f.MadeOf tops) {node : NodeId} (held : f.holds node = true) :
    ∃ s ∈ tops, ∃ x ∈ s.placed none, x.2.id = node := by
  obtain ⟨s, hs, hnode⟩ := List.mem_flatMap.mp (h.covers node held)
  exact ⟨s, hs, (Subtree.mem_nodes_iff none).mp hnode⟩

theorem MadeOf.exists_placed_element (h : f.MadeOf tops) {id : ElementId}
    (held : f.holds (.element id) = true) :
    ∃ s ∈ tops, ∃ q kind children, (q, .element id kind children) ∈ s.placed none := by
  obtain ⟨s, hs, ⟨q, t⟩, hx, hid⟩ := h.exists_placed held
  cases t with
  | token leaf => cases hid
  | element id' kind children =>
    obtain rfl := NodeId.element.inj hid
    exact ⟨s, hs, q, kind, children, hx⟩

/-- What is held of an element that stands somewhere. -/
theorem MadeOf.children_placed (h : f.MadeOf tops) (hs : s ∈ tops) {q : Option ElementId}
    {id : ElementId} {kind : ElementKind} {children : List Subtree}
    (hx : (q, .element id kind children) ∈ s.placed none) :
    f.children id = children.map Subtree.id := by
  have hrow := h.row_placed hs hx
  rw [children_of_row? hrow]

theorem MadeOf.holds_placed (h : f.MadeOf tops) (hs : s ∈ tops) {x : Option ElementId × Subtree}
    (hx : x ∈ s.placed none) : f.holds x.2.id = true := by
  rw [holds_eq, h.row_placed hs hx]
  rfl

theorem holds_of_mem_children {id : ElementId} {node : NodeId} (h : node ∈ f.children id) :
    f.holds (.element id) = true := by
  rw [children] at h
  split at h
  · rename_i held hrow
    rw [holds_eq, row?, hrow]
    rfl
  · cases h

theorem holds_of_parent? {id : ElementId} {node : NodeId} (h : f.parent? node = some id) :
    f.holds node = true := by
  rw [parent?_eq, Option.bind_eq_some_iff] at h
  obtain ⟨row, hrow, -⟩ := h
  rw [holds_eq, hrow]
  rfl

/-- A node is listed by an element exactly if it names that element as its parent. -/
theorem MadeOf.mem_children_iff (h : f.MadeOf tops) {id : ElementId} {node : NodeId} :
    node ∈ f.children id ↔ f.parent? node = some id := by
  constructor
  · intro hnode
    obtain ⟨s, hs, q, kind, children, hx⟩ := h.exists_placed_element (holds_of_mem_children hnode)
    rw [h.children_placed hs hx] at hnode
    obtain ⟨c, hc, rfl⟩ := List.mem_map.mp hnode
    rw [parent?_eq, h.row_placed hs (Subtree.child_placed hx hc), Option.bind_some,
      Subtree.parent_row]
  · intro hparent
    obtain ⟨s, hs, ⟨q, t⟩, hx, rfl⟩ := h.exists_placed (holds_of_parent? hparent)
    rw [parent?_eq, h.row_placed hs hx, Option.bind_some, Subtree.parent_row] at hparent
    subst hparent
    rcases Subtree.placed_parent hx with heq | ⟨q, kind, children, hplace, ht⟩
    · cases (Prod.mk.inj heq).1
    · rw [h.children_placed hs hplace]
      exact List.mem_map_of_mem ht

theorem MadeOf.nodup_children (h : f.MadeOf tops) (id : ElementId) : (f.children id).Nodup := by
  cases held : f.holds (.element id) with
  | false =>
    have hnone : f.children id = [] := by
      apply List.eq_nil_iff_forall_not_mem.mpr
      intro node hnode
      rw [holds_of_mem_children hnode] at held
      cases held
    rw [hnone]
    exact List.nodup_nil
  | true =>
    obtain ⟨s, hs, q, kind, children, hx⟩ := h.exists_placed_element held
    have hnodup := (h.nodup_of_mem hs).sublist (Subtree.nodes_sublist hx)
    rw [Subtree.nodes_element, List.nodup_cons] at hnodup
    rw [h.children_placed hs hx]
    exact hnodup.2.sublist (Subtree.map_id_sublist children)

/-- A listed node is held. -/
theorem MadeOf.holds_child (h : f.MadeOf tops) {id : ElementId} {node : NodeId}
    (hnode : node ∈ f.children id) : f.holds node = true :=
  holds_of_parent? (h.mem_children_iff.mp hnode)

/-- A parent is held. -/
theorem MadeOf.holds_parent (h : f.MadeOf tops) {id : ElementId} {node : NodeId}
    (hparent : f.parent? node = some id) : f.holds (.element id) = true :=
  holds_of_mem_children (h.mem_children_iff.mpr hparent)

/-- A node occurs once in the child list of its parent, and in no other. -/
theorem MadeOf.count_children (h : f.MadeOf tops) (id : ElementId) (node : NodeId) :
    (f.children id).count node = if f.parent? node = some id then 1 else 0 := by
  rw [(h.nodup_children id).count]
  simp only [h.mem_children_iff]

/-- The two records of every link agree: a node occurs once in the child list of the element that it
names as its parent, and in no other. Nothing is said of what is below what, so there may be
cycles. -/
def Linked (f : Forest) : Prop :=
  ∀ id node, (f.children id).count node = if f.parent? node = some id then 1 else 0

theorem MadeOf.linked (h : f.MadeOf tops) : f.Linked := h.count_children

theorem Linked.mem_children_iff (h : f.Linked) {id : ElementId} {node : NodeId} :
    node ∈ f.children id ↔ f.parent? node = some id := by
  rw [← List.count_pos_iff, h id node]
  split <;> simp [*]

theorem Linked.nodup_children (h : f.Linked) (id : ElementId) : (f.children id).Nodup := by
  rw [List.nodup_iff_count_le_one]
  intro node
  rw [h id node]
  split <;> simp

/-! ## Children of a kind -/

theorem MadeOf.elementKind?_placed (h : f.MadeOf tops) (hs : s ∈ tops) {q : Option ElementId}
    {id : ElementId} {kind : ElementKind} {children : List Subtree}
    (hx : (q, .element id kind children) ∈ s.placed none) : f.elementKind? id = some kind := by
  have hrow := h.row_placed hs hx
  rw [elementKind?_of_row? hrow]

theorem childElement?_eq_head? (f : Forest) (id : ElementId) (wanted : ElementKind) :
    f.childElement? id wanted = (f.childElements id wanted).head? :=
  List.head?_filter.symm

/-- The children of a kind are the tops of the child subtrees of that kind. -/
theorem MadeOf.childElements_placed (h : f.MadeOf tops) (hs : s ∈ tops) {q : Option ElementId}
    {id : ElementId} {kind : ElementKind} {children : List Subtree}
    (hx : (q, .element id kind children) ∈ s.placed none) (wanted : ElementKind) :
    f.childElements id wanted =
      (children.filter fun c => c.elementKind? = some wanted).filterMap fun c => c.id.element? := by
  rw [childElements, elementChildren, h.children_placed hs hx, List.filterMap_map,
    List.filter_filterMap, List.filterMap_filter]
  apply List.filterMap_congr
  intro c hc
  have hplace := Subtree.child_placed hx hc
  cases c with
  | token leaf => rfl
  | element cid ckind below =>
    simp [NodeId.element?, Subtree.elementKind?, h.elementKind?_placed hs hplace,
      Option.filter]

/-- The first child of a kind is the top of the first child subtree of that kind. -/
theorem MadeOf.childElement?_placed (h : f.MadeOf tops) (hs : s ∈ tops) {q : Option ElementId}
    {id : ElementId} {kind : ElementKind} {children : List Subtree}
    (hx : (q, .element id kind children) ∈ s.placed none) (wanted : ElementKind) :
    f.childElement? id wanted =
      (children.find? fun c => c.elementKind? = some wanted).bind fun c => c.id.element? := by
  rw [childElement?_eq_head?, h.childElements_placed hs hx, ← List.head?_filter]
  cases hkept : children.filter fun c => c.elementKind? = some wanted with
  | nil => rfl
  | cons c rest =>
    have hmem : c ∈ children.filter fun c => c.elementKind? = some wanted :=
      hkept ▸ List.mem_cons_self
    cases c with
    | token leaf => simp [Subtree.elementKind?] at hmem
    | element cid ckind below => rfl

/-- An element has a child element of a kind exactly if such a subtree hangs in it. -/
theorem MadeOf.childElement?_isSome (h : f.MadeOf tops) (hs : s ∈ tops) {q : Option ElementId}
    {id : ElementId} {kind : ElementKind} {children : List Subtree}
    (hx : (q, .element id kind children) ∈ s.placed none) {wanted : ElementKind} :
    (f.childElement? id wanted).isSome ↔ ∃ c ∈ children, c.elementKind? = some wanted := by
  rw [h.childElement?_placed hs hx]
  constructor
  · intro hsome
    rw [Option.isSome_iff_exists] at hsome
    obtain ⟨child, hchild⟩ := hsome
    obtain ⟨c, hc, -⟩ := Option.bind_eq_some_iff.mp hchild
    exact ⟨c, List.mem_of_find?_eq_some hc, by simpa using List.find?_some hc⟩
  · rintro ⟨c, hc, hkind⟩
    cases hfound : children.find? fun c => c.elementKind? = some wanted with
    | none =>
      have hnot := List.find?_eq_none.mp hfound c hc
      simp [hkind] at hnot
    | some d =>
      have hd := List.find?_some hfound
      cases d with
      | token leaf => simp [Subtree.elementKind?] at hd
      | element did dkind below => rfl

/-- The children that are tokens, as what stands there says. -/
theorem MadeOf.tokenChildren_eq (h : f.MadeOf tops) (hs : s ∈ tops) {q : Option ElementId}
    {id : ElementId} {kind : ElementKind} {children : List Subtree}
    (hx : (q, .element id kind children) ∈ s.placed none) :
    f.tokenChildren id = children.filterMap (Subtree.token? id) := by
  rw [tokenChildren, h.children_placed hs hx, List.filterMap_filterMap, List.filterMap_map]
  apply List.filterMap_congr
  intro c hc
  have hplace := Subtree.child_placed hx hc
  cases c with
  | token leaf => exact token?_of_row? (h.row_placed hs hplace)
  | element cid ckind below => rfl

theorem MadeOf.tokenChildren_placed (h : f.MadeOf tops) (hs : s ∈ tops) {q : Option ElementId}
    {id : ElementId} {kind : ElementKind} {leaves : List Leaf}
    (hx : (q, .element id kind (leaves.map .token)) ∈ s.placed none) :
    f.tokenChildren id = leaves.map fun leaf => ⟨leaf.kind, leaf.text, some id⟩ := by
  rw [h.tokenChildren_eq hs hx, List.filterMap_map, ← List.filterMap_eq_map]
  rfl

theorem mem_children_of_elementChildren {id child : ElementId} (h : child ∈ f.elementChildren id) :
    .element child ∈ f.children id :=
  NodeId.mem_filterMap_element?.mp h

theorem mem_children_of_childElement? {id child : ElementId} {wanted : ElementKind}
    (h : f.childElement? id wanted = some child) : .element child ∈ f.children id :=
  mem_children_of_elementChildren (List.mem_of_find?_eq_some h)

theorem holds_of_childElement? {id child : ElementId} {wanted : ElementKind}
    (h : f.childElement? id wanted = some child) : f.holds (.element id) = true :=
  holds_of_mem_children (mem_children_of_childElement? h)

/-- A child element of a kind hangs in the element. -/
theorem MadeOf.parent?_childElement? (h : f.MadeOf tops) {id child : ElementId}
    {wanted : ElementKind} (hchild : f.childElement? id wanted = some child) :
    f.parent? (.element child) = some id :=
  h.mem_children_iff.mp (mem_children_of_childElement? hchild)

theorem MadeOf.parent?_childElements (h : f.MadeOf tops) {id child : ElementId}
    {wanted : ElementKind} (hchild : child ∈ f.childElements id wanted) :
    f.parent? (.element child) = some id :=
  h.mem_children_iff.mp (mem_children_of_elementChildren (List.mem_filter.mp hchild).1)

end Forest

end DeclVisibility
