import DeclVisibility.Proofs.Fix.Foremost
import DeclVisibility.Proofs.Fix.Keeps
import DeclVisibility.Proofs.Fix.Starts
import DeclVisibility.Proofs.Tree.Soundness

/-!
# Where a fix writes, and all that it changes

The two nodes that a fix puts into its declaration stand at a place that is computed from the child
list (`Forest.publishIndex`): before the first child that carries meaning behind the last attribute
before the name. Nothing else is changed by the fix, and nothing else is reached from the root after
it (`Fix.Published`). Both hold wherever a fix puts in what it has to (`Fix.Inserts.published`).
-/

namespace DeclVisibility

namespace Forest

variable {f : Forest} {id : ElementId} {kind : ElementKind}

/-- The place of the first name among the children of a declaration. -/
def nameIndex (f : Forest) (decl : ElementId) : Nat :=
  (f.children decl).findIdx fun child => f.kind? child = some (.element .name)

/-- The place in a declaration at which a visibility is to be written. -/
def publishIndex (f : Forest) (decl : ElementId) : Nat :=
  f.foremostIndex (f.children decl) (f.nameIndex decl)

/-- What is held of an element is its kind, its children and its parent. -/
theorem element?_eq (h : f.elementKind? id = some kind) :
    f.element? id = some ⟨kind, f.children id, f.parent? (.element id)⟩ := by
  obtain ⟨held, hheld, rfl⟩ := Option.map_eq_some_iff.mp h
  rw [parent?, children, hheld]
  rfl

theorem exists_elementKind? (held : f.holds (.element id) = true) :
    ∃ kind, f.elementKind? id = some kind := by
  rw [holds, Table.has_iff, Option.isSome_iff_exists] at held
  obtain ⟨row, hrow⟩ := held
  exact ⟨row.kind, by rw [elementKind?, element?, hrow, Option.map_some]⟩

/-- The first child of a kind is the first of the children that is an element of this kind. -/
theorem childElement?_eq_find? (f : Forest) (id : ElementId) (wanted : ElementKind) :
    f.childElement? id wanted =
      ((f.children id).find? fun child => f.kind? child = some (.element wanted)).bind
        NodeId.element? := by
  rw [childElement?, elementChildren]
  induction f.children id with
  | nil => rfl
  | cons child rest ih =>
    cases child with
    | token other =>
      have hkind : f.kind? (.token other) ≠ some (.element wanted) := by
        rw [kind?]
        cases f.token? other <;> simp
      simp [List.filterMap_cons, NodeId.element?, hkind, ih]
    | element other =>
      by_cases hkind : f.elementKind? other = some wanted
      · simp [NodeId.element?, kind?, hkind]
      · simp [NodeId.element?, kind?, hkind, ih]

/-- The name of a declaration stands at the place of the first name. -/
theorem getElem?_nameIndex {name : ElementId} (h : f.childElement? id .name = some name) :
    (f.children id)[f.nameIndex id]? = some (.element name) := by
  rw [childElement?_eq_find?] at h
  obtain ⟨child, hfind, hchild⟩ := Option.bind_eq_some_iff.mp h
  rw [List.find?_eq_getElem?_findIdx] at hfind
  cases child with
  | token other => cases hchild
  | element other =>
    obtain rfl := Option.some.inj hchild
    exact hfind

/-- The anchor of a declaration is the child at the place to write at. -/
theorem Linked.getElem?_publishIndex (h : f.Linked) {decl : ElementId} {anchor : NodeId}
    (hanchor : f.anchor? decl = some anchor) :
    (f.children decl)[f.publishIndex decl]? = some anchor := by
  obtain ⟨name, hname, rfl⟩ := Option.map_eq_some_iff.mp hanchor
  have hplace := getElem?_nameIndex hname
  have hkind : f.elementKind? name = some .name := by simpa using List.find?_some hname
  have meant : f.isTrivia (.element name) = false := by
    rw [isTrivia, kind?, hkind]
    rfl
  obtain ⟨before, after, listed, hlength⟩ := exists_split_of_getElem? hplace
  obtain ⟨i, anchor, hback, hi, hforemost⟩ :=
    h.exists_foremost (f.siblingCount (.element name)) listed
      (by rw [h.siblingCount listed]; simp)
  rw [hlength] at hforemost
  rw [hback, publishIndex, (IsForemost.computed hplace meant).unique hforemost]
  exact hi

end Forest

/-! ## Reaching nodes -/

namespace Tree

/-- The node is reached from the root along child lists. -/
def Reaches (t : Tree) (node : NodeId) : Prop :=
  ∃ path, t.follow? (.element t.root) path = some node

/-- In a tree that reads as one nested value, the nodes that are held are those that are reached. -/
theorem ReadsAs.reaches_iff {t : Tree} {s : Subtree} (h : t.ReadsAs s) {node : NodeId} :
    t.Reaches node ↔ t.holds node = true := by
  constructor
  · rintro ⟨path, hpath⟩
    rw [← h.root] at hpath
    change t.toForest.follow? s.id path = some node at hpath
    rw [h.carries.follow?, Option.map_eq_some_iff] at hpath
    obtain ⟨u, hu, rfl⟩ := hpath
    exact h.holds_iff.mpr (Subtree.at?_mem_nodes hu)
  · intro held
    obtain ⟨path, hpath, -⟩ := h.existsUnique_path held
    exact ⟨path, hpath⟩

end Tree

/-! ## What is changed -/

/-- The nodes that are put in: the visibility with its tokens, and the blank. -/
def Inset.nodes (w : Inset) : List NodeId := w.visibility.nodes ++ w.space.nodes

/-- A fix has put a visibility and a blank into its declaration, in this order and at the place to
write at, before the child that stood there. The visibility is made of the tokens that write the
scope. All that was held before is as it was but for the child list of the declaration, and nothing
but the new nodes is reached in addition. -/
structure Fix.Published (fix : Fix) (t t' : Tree) (w : Inset) : Prop where
  anchor : (t.children fix.decl)[t.publishIndex fix.decl]? = some w.anchor
  declaration : ∃ held, t.element? fix.decl = some held ∧ t'.element? fix.decl =
    some { held with
      children := held.children.take (t.publishIndex fix.decl) ++
        .element w.vis :: .token w.blank :: held.children.drop (t.publishIndex fix.decl) }
  elements : ∀ id, t.holds (.element id) = true → id ≠ fix.decl → t'.element? id = t.element? id
  tokens : ∀ id, t.holds (.token id) = true → t'.token? id = t.token? id
  visibility : t'.element? w.vis =
    some ⟨.vis, w.leaves.map fun leaf => .token leaf.id, some fix.decl⟩
  leaves : ∀ leaf ∈ w.leaves, t'.token? leaf.id = some ⟨leaf.kind, leaf.text, some w.vis⟩
  writes : fix.scope.Writes w.leaves
  blank : t'.token? w.blank = some ⟨.space, " ", some fix.decl⟩
  new : ∀ node ∈ w.nodes, t.holds node = false
  root : t'.root = t.root
  reached : ∀ node, t'.Reaches node ↔ t.Reaches node ∨ node ∈ w.nodes

namespace Fix.Inserts

variable {fix : Fix} {t t' : Tree} {s : Subtree} {w : Inset} {id : ElementId}

section Published
variable (h : fix.Inserts t s w t') (readsAs : t.ReadsAs s)
include h readsAs

theorem holds_decl : t.holds (.element fix.decl) = true :=
  readsAs.madeOf.holds_parent (h.parent? readsAs)

theorem getElem?_publishIndex :
    (t.children fix.decl)[t.publishIndex fix.decl]? = some w.anchor :=
  readsAs.madeOf.linked.getElem?_publishIndex h.anchor

/-- The new nodes stand at the place to write at. -/
theorem children_decl : t'.children fix.decl =
    (t.children fix.decl).take (t.publishIndex fix.decl) ++
      .element w.vis :: .token w.blank ::
        (t.children fix.decl).drop (t.publishIndex fix.decl) := by
  obtain ⟨before, after, listed, hlength⟩ :=
    Forest.exists_split_of_getElem? (h.getElem?_publishIndex readsAs)
  have hnodup := readsAs.madeOf.nodup_children fix.decl
  rw [listed, List.nodup_middle, List.nodup_cons, List.mem_append, not_or] at hnodup
  -- the anchor stands once, so all other children are kept as they are
  have hkept : ∀ nodes : List NodeId, w.anchor ∉ nodes → nodes.flatMap (fun node =>
      (if node = w.anchor then [NodeId.element w.vis, .token w.blank] else []) ++ [node]) =
        nodes := by
    intro nodes hnot
    rw [← List.flatMap_singleton' nodes, List.flatMap_assoc]
    apply List.flatMap_congr
    intro node hnode
    have hne : node ≠ w.anchor := fun heq => hnot (heq ▸ hnode)
    simp [hne]
  rw [h.children_eq readsAs (h.holds_decl readsAs), listed, ← hlength, List.take_left,
    List.drop_left, List.flatMap_append, List.flatMap_cons, hkept _ hnodup.1.1,
    hkept _ hnodup.1.2, if_pos rfl]
  rfl

theorem element?_decl : ∃ held, t.element? fix.decl = some held ∧ t'.element? fix.decl =
    some { held with
      children := held.children.take (t.publishIndex fix.decl) ++
        .element w.vis :: .token w.blank :: held.children.drop (t.publishIndex fix.decl) } := by
  have held := h.holds_decl readsAs
  obtain ⟨kind, hkind⟩ := Forest.exists_elementKind? held
  refine ⟨_, Forest.element?_eq hkind, ?_⟩
  rw [Forest.element?_eq ((h.elementKind? readsAs held).trans hkind), h.children_decl readsAs,
    h.parent?_eq readsAs held]

theorem element?_of_ne (held : t.holds (.element id) = true) (hne : id ≠ fix.decl) :
    t'.element? id = t.element? id := by
  obtain ⟨kind, hkind⟩ := Forest.exists_elementKind? held
  rw [Forest.element?_eq hkind, Forest.element?_eq ((h.elementKind? readsAs held).trans hkind),
    (h.agreeAt readsAs held hne).children, h.parent?_eq readsAs held]

/-- Nothing that is put in was held before. -/
theorem notMem_nodes {node : NodeId} (held : t.holds node = true) : node ∉ w.nodes := by
  obtain ⟨hvis, hblank⟩ := h.fresh node (readsAs.holds_iff.mp held)
  rw [Inset.nodes, List.mem_append, not_or]
  exact ⟨hvis, hblank⟩

theorem reaches_iff (node : NodeId) : t'.Reaches node ↔ t.Reaches node ∨ node ∈ w.nodes := by
  have hanchor := readsAs.holds_iff.mp (Forest.holds_of_parent? (h.parent? readsAs))
  obtain ⟨l, r, hsplit⟩ := List.append_of_mem hanchor
  rw [h.readsAs.reaches_iff, readsAs.reaches_iff, h.readsAs.holds_iff, readsAs.holds_iff,
    h.nodes_publish readsAs hsplit, hsplit, Inset.nodes]
  simp only [List.mem_append]
  tauto

/-- A fix that puts in what it has to changes nothing else. -/
theorem published : fix.Published t t' w where
  anchor := h.getElem?_publishIndex readsAs
  declaration := h.element?_decl readsAs
  elements _ held hne := h.element?_of_ne readsAs held hne
  tokens _ held := h.token? readsAs held
  visibility := by
    have hplaced := (readsAs.new_placed (h.parent? readsAs) (h.anchor_fresh readsAs)).1
    have hrow := h.readsAs.madeOf.row_placed List.mem_cons_self hplaced
    rw [Forest.element?_of_row? hrow, List.map_map]
    rfl
  leaves leaf hleaf := by
    have hplaced := (readsAs.new_placed (h.parent? readsAs) (h.anchor_fresh readsAs)).1
    have hchild := Subtree.child_placed hplaced (List.mem_map_of_mem hleaf)
    exact Forest.token?_of_row? (h.readsAs.madeOf.row_placed List.mem_cons_self hchild)
  writes := h.writes
  blank := by
    have hplaced := (readsAs.new_placed (h.parent? readsAs) (h.anchor_fresh readsAs)).2
    exact Forest.token?_of_row? (h.readsAs.madeOf.row_placed List.mem_cons_self hplaced)
  new node hnode := by
    rw [← Bool.not_eq_true]
    exact fun held => h.notMem_nodes readsAs held hnode
  root := by
    have hroot := h.readsAs.root
    rw [Subtree.id_publish, readsAs.root] at hroot
    exact (NodeId.element.inj hroot).symm
  reached := h.reaches_iff readsAs

end Published

end Fix.Inserts

end DeclVisibility
