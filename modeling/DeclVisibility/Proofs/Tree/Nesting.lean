import DeclVisibility.Tree.Subtree
import Mathlib.Data.List.Nodup
import Mathlib.Data.List.Perm.Basic

/-!
# Nested values

What can be said of a nested value by itself, before any forest holds it: its nodes in text order
and the place of each of them (`Subtree.placed`). Where no node stands twice, a node has one place
(`placed_unique`), and subtrees that stand side by side have no node in common (`eq_of_common`).
-/

namespace DeclVisibility

/-! ## The elements among nodes -/

namespace NodeId

theorem element?_eq_some {node : NodeId} {id : ElementId} :
    node.element? = some id ↔ node = .element id := by
  cases node <;> simp [element?]

theorem mem_filterMap_element? {nodes : List NodeId} {id : ElementId} :
    id ∈ nodes.filterMap element? ↔ .element id ∈ nodes := by
  rw [List.mem_filterMap]
  constructor
  · rintro ⟨node, hnode, hid⟩
    exact element?_eq_some.mp hid ▸ hnode
  · exact fun hnode => ⟨_, hnode, rfl⟩

theorem map_filterMap_element?_sublist (nodes : List NodeId) :
    ((nodes.filterMap element?).map element).Sublist nodes := by
  induction nodes with
  | nil => exact List.Sublist.refl _
  | cons node rest ih =>
    cases node with
    | token other => exact ih.cons _
    | element other => exact ih.cons_cons _

end NodeId

namespace Subtree

/-- Induction with one hypothesis for each child. -/
@[elab_as_elim, induction_eliminator]
theorem induction {motive : Subtree → Prop} (token : ∀ leaf, motive (.token leaf))
    (element : ∀ id kind children, (∀ s ∈ children, motive s) → motive (.element id kind children)) :
    ∀ s, motive s
  | .token leaf => token leaf
  | .element id kind children => element id kind children fun s _ => induction token element s

/-! ## Nodes and their places -/

mutual
/-- The nodes, each before those below it. -/
def nodes : Subtree → List NodeId
  | token leaf => [.token leaf.id]
  | element id _ children => .element id :: nodesOfAll children
/-- The nodes of subtrees that stand side by side. -/
def nodesOfAll : List Subtree → List NodeId
  | [] => []
  | child :: rest => child.nodes ++ nodesOfAll rest
end

/-- The elements, each before those below it. -/
def elements (s : Subtree) : List ElementId := s.nodes.filterMap NodeId.element?

mutual
/-- The subtree and every subtree below it, each with the element that it hangs in. -/
def placed (parent? : Option ElementId) : Subtree → List (Option ElementId × Subtree)
  | token leaf => [(parent?, token leaf)]
  | element id kind children => (parent?, element id kind children) :: placedAll id children
/-- The places in subtrees that hang side by side in an element. -/
def placedAll (parent : ElementId) : List Subtree → List (Option ElementId × Subtree)
  | [] => []
  | child :: rest => child.placed (some parent) ++ placedAll parent rest
end

theorem leavesOfAll_eq : ∀ ss : List Subtree, leavesOfAll ss = ss.flatMap leaves
  | [] => rfl
  | s :: rest => by rw [leavesOfAll, leavesOfAll_eq rest, List.flatMap_cons]

theorem nodesOfAll_eq : ∀ ss : List Subtree, nodesOfAll ss = ss.flatMap nodes
  | [] => rfl
  | s :: rest => by rw [nodesOfAll, nodesOfAll_eq rest, List.flatMap_cons]

theorem placedAll_eq (parent : ElementId) :
    ∀ ss : List Subtree, placedAll parent ss = ss.flatMap (placed (some parent))
  | [] => rfl
  | s :: rest => by rw [placedAll, placedAll_eq parent rest, List.flatMap_cons]

section Equations
variable (leaf : Leaf) (id : ElementId) (kind : ElementKind) (children : List Subtree)
variable (parent? : Option ElementId)

@[simp] theorem id_token : (token leaf).id = .token leaf.id := rfl

@[simp] theorem id_element : (element id kind children).id = .element id := rfl

@[simp] theorem leaves_token : (token leaf).leaves = [leaf] := by rw [leaves]

@[simp] theorem leaves_element : (element id kind children).leaves = children.flatMap leaves := by
  rw [leaves, leavesOfAll_eq]

@[simp] theorem nodes_token : (token leaf).nodes = [.token leaf.id] := by rw [nodes]

@[simp] theorem nodes_element :
    (element id kind children).nodes = .element id :: children.flatMap nodes := by
  rw [nodes, nodesOfAll_eq]

@[simp] theorem elements_token : (token leaf).elements = [] := by
  simp [elements, NodeId.element?]

@[simp] theorem elements_element :
    (element id kind children).elements = id :: children.flatMap elements := by
  have h : ∀ ss : List Subtree,
      (ss.flatMap nodes).filterMap NodeId.element? = ss.flatMap elements := by
    intro ss
    rw [List.filterMap_flatMap]
    rfl
  simp [elements, NodeId.element?, h]

@[simp] theorem placed_token : (token leaf).placed parent? = [(parent?, token leaf)] := by
  rw [placed]

@[simp] theorem placed_element : (element id kind children).placed parent? =
    (parent?, element id kind children) :: children.flatMap (placed (some id)) := by
  rw [placed, placedAll_eq]

end Equations

theorem id_mem_nodes (s : Subtree) : s.id ∈ s.nodes := by
  cases s <;> simp

/-- The top comes first among the nodes. -/
theorem mem_elements_iff {s : Subtree} {id : ElementId} : id ∈ s.elements ↔ .element id ∈ s.nodes :=
  NodeId.mem_filterMap_element?

theorem elements_sublist (s : Subtree) : (s.elements.map NodeId.element).Sublist s.nodes :=
  NodeId.map_filterMap_element?_sublist s.nodes

theorem exists_nodes_cons (s : Subtree) : ∃ below, s.nodes = s.id :: below := by
  cases s with
  | token leaf => exact ⟨[], nodes_token leaf⟩
  | element id kind children => exact ⟨_, nodes_element id kind children⟩

theorem self_mem_placed (p : Option ElementId) (s : Subtree) : (p, s) ∈ s.placed p := by
  cases s <;> simp

/-- The places are those of the nodes, in the same order. -/
theorem map_placed (s : Subtree) : ∀ p, (s.placed p).map (fun x => x.2.id) = s.nodes := by
  induction s with
  | token leaf => intro p; simp
  | element id kind children ih =>
    intro p
    simp only [placed_element, List.map_cons, id_element, nodes_element, List.map_flatMap]
    congr 1
    exact List.flatMap_congr fun s hs => ih s hs (some id)

theorem mem_nodes_iff {s : Subtree} {node : NodeId} (p : Option ElementId) :
    node ∈ s.nodes ↔ ∃ x ∈ s.placed p, x.2.id = node := by
  rw [← map_placed s p, List.mem_map]

/-- A node that stands once in a subtree has one place in it. -/
theorem placed_unique {s : Subtree} (nodup : s.nodes.Nodup) {p : Option ElementId}
    {x y : Option ElementId × Subtree} (hx : x ∈ s.placed p) (hy : y ∈ s.placed p)
    (same : x.2.id = y.2.id) : x = y := by
  rw [← map_placed s p] at nodup
  exact List.inj_on_of_nodup_map nodup hx hy same

/-- What is placed below a placed subtree is placed in the whole. -/
theorem placed_trans {s : Subtree} : ∀ {p : Option ElementId} {x : Option ElementId × Subtree},
    x ∈ s.placed p → x.2.placed x.1 ⊆ s.placed p := by
  induction s with
  | token leaf =>
    intro p x hx
    rw [placed_token, List.mem_singleton] at hx
    rw [hx]
    exact List.Subset.refl _
  | element id kind children ih =>
    intro p x hx
    rw [placed_element, List.mem_cons] at hx
    rcases hx with rfl | hx
    · exact List.Subset.refl _
    · obtain ⟨s, hs, hx⟩ := List.mem_flatMap.mp hx
      intro y hy
      rw [placed_element]
      exact List.mem_cons_of_mem _ (List.mem_flatMap.mpr ⟨s, hs, ih s hs hx hy⟩)

/-- What is placed in a subtree is placed in it wherever the subtree itself hangs. -/
theorem placed_in {s : Subtree} {p : Option ElementId} {x : Option ElementId × Subtree}
    (hx : x ∈ s.placed p) (p' : Option ElementId) : ∃ q, (q, x.2) ∈ s.placed p' := by
  cases s with
  | token leaf =>
    rw [placed_token, List.mem_singleton] at hx
    exact ⟨p', by rw [hx, placed_token, List.mem_singleton]⟩
  | element id kind children =>
    rw [placed_element, List.mem_cons] at hx
    rcases hx with rfl | hx
    · exact ⟨p', self_mem_placed p' _⟩
    · refine ⟨x.1, ?_⟩
      rw [placed_element]
      exact List.mem_cons_of_mem _ hx

theorem child_placed {s : Subtree} {p q : Option ElementId} {id : ElementId} {kind : ElementKind}
    {children : List Subtree} (h : (q, element id kind children) ∈ s.placed p) {c : Subtree}
    (hc : c ∈ children) : (some id, c) ∈ s.placed p := by
  refine placed_trans h ?_
  simp only [placed_element]
  exact List.mem_cons_of_mem _ (List.mem_flatMap.mpr ⟨c, hc, self_mem_placed _ c⟩)

/-- What hangs in an element is one of its children, unless it is the top. -/
theorem placed_parent {s : Subtree} : ∀ {p : Option ElementId} {id : ElementId} {c : Subtree},
    (some id, c) ∈ s.placed p → (p, s) = (some id, c) ∨
      ∃ q kind children, (q, element id kind children) ∈ s.placed p ∧ c ∈ children := by
  induction s with
  | token leaf =>
    intro p id c h
    rw [placed_token, List.mem_singleton] at h
    exact .inl h.symm
  | element top kind children ih =>
    intro p id c h
    rw [placed_element, List.mem_cons] at h
    rcases h with h | h
    · exact .inl h.symm
    · obtain ⟨s, hs, hc⟩ := List.mem_flatMap.mp h
      right
      -- what is the top of a child hangs in the element, and is no top here
      rcases ih s hs hc with h | ⟨q, k, ss, hq, hmem⟩
      · obtain ⟨hid, rfl⟩ := Prod.mk.inj h
        obtain rfl := Option.some.inj hid
        exact ⟨p, kind, children, self_mem_placed _ _, hs⟩
      · refine ⟨q, k, ss, ?_, hmem⟩
        rw [placed_element]
        exact List.mem_cons_of_mem _ (List.mem_flatMap.mpr ⟨s, hs, hq⟩)

/-- Everything but the top hangs in an element. -/
theorem placed_free {s : Subtree} : ∀ {p : Option ElementId} {u : Subtree},
    (none, u) ∈ s.placed p → (p, s) = (none, u) := by
  induction s with
  | token leaf =>
    intro p u h
    rw [placed_token, List.mem_singleton] at h
    exact h.symm
  | element id kind children ih =>
    intro p u h
    rw [placed_element, List.mem_cons] at h
    rcases h with h | h
    · exact h.symm
    · obtain ⟨c, hc, h⟩ := List.mem_flatMap.mp h
      cases (Prod.mk.inj (ih c hc h)).1

/-- The nodes of a placed subtree stand among those of the whole. -/
theorem nodes_sublist {s : Subtree} : ∀ {p : Option ElementId} {x : Option ElementId × Subtree},
    x ∈ s.placed p → x.2.nodes.Sublist s.nodes := by
  induction s with
  | token leaf =>
    intro p x hx
    rw [placed_token, List.mem_singleton] at hx
    rw [hx]
  | element id kind children ih =>
    intro p x hx
    rw [placed_element, List.mem_cons] at hx
    rcases hx with rfl | hx
    · exact List.Sublist.refl _
    · obtain ⟨c, hc, hx⟩ := List.mem_flatMap.mp hx
      rw [nodes_element, List.flatMap_def]
      exact ((ih c hc hx).trans (List.sublist_flatten_of_mem (List.mem_map_of_mem hc))).cons _

/-- Subtrees that stand side by side with no node twice have no node in common. -/
theorem eq_of_common {ss : List Subtree} (nodup : (ss.flatMap nodes).Nodup) {c d : Subtree}
    (hc : c ∈ ss) (hd : d ∈ ss) {node : NodeId} (hnc : node ∈ c.nodes) (hnd : node ∈ d.nodes) :
    c = d := by
  obtain ⟨l, r, rfl⟩ := List.append_of_mem hc
  rw [List.flatMap_append, List.flatMap_cons] at nodup
  have before := List.disjoint_of_nodup_append nodup
  have after := List.disjoint_of_nodup_append nodup.of_append_right
  rw [List.mem_append, List.mem_cons] at hd
  rcases hd with hd | rfl | hd
  · exact absurd (List.mem_append_left _ hnc) (before (List.mem_flatMap.mpr ⟨d, hd, hnd⟩))
  · rfl
  · exact absurd (List.mem_flatMap.mpr ⟨d, hd, hnd⟩) (after hnc)

theorem nodup_child {id : ElementId} {kind : ElementKind} {children : List Subtree}
    (nodup : (element id kind children).nodes.Nodup) {c : Subtree} (hc : c ∈ children) :
    c.nodes.Nodup := by
  rw [nodes_element, List.nodup_cons] at nodup
  exact (List.nodup_flatMap.mp nodup.2).1 c hc

/-- Children stand among the nodes below their element. -/
theorem map_id_sublist (ss : List Subtree) : (ss.map Subtree.id).Sublist (ss.flatMap nodes) := by
  induction ss with
  | nil => exact List.Sublist.refl _
  | cons c rest ih =>
    rw [List.map_cons, List.flatMap_cons, ← List.singleton_append]
    exact (List.singleton_sublist.mpr c.id_mem_nodes).append ih

end Subtree

end DeclVisibility
