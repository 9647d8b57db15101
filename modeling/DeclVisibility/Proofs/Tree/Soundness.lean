import DeclVisibility.Proofs.Tree.Preorder
import DeclVisibility.Proofs.Tree.Reading
import Mathlib.Logic.ExistsUnique
import Mathlib.Logic.Relation

/-!
# Sound trees

A tree is sound if it is one rooted ordered tree that uses all of its tables (`Tree.Sound`), said
in terms of its links alone: child lists and parents agree, no element is below itself, and every
node is reached from the root by exactly one path of child indexes. A tree that reads as one nested
value is sound (`Tree.ReadsAs.sound`). The paths are those of the nested value, where a node that
stands once is found in one place (`Subtree.at?_inj`); a cycle would give a node a second path.
-/

namespace DeclVisibility

/-! ## Paths in a nested value -/

namespace Subtree

/-- What is found by taking, level by level, the child at an index. -/
def at? : Subtree → List Nat → Option Subtree
  | s, [] => some s
  | token _, _ :: _ => none
  | element _ _ children, i :: rest => children[i]?.bind fun child => child.at? rest

theorem at?_mem_nodes {t : Subtree} : ∀ {path : List Nat} {s : Subtree}, s.at? path = some t →
    t.id ∈ s.nodes
  | [], s, h => by
    rw [at?] at h
    exact Option.some.inj h ▸ s.id_mem_nodes
  | i :: rest, .token leaf, h => by cases h
  | i :: rest, .element id kind children, h => by
    rw [at?, Option.bind_eq_some_iff] at h
    obtain ⟨c, hc, hrest⟩ := h
    rw [nodes_element]
    exact List.mem_cons_of_mem _
      (List.mem_flatMap.mpr ⟨c, List.mem_of_getElem? hc, at?_mem_nodes hrest⟩)

theorem exists_at? {s : Subtree} {node : NodeId} (h : node ∈ s.nodes) :
    ∃ path t, s.at? path = some t ∧ t.id = node := by
  induction s with
  | token leaf =>
    rw [nodes_token, List.mem_singleton] at h
    exact ⟨[], token leaf, rfl, h.symm⟩
  | element id kind children ih =>
    rw [nodes_element, List.mem_cons] at h
    rcases h with rfl | h
    · exact ⟨[], element id kind children, rfl, rfl⟩
    · obtain ⟨c, hc, hnode⟩ := List.mem_flatMap.mp h
      obtain ⟨path, t, hpath, ht⟩ := ih c hc hnode
      obtain ⟨i, hi⟩ := List.mem_iff_getElem?.mp hc
      refine ⟨i :: path, t, ?_, ht⟩
      rw [at?, hi, Option.bind_some, hpath]

/-- A node that stands once is found along one path. -/
theorem at?_inj : ∀ {path path' : List Nat} {s t t' : Subtree}, s.nodes.Nodup →
    s.at? path = some t → s.at? path' = some t' → t.id = t'.id → path = path'
  | [], [], _, _, _, _, _, _, _ => rfl
  | _ :: _, _, .token _, _, _, _, h, _, _ => by cases h
  | _, _ :: _, .token _, _, _, _, _, h, _ => by cases h
  | [], i :: rest, .element id kind children, t, t', nodup, h, h', heq => by
    rw [at?, Option.bind_eq_some_iff] at h'
    obtain ⟨c, hc, hrest⟩ := h'
    obtain rfl := Option.some.inj h
    rw [nodes_element, List.nodup_cons] at nodup
    -- the first path stops at the top, which would stand below itself
    have hmem := at?_mem_nodes hrest
    rw [← heq, id_element] at hmem
    exact absurd (List.mem_flatMap.mpr ⟨c, List.mem_of_getElem? hc, hmem⟩) nodup.1
  | i :: rest, [], .element id kind children, t, t', nodup, h, h', heq => by
    rw [at?, Option.bind_eq_some_iff] at h
    obtain ⟨c, hc, hrest⟩ := h
    obtain rfl := Option.some.inj h'
    rw [nodes_element, List.nodup_cons] at nodup
    have hmem := at?_mem_nodes hrest
    rw [heq, id_element] at hmem
    exact absurd (List.mem_flatMap.mpr ⟨c, List.mem_of_getElem? hc, hmem⟩) nodup.1
  | i :: rest, j :: rest', .element id kind children, t, t', nodup, h, h', heq => by
    rw [at?, Option.bind_eq_some_iff] at h h'
    obtain ⟨c, hc, hrest⟩ := h
    obtain ⟨d, hd, hrest'⟩ := h'
    rw [nodes_element, List.nodup_cons] at nodup
    have hcm := List.mem_of_getElem? hc
    -- the node stands below one child only, and that child has one index
    have hsame : c = d := eq_of_common nodup.2 hcm (List.mem_of_getElem? hd)
      (at?_mem_nodes hrest) (heq ▸ at?_mem_nodes hrest')
    subst hsame
    have hchildren : children.Nodup := (nodup.2.sublist (map_id_sublist children)).of_map
    obtain ⟨hi, -⟩ := List.getElem?_eq_some_iff.mp hc
    have hindex : i = j := (List.getElem?_inj hi hchildren).mp (hc.trans hd.symm)
    rw [hindex, at?_inj ((List.nodup_flatMap.mp nodup.2).1 c hcm) hrest hrest' heq]

theorem leaf_mem_leaves {s : Subtree} {leaf : Leaf} : ∀ {p q : Option ElementId},
    (q, token leaf) ∈ s.placed p → leaf ∈ s.leaves := by
  induction s with
  | token leaf' =>
    intro p q h
    rw [placed_token, List.mem_singleton] at h
    rw [leaves_token, List.mem_singleton]
    exact Subtree.token.inj (Prod.mk.inj h).2
  | element id kind children ih =>
    intro p q h
    rw [placed_element, List.mem_cons] at h
    rcases h with h | h
    · cases (Prod.mk.inj h).2
    · obtain ⟨c, hc, h⟩ := List.mem_flatMap.mp h
      rw [leaves_element]
      exact List.mem_flatMap.mpr ⟨c, hc, ih c hc h⟩

end Subtree

/-! ## Paths in a forest -/

namespace Forest

/-- The node reached from a node by taking, level by level, the child at an index. -/
def follow? (f : Forest) : NodeId → List Nat → Option NodeId
  | node, [] => some node
  | .token _, _ :: _ => none
  | .element id, i :: rest => (f.children id)[i]?.bind fun child => f.follow? child rest

/-- Whether a node is among the children of another. -/
def Lists (f : Forest) (parent child : NodeId) : Prop :=
  ∃ id, parent = .element id ∧ child ∈ f.children id

variable {f : Forest}

theorem Carries.follow? : ∀ {path : List Nat} {p : Option ElementId} {s : Subtree}, f.Carries p s →
    f.follow? s.id path = (s.at? path).map Subtree.id
  | [], _, s, _ => by cases s <;> rfl
  | i :: rest, _, .token leaf, _ => rfl
  | i :: rest, p, .element id kind children, h => by
    have hrow : f.row? (.element id) = some (.element ⟨kind, children.map Subtree.id, p⟩) := h.top
    rw [Subtree.id_element, Forest.follow?, children_of_row? hrow, Subtree.at?, List.getElem?_map]
    cases hc : children[i]? with
    | none => rfl
    | some c => exact (h.child (List.mem_of_getElem? hc)).follow?

/-- A path goes on to every child of where it leads. -/
theorem follow?_child {parent child : NodeId} (h : f.Lists parent child) :
    ∀ {path : List Nat} {node : NodeId}, f.follow? node path = some parent →
      ∃ i, f.follow? node (path ++ [i]) = some child
  | [], node, hpath => by
    rw [Forest.follow?] at hpath
    obtain rfl := Option.some.inj hpath
    obtain ⟨id, rfl, hchild⟩ := h
    obtain ⟨i, hi⟩ := List.mem_iff_getElem?.mp hchild
    exact ⟨i, by rw [List.nil_append, Forest.follow?, hi, Option.bind_some, Forest.follow?]⟩
  | j :: rest, .token id, hpath => by cases hpath
  | j :: rest, .element id, hpath => by
    rw [Forest.follow?, Option.bind_eq_some_iff] at hpath
    obtain ⟨c, hc, hrest⟩ := hpath
    obtain ⟨i, hi⟩ := follow?_child h hrest
    exact ⟨i, by rw [List.cons_append, Forest.follow?, hc, Option.bind_some, hi]⟩

theorem follow?_below {start a b : NodeId} (h : Relation.TransGen f.Lists a b) {path : List Nat}
    (hpath : f.follow? start path = some a) :
    ∃ longer : List Nat, path.length < longer.length ∧ f.follow? start longer = some b := by
  induction h with
  | single hlists =>
    obtain ⟨i, hi⟩ := follow?_child hlists hpath
    exact ⟨path ++ [i], by simp, hi⟩
  | tail _ hlists ih =>
    obtain ⟨longer, hlength, hlonger⟩ := ih
    obtain ⟨i, hi⟩ := follow?_child hlists hlonger
    refine ⟨longer ++ [i], ?_, hi⟩
    rw [List.length_append]
    omega

end Forest

/-! ## Soundness -/

namespace Tree

/-- The tree is one rooted ordered tree that uses all of its tables, and its tokens are spelled as
their kinds demand. -/
structure Sound (t : Tree) : Prop where
  root_held : t.holds (.element t.root) = true
  root_free : t.parent? (.element t.root) = none
  child_held : ∀ id, ∀ node ∈ t.children id, t.holds node = true
  child_once : ∀ id node, (t.children id).count node = if t.parent? node = some id then 1 else 0
  acyclic : ∀ node, ¬ Relation.TransGen t.Lists node node
  one_path : ∀ node, t.holds node = true →
    ∃! path : List Nat, t.follow? (.element t.root) path = some node
  descendants_length : (t.descendants t.root).length = t.elements.size
  spelled : ∀ id token, t.token? id = some token → token.kind.Spells token.text

variable {t : Tree} {s : Subtree}

theorem ReadsAs.existsUnique_path (h : t.ReadsAs s) {node : NodeId} (held : t.holds node = true) :
    ∃! path : List Nat, t.follow? (.element t.root) path = some node := by
  obtain ⟨path, u, hpath, hu⟩ := Subtree.exists_at? (h.holds_iff.mp held)
  rw [← h.root]
  refine ⟨path, ?_, ?_⟩
  · change t.follow? s.id path = some node
    rw [h.carries.follow?, hpath, Option.map_some, hu]
  · intro other hother
    change t.follow? s.id other = some node at hother
    rw [h.carries.follow?, Option.map_eq_some_iff] at hother
    obtain ⟨v, hv, hvnode⟩ := hother
    exact Subtree.at?_inj h.nodup hv hpath (hvnode.trans hu.symm)

/-- A node below itself would be reached by a second, longer path. -/
theorem ReadsAs.acyclic (h : t.ReadsAs s) (node : NodeId) : ¬ Relation.TransGen t.Lists node node := by
  intro hcycle
  have held : t.holds node = true := by
    obtain ⟨parent, -, hlists⟩ := Relation.TransGen.tail'_iff.mp hcycle
    obtain ⟨id, -, hnode⟩ := hlists
    exact h.madeOf.holds_child hnode
  obtain ⟨path, hpath, honly⟩ := h.existsUnique_path held
  obtain ⟨longer, hlength, hlonger⟩ := Forest.follow?_below hcycle hpath
  rw [honly longer hlonger] at hlength
  exact Nat.lt_irrefl _ hlength

theorem ReadsAs.descendants_root (h : t.ReadsAs s) : t.descendants t.root = s.elements :=
  h.madeOf.descendants_placed List.mem_cons_self (Subtree.self_mem_placed none s) h.root

theorem ReadsAs.spells (h : t.ReadsAs s) {id : TokenId} {token : Token}
    (htoken : t.token? id = some token) : token.kind.Spells token.text := by
  have hrow : t.row? (.token id) = some (.token token) := by
    rw [Forest.row?, htoken, Option.map_some]
  have held : t.holds (.token id) = true := by
    rw [Forest.holds_eq, hrow, Option.isSome_some]
  obtain ⟨u, hu, ⟨p, v⟩, hv, hid⟩ := h.madeOf.exists_placed held
  rw [List.mem_singleton] at hu
  subst hu
  have hplaced := h.madeOf.row_placed List.mem_cons_self hv
  rw [hid, hrow] at hplaced
  cases v with
  | element _ _ _ => cases hid
  | token leaf =>
    obtain rfl := Row.token.inj (Option.some.inj hplaced)
    exact h.spelled leaf (Subtree.leaf_mem_leaves hv)

/-- A tree that reads as one nested value is sound. -/
theorem ReadsAs.sound (h : t.ReadsAs s) : t.Sound where
  root_held := by
    rw [h.holds_iff, ← h.root]
    exact s.id_mem_nodes
  root_free := by
    rw [← h.root]
    exact h.carries.parent?
  child_held _ _ hnode := h.madeOf.holds_child hnode
  child_once := h.madeOf.count_children
  acyclic := h.acyclic
  one_path _ held := h.existsUnique_path held
  descendants_length := by
    have hnumbers := h.madeOf.numbers.length_eq
    rw [List.flatMap_singleton, List.length_map, List.length_range] at hnumbers
    rw [h.descendants_root, hnumbers]
  spelled _ _ := h.spells

end Tree

end DeclVisibility
