import DeclVisibility.Proofs.Tree.Soundness

/-!
# Tree order

The nodes of a tree in tree order, each before those below it (`Tree.order`). Where no node stands
twice, the tokens among the nodes before a node are the tokens that its start is behind
(`Subtree.leavesBefore?_of_split`), so the text of these tokens is the text before the node
(`Tree.Shows.offsetOf?_of_mem`), and what starts later in tree order starts no earlier in the text.

What a node is above of is what stands below it in the nested value, whether that is told by paths
of child indexes (`Forest.Carries.follow?_iff`) or link by link (`Forest.Carries.above_iff`).
-/

namespace DeclVisibility

/-- Where nothing stands twice, an entry splits the list in one way. -/
theorem split_unique {α : Type} {a : α} {l r l' r' : List α} (nodup : (l ++ a :: r).Nodup)
    (h : l ++ a :: r = l' ++ a :: r') : l = l' ∧ r = r' := by
  rw [List.nodup_middle, List.nodup_cons, List.mem_append, not_or] at nodup
  obtain ⟨hl, -, hr⟩ := (List.append_cons_inj_of_notMem nodup.1.1 nodup.1.2).mp h
  exact ⟨hl, hr⟩

namespace Subtree

variable {s : Subtree} {node : NodeId} {l r : List NodeId}

/-! ## Nodes and the tokens before them -/

/-- How many of the nodes are tokens. -/
def countTokens (nodes : List NodeId) : Nat := (nodes.filterMap NodeId.token?).length

theorem countTokens_append (l r : List NodeId) :
    countTokens (l ++ r) = countTokens l + countTokens r := by
  rw [countTokens, List.filterMap_append, List.length_append, countTokens, countTokens]

theorem countTokens_flatMap {ss : List Subtree}
    (h : ∀ s ∈ ss, countTokens s.nodes = s.leaves.length) :
    countTokens (ss.flatMap nodes) = (ss.flatMap leaves).length := by
  induction ss with
  | nil => rfl
  | cons s rest ih =>
    rw [List.flatMap_cons, countTokens_append, h s List.mem_cons_self,
      ih fun t ht => h t (List.mem_cons_of_mem s ht), List.flatMap_cons, List.length_append]

theorem countTokens_nodes (s : Subtree) : countTokens s.nodes = s.leaves.length := by
  induction s with
  | token leaf =>
    rw [nodes_token, leaves_token]
    rfl
  | element id kind children ih =>
    rw [nodes_element, leaves_element, ← countTokens_flatMap ih]
    rfl

/-- The tokens before a node in a child are those of the children before that one, and those before
the node in it. -/
theorem leavesBefore?_child {id : ElementId} {kind : ElementKind} {before after : List Subtree}
    {c : Subtree} (nodup : (element id kind (before ++ c :: after)).nodes.Nodup)
    (h : node ∈ c.nodes) : (element id kind (before ++ c :: after)).leavesBefore? node =
      (c.leavesBefore? node).map (before.flatMap leaves ++ ·) := by
  rw [nodes_element, List.nodup_cons, List.flatMap_append, List.flatMap_cons] at nodup
  have hne : NodeId.element id ≠ node := by
    rintro rfl
    exact nodup.1 (List.mem_append_right _ (List.mem_append_left _ h))
  refine leavesBefore?_above id kind after hne (fun hmem => ?_) h
  exact List.disjoint_of_nodup_append nodup.2 hmem (List.mem_append_left _ h)

/-- The tokens before a node are as many as there are among the nodes before it. -/
theorem leavesBefore?_of_split (nodup : s.nodes.Nodup) (h : s.nodes = l ++ node :: r) :
    s.leavesBefore? node = some (s.leaves.take (countTokens l)) := by
  induction s generalizing l r with
  | token leaf =>
    rw [nodes_token] at h
    cases l with
    | nil =>
      obtain ⟨rfl, -⟩ := List.cons.inj h
      exact leavesBefore?_self (token leaf)
    | cons first l => simp at h
  | element id kind children ih =>
    rw [nodes_element] at h
    cases l with
    | nil =>
      obtain ⟨rfl, -⟩ := List.cons.inj h
      exact leavesBefore?_self (element id kind children)
    | cons first l =>
      obtain ⟨rfl, hbelow⟩ := List.cons.inj h
      change children.flatMap nodes = l ++ node :: r at hbelow
      have hmem : node ∈ children.flatMap nodes :=
        hbelow ▸ List.mem_append_right _ List.mem_cons_self
      obtain ⟨c, hc, hnode⟩ := List.mem_flatMap.mp hmem
      obtain ⟨before, after, rfl⟩ := List.append_of_mem hc
      obtain ⟨l', r', hl'⟩ := List.append_of_mem hnode
      have hwhole : (before ++ c :: after).flatMap nodes =
          (before.flatMap nodes ++ l') ++ node :: (r' ++ after.flatMap nodes) := by
        rw [List.flatMap_append, List.flatMap_cons, hl']
        simp
      -- what is before the node stands in the children before its own, and in its own
      have hall := nodup
      rw [nodes_element, List.nodup_cons, hwhole] at hall
      rw [hwhole] at hbelow
      obtain ⟨rfl, -⟩ := split_unique hall.2 hbelow
      have hfirst : countTokens (before.flatMap nodes) = (before.flatMap leaves).length :=
        countTokens_flatMap fun s _ => countTokens_nodes s
      have hshort : countTokens l' ≤ c.leaves.length := by
        rw [← countTokens_nodes c, hl', countTokens_append]
        exact Nat.le_add_right _ _
      have hcount : countTokens (.element id :: (before.flatMap nodes ++ l')) =
          (before.flatMap leaves).length + countTokens l' := by
        rw [← hfirst, ← countTokens_append]
        rfl
      rw [leavesBefore?_child nodup hnode, ih c hc (nodup_child nodup hc) hl', Option.map_some,
        leaves_element, List.flatMap_append, List.flatMap_cons, hcount,
        List.take_length_add_append, List.take_append_of_le_length hshort]

/-- The tokens among the nodes are the leaves, in the same order. -/
theorem filterMap_token?_nodes (s : Subtree) :
    s.nodes.filterMap NodeId.token? = s.leaves.map Leaf.id := by
  induction s with
  | token leaf =>
    rw [nodes_token, leaves_token]
    rfl
  | element id kind children ih =>
    have htop : NodeId.token? (.element id) = none := rfl
    rw [nodes_element, leaves_element, List.filterMap_cons_none htop, List.filterMap_flatMap,
      List.map_flatMap]
    exact List.flatMap_congr ih

/-- The tokens before a node are those among the nodes before it. -/
theorem map_id_leavesBefore? (nodup : s.nodes.Nodup) (h : s.nodes = l ++ node :: r) :
    ∃ before rest, s.leavesBefore? node = some before ∧ s.leaves = before ++ rest ∧
      before.map Leaf.id = l.filterMap NodeId.token? := by
  have hbefore := leavesBefore?_of_split nodup h
  refine ⟨_, _, hbefore, (List.take_append_drop _ _).symm, ?_⟩
  have hall := s.filterMap_token?_nodes
  rw [h, List.filterMap_append] at hall
  rw [List.map_take, ← hall, countTokens, List.take_left]

/-- The tokens before a node that stands in a placed subtree are those before the subtree and those
before the node in it. -/
theorem leavesBefore?_below {s : Subtree} (nodup : s.nodes.Nodup) {target : NodeId} :
    ∀ {p : Option ElementId} {x : Option ElementId × Subtree} {before : List Leaf},
      x ∈ s.placed p → s.leavesBefore? x.2.id = some before → target ∈ x.2.nodes →
      s.leavesBefore? target = (x.2.leavesBefore? target).map (before ++ ·) := by
  induction s with
  | token leaf =>
    intro p x before hx hbefore htarget
    rw [placed_token, List.mem_singleton] at hx
    subst hx
    obtain rfl := Option.some.inj ((leavesBefore?_self _).symm.trans hbefore)
    simp
  | element id kind children ih =>
    intro p x before hx hbefore htarget
    rw [placed_element, List.mem_cons] at hx
    rcases hx with rfl | hx
    · obtain rfl := Option.some.inj ((leavesBefore?_self _).symm.trans hbefore)
      simp
    · obtain ⟨c, hc, hplace⟩ := List.mem_flatMap.mp hx
      obtain ⟨front, after, rfl⟩ := List.append_of_mem hc
      have hin : ∀ node ∈ x.2.nodes, node ∈ c.nodes := (nodes_sublist hplace).subset
      -- the top of the placed subtree and the node below it stand in one and the same child
      rw [leavesBefore?_child nodup (hin _ x.2.id_mem_nodes), Option.map_eq_some_iff] at hbefore
      obtain ⟨inner, hinner, rfl⟩ := hbefore
      rw [leavesBefore?_child nodup (hin target htarget),
        ih c hc (nodup_child nodup hc) hplace hinner htarget, Option.map_map]
      congr 1
      funext more
      exact (List.append_assoc _ _ _).symm

/-- The nodes below the top. -/
def nodesBelow : Subtree → List NodeId
  | token _ => []
  | element _ _ children => children.flatMap nodes

theorem nodes_eq (s : Subtree) : s.nodes = s.id :: s.nodesBelow := by
  cases s with
  | token leaf => exact nodes_token leaf
  | element id kind children => exact nodes_element id kind children

theorem exists_placed_leaf {s : Subtree} {leaf : Leaf} (h : leaf ∈ s.leaves) :
    ∀ p, ∃ q, (q, token leaf) ∈ s.placed p := by
  induction s with
  | token other =>
    intro p
    rw [leaves_token, List.mem_singleton] at h
    exact ⟨p, h ▸ self_mem_placed p (token leaf)⟩
  | element id kind children ih =>
    intro p
    rw [leaves_element] at h
    obtain ⟨c, hc, h⟩ := List.mem_flatMap.mp h
    obtain ⟨q, hq⟩ := ih c hc h (some id)
    refine ⟨q, ?_⟩
    rw [placed_element]
    exact List.mem_cons_of_mem _ (List.mem_flatMap.mpr ⟨c, hc, hq⟩)

/-! ## The order of paths -/

/-- A path to a node below an element goes through the child that the node is in. -/
theorem exists_child_of_at? {id : ElementId} {kind : ElementKind} {children : List Subtree}
    (nodup : (element id kind children).nodes.Nodup) {i : Nat} {c : Subtree}
    (hc : children[i]? = some c) (hnode : node ∈ c.nodes) {path : List Nat}
    (hpath : ((element id kind children).at? path).map Subtree.id = some node) :
    ∃ rest, path = i :: rest ∧ (c.at? rest).map Subtree.id = some node := by
  obtain ⟨below, v, hv, rfl⟩ := exists_at? hnode
  obtain ⟨u, hu, hid⟩ := Option.map_eq_some_iff.mp hpath
  have hthere : (element id kind children).at? (i :: below) = some v := by
    rw [at?, hc, Option.bind_some, hv]
  obtain rfl := at?_inj nodup hu hthere hid
  exact ⟨below, rfl, by rw [hv, Option.map_some]⟩

/-- Nodes are listed in the order of the paths to them. -/
theorem pairwise_path (nodup : s.nodes.Nodup) : s.nodes.Pairwise fun a b => ∀ p q : List Nat,
    (s.at? p).map Subtree.id = some a → (s.at? q).map Subtree.id = some b → p < q := by
  induction s with
  | token leaf =>
    rw [nodes_token]
    exact List.pairwise_singleton _ _
  | element id kind children ih =>
    rw [nodes_element, List.pairwise_cons, List.pairwise_flatMap]
    have hplace : ∀ {i : Nat} {c : Subtree}, children[i]? = some c → ∀ {node}, node ∈ c.nodes →
        ∀ {path}, ((element id kind children).at? path).map Subtree.id = some node →
          ∃ rest, path = i :: rest ∧ (c.at? rest).map Subtree.id = some node :=
      fun hc _ hnode _ hpath => exists_child_of_at? nodup hc hnode hpath
    refine ⟨?_, ?_, ?_⟩
    · intro node hnode p q hp hq
      obtain ⟨c, hc, hnode⟩ := List.mem_flatMap.mp hnode
      obtain ⟨i, hi⟩ := List.mem_iff_getElem?.mp hc
      obtain ⟨rest, rfl, -⟩ := hplace hi hnode hq
      obtain ⟨u, hu, hid⟩ := Option.map_eq_some_iff.mp hp
      have htop : (element id kind children).at? [] = some (element id kind children) := rfl
      obtain rfl := at?_inj nodup hu htop hid
      exact List.nil_lt_cons i rest
    · intro c hc
      obtain ⟨i, hi⟩ := List.mem_iff_getElem?.mp hc
      refine (ih c hc (nodup_child nodup hc)).imp_of_mem ?_
      intro a b ha hb hlt p q hp hq
      obtain ⟨p, rfl, hp'⟩ := hplace hi ha hp
      obtain ⟨q, rfl, hq'⟩ := hplace hi hb hq
      exact List.cons_lt_cons_iff.mpr (.inr ⟨rfl, hlt p q hp' hq'⟩)
    · rw [List.pairwise_iff_getElem]
      intro i j hi hj hlt a ha b hb p q hp hq
      obtain ⟨p, rfl, -⟩ := hplace (List.getElem?_eq_getElem hi) ha hp
      obtain ⟨q, rfl, -⟩ := hplace (List.getElem?_eq_getElem hj) hb hq
      exact List.cons_lt_cons_iff.mpr (.inl hlt)

end Subtree

/-! ## What is below a node -/

namespace Forest

variable {f : Forest} {p : Option ElementId} {s : Subtree} {node : NodeId}

/-- Paths of child indexes lead from the top to the nodes of the subtree. -/
theorem Carries.follow?_iff (h : f.Carries p s) :
    (∃ path, f.follow? s.id path = some node) ↔ node ∈ s.nodes := by
  constructor
  · rintro ⟨path, hpath⟩
    rw [h.follow?, Option.map_eq_some_iff] at hpath
    obtain ⟨u, hu, rfl⟩ := hpath
    exact Subtree.at?_mem_nodes hu
  · intro hnode
    obtain ⟨path, u, hu, rfl⟩ := Subtree.exists_at? hnode
    exact ⟨path, by rw [h.follow?, hu, Option.map_some]⟩

/-- The links from an element lead to its children. -/
theorem Carries.lists_iff {id : ElementId} {kind : ElementKind} {children : List Subtree}
    (h : f.Carries p (.element id kind children)) :
    f.Lists (.element id) node ↔ ∃ c ∈ children, c.id = node := by
  have hrow : f.row? (.element id) = some (.element ⟨kind, children.map Subtree.id, p⟩) := h.top
  have hchildren : f.children id = children.map Subtree.id := children_of_row? hrow
  rw [← List.mem_map, ← hchildren]
  constructor
  · rintro ⟨id', hid, hnode⟩
    exact NodeId.element.inj hid ▸ hnode
  · exact fun hnode => ⟨id, rfl, hnode⟩

/-- Links lead on from the nodes of a subtree to its nodes. -/
theorem Carries.mem_nodes_of_lists (h : f.Carries p s) {parent : NodeId} (hparent : parent ∈ s.nodes)
    (hlists : f.Lists parent node) : node ∈ s.nodes := by
  obtain ⟨⟨q, u⟩, hplace, rfl⟩ := (Subtree.mem_nodes_iff p).mp hparent
  cases u with
  | token leaf =>
    obtain ⟨id, hid, -⟩ := hlists
    cases hid
  | element id kind children =>
    obtain ⟨c, hc, rfl⟩ := (h.of_placed hplace).lists_iff.mp hlists
    exact (Subtree.mem_nodes_iff p).mpr ⟨_, Subtree.child_placed hplace hc, rfl⟩

/-- Links lead from the top to the nodes of the subtree. -/
theorem Carries.reaches_iff (h : f.Carries p s) :
    Relation.ReflTransGen f.Lists s.id node ↔ node ∈ s.nodes := by
  constructor
  · intro hreach
    induction hreach with
    | refl => exact s.id_mem_nodes
    | tail _ hlists ih => exact h.mem_nodes_of_lists ih hlists
  · intro hnode
    induction s generalizing p with
    | token leaf =>
      rw [Subtree.nodes_token, List.mem_singleton] at hnode
      exact hnode ▸ .refl
    | element id kind children ih =>
      rw [Subtree.nodes_element, List.mem_cons] at hnode
      rcases hnode with rfl | hnode
      · exact .refl
      · obtain ⟨c, hc, hnode⟩ := List.mem_flatMap.mp hnode
        exact .head (h.lists_iff.mpr ⟨c, hc, rfl⟩) (ih c hc (h.child hc) hnode)

/-- The top is above the nodes below it, and no others. -/
theorem Carries.above_iff (h : f.Carries p s) :
    Relation.TransGen f.Lists s.id node ↔ node ∈ s.nodesBelow := by
  rw [Relation.TransGen.head'_iff]
  cases s with
  | token leaf =>
    constructor
    · rintro ⟨c, ⟨id, htop, -⟩, -⟩
      cases htop
    · intro hnode
      cases hnode
  | element id kind children =>
    rw [Subtree.nodesBelow, List.mem_flatMap]
    constructor
    · rintro ⟨next, hnext, hreach⟩
      obtain ⟨c, hc, rfl⟩ := h.lists_iff.mp hnext
      exact ⟨c, hc, (h.child hc).reaches_iff.mp hreach⟩
    · rintro ⟨c, hc, hnode⟩
      exact ⟨c.id, h.lists_iff.mpr ⟨c, hc, rfl⟩, (h.child hc).reaches_iff.mpr hnode⟩

end Forest

/-! ## The text before a node -/

namespace Tree

/-- The nodes of the tree in tree order: each before those below it, and siblings from left to
right. -/
def order (t : Tree) : List NodeId :=
  match t.whole? with
  | some s => s.nodes
  | none => []

/-- Whether the one node comes first in tree order: where the paths to them part, its own takes the
child with the smaller index, or stops. -/
def Precedes (t : Tree) (a b : NodeId) : Prop :=
  ∀ path path' : List Nat, t.follow? (.element t.root) path = some a →
    t.follow? (.element t.root) path' = some b → path < path'

/-- The tokens that precede a node in tree order. -/
def tokensBefore (t : Tree) (node : NodeId) : List Token :=
  ((t.order.takeWhile (· ≠ node)).filterMap NodeId.token?).filterMap t.token?

/-- The text of the tokens that precede a node in tree order. -/
def textBefore (t : Tree) (node : NodeId) : String :=
  String.join ((t.tokensBefore node).map (·.text))

section Split
variable {t : Tree} {a b : NodeId} {l r : List NodeId} (nodup : t.order.Nodup)
include nodup

theorem tokensBefore_of_split (hsplit : t.order = l ++ a :: r) :
    t.tokensBefore a = (l.filterMap NodeId.token?).filterMap t.token? := by
  rw [hsplit, List.nodup_middle, List.nodup_cons, List.mem_append, not_or] at nodup
  have htake : t.order.takeWhile (· ≠ a) = l := by
    rw [hsplit, List.takeWhile_append_of_pos]
    · simp
    · intro other hother
      simpa using fun heq : other = a => nodup.1.1 (heq ▸ hother)
  rw [tokensBefore, htake]

/-- The text before a node continues that before an earlier one. -/
theorem textBefore_later (hsplit : t.order = l ++ a :: r) (hb : b ∈ r) :
    ∃ between, t.textBefore b = t.textBefore a ++ between := by
  obtain ⟨m, r, rfl⟩ := List.append_of_mem hb
  have hlater : t.order = (l ++ a :: m) ++ b :: r := by rw [hsplit, List.append_assoc, List.cons_append]
  rw [textBefore, textBefore, tokensBefore_of_split nodup hsplit, tokensBefore_of_split nodup hlater,
    List.filterMap_append, List.filterMap_append, List.map_append, String.join_append]
  exact ⟨_, rfl⟩

/-- What comes later in tree order starts no earlier in the text. -/
theorem pairwise_index : t.order.Pairwise fun a b =>
    (Position.ofString (t.textBefore a)).index ≤ (Position.ofString (t.textBefore b)).index := by
  rw [List.pairwise_iff_forall_sublist]
  intro a b hsub
  obtain ⟨first, second, hsplit, ha, hb⟩ := List.cons_sublist_iff.mp hsub
  obtain ⟨l, m, rfl⟩ := List.append_of_mem ha
  rw [List.append_assoc, List.cons_append] at hsplit
  obtain ⟨between, hbetween⟩ := textBefore_later nodup hsplit
    (List.mem_append_right m (List.singleton_sublist.mp hb))
  rw [hbetween, Position.ofString_append, Position.add_index]
  exact Nat.le_add_right _ _

end Split

namespace Shows

variable {t : Tree} {s : Subtree} {node : NodeId}

theorem order_eq (h : t.Shows s) : t.order = s.nodes := by
  rw [order, h.whole?]

theorem nodup_order (h : t.Shows s) : t.order.Nodup := by
  rw [h.order_eq]
  exact h.nodup

/-- The nodes of the tree are listed in the order of the paths to them. -/
theorem pairwise_order (h : t.Shows s) : t.order.Pairwise t.Precedes := by
  obtain ⟨p, hcarries⟩ := h.exists_carries
  rw [h.order_eq]
  refine (Subtree.pairwise_path h.nodup).imp fun {a b} hlt path path' ha hb => ?_
  rw [← h.root] at ha hb
  exact hlt path path' (hcarries.follow?.symm.trans ha) (hcarries.follow?.symm.trans hb)

/-- These are the nodes that the root leads to. -/
theorem mem_order_iff (h : t.Shows s) :
    node ∈ t.order ↔ ∃ path, t.follow? (.element t.root) path = some node := by
  obtain ⟨p, hcarries⟩ := h.exists_carries
  rw [h.order_eq, ← h.root]
  exact hcarries.follow?_iff.symm

/-- The texts of tokens of the value are what is held of them. -/
theorem filterMap_token? (h : t.Shows s) {leaves : List Leaf} (hleaves : ∀ leaf ∈ leaves, leaf ∈ s.leaves) :
    ((leaves.map Leaf.id).filterMap t.token?).map (·.text) = leaves.map (·.text) := by
  obtain ⟨p, hcarries⟩ := h.exists_carries
  induction leaves with
  | nil => rfl
  | cons leaf rest ih =>
    obtain ⟨q, hq⟩ := Subtree.exists_placed_leaf (hleaves leaf List.mem_cons_self) p
    have htoken : t.token? leaf.id = some ⟨leaf.kind, leaf.text, q⟩ :=
      Forest.token?_of_row? (hcarries _ hq)
    rw [List.map_cons, List.filterMap_cons_some htoken, List.map_cons, List.map_cons,
      ih fun other hother => hleaves other (List.mem_cons_of_mem _ hother)]

/-- The text before a node in tree order is the text of the tokens before it. -/
theorem textBefore_eq (h : t.Shows s) {before : List Leaf} (hbefore : s.leavesBefore? node = some before) :
    t.textBefore node = Subtree.textOfLeaves before := by
  obtain ⟨l, r, hsplit⟩ := List.append_of_mem (Subtree.mem_nodes_of_leavesBefore? hbefore)
  obtain ⟨before', rest, hbefore', hleaves, hids⟩ := Subtree.map_id_leavesBefore? h.nodup hsplit
  obtain rfl := Option.some.inj (hbefore'.symm.trans hbefore)
  rw [← h.order_eq] at hsplit
  rw [textBefore, tokensBefore_of_split h.nodup_order hsplit, ← hids, h.filterMap_token?,
    Subtree.textOfLeaves]
  intro leaf hleaf
  rw [hleaves]
  exact List.mem_append_left _ hleaf

/-- A node of the value starts where the text before it in tree order ends, and its own text comes
next. -/
theorem offsetOf?_of_mem (h : t.Shows s) (hnode : node ∈ s.nodes) :
    t.offsetOf? node = some (.ofString (t.textBefore node)) ∧
      ∃ after, t.text = t.textBefore node ++ t.nodeText node ++ after := by
  obtain ⟨x, hx, rfl⟩ := (Subtree.mem_nodes_iff none).mp hnode
  obtain ⟨before, after, hbefore, hleaves⟩ := Subtree.exists_span h.nodup hx
  rw [h.textBefore_eq hbefore, h.offsetOf?_eq, hbefore]
  refine ⟨rfl, Subtree.textOfLeaves after, ?_⟩
  rw [h.text, h.nodeText_placed hx, Subtree.text, hleaves, Subtree.textOfLeaves_append,
    Subtree.textOfLeaves_append, Subtree.text]

/-- What is below a node has its text in that of the node. -/
theorem text_below (h : t.Shows s) {a b : NodeId} (ha : a ∈ s.nodes)
    (hbelow : Relation.TransGen t.Lists a b) : ∃ pre post,
      t.textBefore b = t.textBefore a ++ pre ∧ t.nodeText a = pre ++ t.nodeText b ++ post := by
  obtain ⟨p, hcarries⟩ := h.exists_carries
  obtain ⟨⟨q, u⟩, hu, rfl⟩ := (Subtree.mem_nodes_iff p).mp ha
  have hb : b ∈ u.nodes := by
    rw [u.nodes_eq]
    exact List.mem_cons_of_mem _ ((hcarries.of_placed hu).above_iff.mp hbelow)
  obtain ⟨⟨q', v⟩, hv, rfl⟩ := (Subtree.mem_nodes_iff q).mp hb
  obtain ⟨before, hbefore⟩ := Subtree.exists_leavesBefore? ha
  obtain ⟨pre, post, hpre, hleaves⟩ :=
    Subtree.exists_span (h.nodup.sublist (Subtree.nodes_sublist hu)) hv
  have hinner : s.leavesBefore? v.id = some (before ++ pre) := by
    rw [Subtree.leavesBefore?_below h.nodup hu hbefore hb, hpre, Option.map_some]
  refine ⟨Subtree.textOfLeaves pre, Subtree.textOfLeaves post, ?_, ?_⟩
  · rw [h.textBefore_eq hbefore, h.textBefore_eq hinner, Subtree.textOfLeaves_append]
  · have hplace : (q', v) ∈ s.placed p := Subtree.placed_trans hu hv
    rw [h.nodeText_placed hu, h.nodeText_placed hplace, Subtree.text, hleaves,
      Subtree.textOfLeaves_append, Subtree.textOfLeaves_append, Subtree.text]

end Shows

end Tree

end DeclVisibility
