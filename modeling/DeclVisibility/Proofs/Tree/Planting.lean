import DeclVisibility.Proofs.Tree.Nesting

/-!
# Planting a subtree before a node

`Subtree.plant` puts a new subtree before a node that hangs in an element. Every old node keeps its
place (`mem_placed_plant`), the nodes of the new subtree join the old ones and no others do
(`nodes_plant`), and the new tokens stand exactly where the tokens before the anchor end
(`leaves_plant`), so a second subtree planted before the same anchor follows the first.
-/

namespace DeclVisibility.Subtree

mutual
/-- The tokens before a node, if it is in the subtree. -/
def leavesBefore? (target : NodeId) : Subtree → Option (List Leaf)
  | token leaf => if NodeId.token leaf.id = target then some [] else none
  | element id _ children =>
    if NodeId.element id = target then some [] else leavesBeforeAll? target children
/-- The tokens before a node in subtrees that stand side by side. -/
def leavesBeforeAll? (target : NodeId) : List Subtree → Option (List Leaf)
  | [] => none
  | child :: rest =>
    match child.leavesBefore? target with
    | some before => some before
    | none => (leavesBeforeAll? target rest).map (child.leaves ++ ·)
end

mutual
/-- The subtree with a new one put before a node that hangs in it. -/
def plant : Subtree → NodeId → Subtree → Subtree
  | token leaf, _, _ => token leaf
  | element id kind children, anchor, new => element id kind (plantAll children anchor new)
/-- Subtrees that stand side by side, with a new one put before a node. -/
def plantAll : List Subtree → NodeId → Subtree → List Subtree
  | [], _, _ => []
  | child :: rest, anchor, new =>
    if child.id = anchor then new :: child.plant anchor new :: plantAll rest anchor new
    else child.plant anchor new :: plantAll rest anchor new
end

variable {anchor target : NodeId} {new : Subtree}

/-! ## Where a node stands -/

theorem leavesBefore?_eq_none {s : Subtree} :
    s.leavesBefore? target = none ↔ target ∉ s.nodes := by
  induction s with
  | token leaf =>
    by_cases h : NodeId.token leaf.id = target
    · simp [leavesBefore?, h]
    · simp [leavesBefore?, h, Ne.symm h]
  | element id kind children ih =>
    -- the children are walked over by an induction of their own
    have all : leavesBeforeAll? target children = none ↔ target ∉ children.flatMap nodes := by
      induction children with
      | nil => simp [leavesBeforeAll?]
      | cons c rest ihr =>
        have hc := ih c List.mem_cons_self
        have hr := ihr fun s hs => ih s (List.mem_cons_of_mem c hs)
        rw [leavesBeforeAll?, List.flatMap_cons, List.mem_append, not_or, ← hc, ← hr]
        cases c.leavesBefore? target <;> simp
    by_cases h : NodeId.element id = target
    · simp [leavesBefore?, h]
    · rw [leavesBefore?, if_neg h, all, nodes_element, List.mem_cons, not_or]
      exact ⟨fun h' => ⟨Ne.symm h, h'⟩, fun h' => h'.2⟩

theorem exists_leavesBefore? {s : Subtree} (h : target ∈ s.nodes) :
    ∃ before, s.leavesBefore? target = some before := by
  rw [← Option.isSome_iff_exists, Option.isSome_iff_ne_none, ne_eq, leavesBefore?_eq_none]
  exact not_not_intro h

theorem mem_nodes_of_leavesBefore? {s : Subtree} {before : List Leaf}
    (h : s.leavesBefore? target = some before) : target ∈ s.nodes := by
  by_contra missing
  rw [leavesBefore?_eq_none.mpr missing] at h
  cases h

@[simp] theorem leavesBefore?_self (s : Subtree) : s.leavesBefore? s.id = some [] := by
  cases s <;> simp [leavesBefore?]

/-- Among subtrees without a node in common, one that holds a node splits the list. -/
theorem exists_split {ss : List Subtree} (nodup : (ss.flatMap nodes).Nodup)
    (h : target ∈ ss.flatMap nodes) :
    ∃ l c r, ss = l ++ c :: r ∧ target ∈ c.nodes ∧ target ∉ l.flatMap nodes ∧
      target ∉ r.flatMap nodes := by
  obtain ⟨c, hc, htarget⟩ := List.mem_flatMap.mp h
  obtain ⟨l, r, rfl⟩ := List.append_of_mem hc
  rw [List.flatMap_append, List.flatMap_cons] at nodup
  have apart := List.disjoint_of_nodup_append nodup
  have apart' := List.disjoint_of_nodup_append nodup.of_append_right
  refine ⟨l, c, r, rfl, htarget, fun hl => ?_, fun hr => apart' htarget hr⟩
  exact apart hl (List.mem_append_left _ htarget)

theorem leavesBeforeAll?_split {l r : List Subtree} {c : Subtree}
    (hl : target ∉ l.flatMap nodes) (hc : target ∈ c.nodes) :
    leavesBeforeAll? target (l ++ c :: r) =
      (c.leavesBefore? target).map (l.flatMap leaves ++ ·) := by
  induction l with
  | nil =>
    obtain ⟨before, hb⟩ := exists_leavesBefore? hc
    simp [leavesBeforeAll?, hb]
  | cons x l ih =>
    rw [List.flatMap_cons, List.mem_append, not_or] at hl
    rw [List.cons_append, leavesBeforeAll?, leavesBefore?_eq_none.mpr hl.1, ih hl.2]
    cases c.leavesBefore? target <;> simp

/-- The tokens of a placed subtree stand behind those before it. -/
theorem exists_span {s : Subtree} (nodup : s.nodes.Nodup) : ∀ {p : Option ElementId}
    {x : Option ElementId × Subtree}, x ∈ s.placed p → ∃ before after,
      s.leavesBefore? x.2.id = some before ∧ s.leaves = before ++ x.2.leaves ++ after := by
  induction s with
  | token leaf =>
    intro p x hx
    rw [placed_token, List.mem_singleton] at hx
    rw [hx]
    exact ⟨[], [], leavesBefore?_self _, (List.append_nil _).symm⟩
  | element id kind children ih =>
    intro p x hx
    rw [placed_element, List.mem_cons] at hx
    rcases hx with rfl | hx
    · exact ⟨[], [], leavesBefore?_self _, (List.append_nil _).symm⟩
    · rw [nodes_element, List.nodup_cons] at nodup
      obtain ⟨c, hc, hx⟩ := List.mem_flatMap.mp hx
      obtain ⟨before, after, hbefore, hleaves⟩ :=
        ih c hc ((List.nodup_flatMap.mp nodup.2).1 c hc) hx
      have hin : x.2.id ∈ c.nodes := (mem_nodes_iff (some id)).mpr ⟨x, hx, rfl⟩
      have hmem : x.2.id ∈ children.flatMap nodes := List.mem_flatMap.mpr ⟨c, hc, hin⟩
      have hne : NodeId.element id ≠ x.2.id := fun heq => nodup.1 (heq ▸ hmem)
      -- the child that holds the node is the only one that does
      obtain ⟨l, d, r, rfl, hd, hl, -⟩ := exists_split nodup.2 hmem
      obtain rfl := eq_of_common nodup.2 hc (List.mem_append_right _ List.mem_cons_self) hin hd
      refine ⟨l.flatMap leaves ++ before, after ++ r.flatMap leaves, ?_, ?_⟩
      · rw [leavesBefore?, if_neg hne, leavesBeforeAll?_split hl hin, hbefore, Option.map_some]
      · simp [hleaves]

/-! ## What planting keeps -/

theorem plantAll_eq (anchor : NodeId) (new : Subtree) : ∀ ss : List Subtree,
    plantAll ss anchor new =
      ss.flatMap fun c => (if c.id = anchor then [new] else []) ++ [c.plant anchor new]
  | [] => by rw [plantAll, List.flatMap_nil]
  | c :: rest => by
    rw [plantAll, plantAll_eq anchor new rest, List.flatMap_cons]
    split <;> simp

@[simp] theorem plant_token (leaf : Leaf) : (token leaf).plant anchor new = token leaf := by
  rw [plant]

@[simp] theorem plant_element (id : ElementId) (kind : ElementKind) (children : List Subtree) :
    (element id kind children).plant anchor new =
      element id kind (plantAll children anchor new) := by
  rw [plant]

@[simp] theorem id_plant (s : Subtree) : (s.plant anchor new).id = s.id := by
  cases s <;> simp

theorem mem_plantAll {ss : List Subtree} {x : Subtree} :
    x ∈ plantAll ss anchor new ↔
      (∃ c ∈ ss, x = c.plant anchor new) ∨ (x = new ∧ ∃ c ∈ ss, c.id = anchor) := by
  rw [plantAll_eq, List.mem_flatMap]
  constructor
  · rintro ⟨c, hc, hx⟩
    rw [List.mem_append, List.mem_singleton] at hx
    rcases hx with hx | rfl
    · split at hx
      · rename_i h
        exact .inr ⟨List.mem_singleton.mp hx, c, hc, h⟩
      · cases hx
    · exact .inl ⟨c, hc, rfl⟩
  · rintro (⟨c, hc, rfl⟩ | ⟨rfl, c, hc, h⟩)
    · exact ⟨c, hc, List.mem_append_right _ List.mem_cons_self⟩
    · exact ⟨c, hc, by simp [h]⟩

/-- After planting, a place is that of an old node, or one in the new subtree, which hangs in the
element that has the anchor as a child. -/
theorem mem_placed_plant {s : Subtree} : ∀ {p : Option ElementId} {x : Option ElementId × Subtree},
    x ∈ (s.plant anchor new).placed p ↔
      (∃ y ∈ s.placed p, x = (y.1, y.2.plant anchor new)) ∨
        ∃ q id kind children, (q, element id kind children) ∈ s.placed p ∧
          (∃ c ∈ children, c.id = anchor) ∧ x ∈ new.placed (some id) := by
  induction s with
  | token leaf => intro p x; simp
  | element top kind children ih =>
    intro p x
    simp only [plant_element, placed_element, List.mem_cons, List.mem_flatMap, mem_plantAll]
    constructor
    · rintro (rfl | ⟨c, ⟨c, hc, rfl⟩ | ⟨rfl, hanchor⟩, hx⟩)
      · exact .inl ⟨_, .inl rfl, by simp⟩
      · rcases (ih c hc).mp hx with ⟨y, hy, rfl⟩ | ⟨q, id, k, cs, hq, hcs, hx⟩
        · exact .inl ⟨y, .inr ⟨c, hc, hy⟩, rfl⟩
        · exact .inr ⟨q, id, k, cs, .inr ⟨c, hc, hq⟩, hcs, hx⟩
      · exact .inr ⟨p, top, kind, children, .inl rfl, hanchor, hx⟩
    · rintro (⟨y, rfl | ⟨c, hc, hy⟩, rfl⟩ | ⟨q, id, k, cs, heq | ⟨c, hc, hq⟩, hcs, hx⟩)
      · exact .inl (by simp)
      · exact .inr ⟨_, .inl ⟨c, hc, rfl⟩, (ih c hc).mpr (.inl ⟨y, hy, rfl⟩)⟩
      · simp only [Prod.mk.injEq, element.injEq] at heq
        obtain ⟨-, rfl, rfl, rfl⟩ := heq
        exact .inr ⟨new, .inr ⟨rfl, hcs⟩, hx⟩
      · exact .inr ⟨_, .inl ⟨c, hc, rfl⟩, (ih c hc).mpr (.inr ⟨q, id, k, cs, hq, hcs, hx⟩)⟩

/-- The old nodes are there still. -/
theorem mem_nodes_plant {s : Subtree} {node : NodeId} (h : node ∈ s.nodes) :
    node ∈ (s.plant anchor new).nodes := by
  obtain ⟨x, hx, rfl⟩ := (mem_nodes_iff none).mp h
  exact (mem_nodes_iff none).mpr ⟨_, mem_placed_plant.mpr (.inl ⟨x, hx, rfl⟩), id_plant _⟩

/-! ## What planting adds -/

theorem plantAll_eq_self {ss : List Subtree}
    (h : ∀ c ∈ ss, c.id ≠ anchor ∧ c.plant anchor new = c) : plantAll ss anchor new = ss := by
  induction ss with
  | nil => rw [plantAll]
  | cons c rest ih =>
    obtain ⟨hne, hself⟩ := h c List.mem_cons_self
    rw [plantAll, if_neg hne, hself, ih fun x hx => h x (List.mem_cons_of_mem c hx)]

theorem plant_of_notMem {s : Subtree} (h : anchor ∉ s.nodes) : s.plant anchor new = s := by
  induction s with
  | token leaf => simp
  | element id kind children ih =>
    rw [plant_element, plantAll_eq_self]
    intro c hc
    have hnot : anchor ∉ c.nodes := by
      intro hmem
      apply h
      rw [nodes_element]
      exact List.mem_cons_of_mem _ (List.mem_flatMap.mpr ⟨c, hc, hmem⟩)
    exact ⟨fun heq => hnot (heq ▸ c.id_mem_nodes), ih c hc hnot⟩

theorem plantAll_of_notMem {ss : List Subtree} (h : anchor ∉ ss.flatMap nodes) :
    plantAll ss anchor new = ss := by
  apply plantAll_eq_self
  intro c hc
  have hnot : anchor ∉ c.nodes := fun hmem => h (List.mem_flatMap.mpr ⟨c, hc, hmem⟩)
  exact ⟨fun heq => hnot (heq ▸ c.id_mem_nodes), plant_of_notMem hnot⟩

theorem map_id_plantAll (new : Subtree) {ss : List Subtree} (h : anchor ∉ ss.map Subtree.id) :
    (plantAll ss anchor new).map Subtree.id = ss.map Subtree.id := by
  induction ss with
  | nil => rw [plantAll]
  | cons c rest ih =>
    rw [List.map_cons, List.mem_cons, not_or] at h
    rw [plantAll, if_neg (Ne.symm h.1), List.map_cons, ih h.2, id_plant, List.map_cons]

/-- Among subtrees, only the one that holds the anchor changes. -/
theorem plantAll_split {l r : List Subtree} {c : Subtree} (hl : anchor ∉ l.flatMap nodes)
    (hr : anchor ∉ r.flatMap nodes) :
    plantAll (l ++ c :: r) anchor new =
      l ++ (if c.id = anchor then [new] else []) ++ c.plant anchor new :: r := by
  have happend : ∀ ss, plantAll (ss ++ c :: r) anchor new =
      plantAll ss anchor new ++ plantAll (c :: r) anchor new := by
    intro ss
    simp only [plantAll_eq, List.flatMap_append]
  rw [happend, plantAll_of_notMem hl, plantAll, plantAll_of_notMem hr]
  split <;> simp

/-- A subtree whose top is the anchor has no place before it. -/
theorem plant_self {s : Subtree} (nodup : s.nodes.Nodup) (h : s.id = anchor) :
    s.plant anchor new = s := by
  cases s with
  | token leaf => simp
  | element id kind children =>
    rw [nodes_element, List.nodup_cons] at nodup
    rw [id_element] at h
    rw [plant_element, plantAll_of_notMem (h ▸ nodup.1)]

/-- Induction on the way down to a node that stands once in a subtree and is not its top: at the
element that has it as a child, and at every element above that one. -/
theorem descend {motive : Subtree → Prop}
    (here : ∀ id kind l c r, NodeId.element id ≠ anchor → c.id = anchor → c.nodes.Nodup →
      anchor ∉ l.flatMap nodes → anchor ∉ r.flatMap nodes → motive (element id kind (l ++ c :: r)))
    (above : ∀ id kind l c r, NodeId.element id ≠ anchor → c.id ≠ anchor → anchor ∈ c.nodes →
      anchor ∉ l.flatMap nodes → anchor ∉ r.flatMap nodes → motive c →
      motive (element id kind (l ++ c :: r)))
    {s : Subtree} (nodup : s.nodes.Nodup) (h : anchor ∈ s.nodes) (hne : s.id ≠ anchor) :
    motive s := by
  induction s with
  | token leaf =>
    rw [nodes_token, List.mem_singleton] at h
    exact absurd h.symm hne
  | element id kind children ih =>
    rw [nodes_element, List.nodup_cons] at nodup
    rw [nodes_element, List.mem_cons] at h
    obtain ⟨l, c, r, rfl, hc, hl, hr⟩ := exists_split nodup.2 (h.resolve_left (Ne.symm hne))
    have hmem : c ∈ l ++ c :: r := List.mem_append_right _ List.mem_cons_self
    have hcn : c.nodes.Nodup := (List.nodup_flatMap.mp nodup.2).1 c hmem
    by_cases htop : c.id = anchor
    · exact here id kind l c r hne htop hcn hl hr
    · exact above id kind l c r hne htop hc hl hr (ih c hmem hcn hc htop)

/-- The new nodes join the old ones. -/
theorem nodes_plant {s : Subtree} (nodup : s.nodes.Nodup) (h : anchor ∈ s.nodes)
    (hne : s.id ≠ anchor) : (s.plant anchor new).nodes.Perm (new.nodes ++ s.nodes) := by
  refine descend (motive := fun s => (s.plant anchor new).nodes.Perm (new.nodes ++ s.nodes))
    ?_ ?_ nodup h hne
  · intro id kind l c r _ htop hcn hl hr
    rw [plant_element, plantAll_split hl hr, if_pos htop, plant_self hcn htop, List.perm_iff_count]
    intro node
    simp only [nodes_element, List.flatMap_append, List.flatMap_cons, List.flatMap_nil,
      List.count_cons, List.count_append, List.count_nil]
    omega
  · intro id kind l c r _ htop _ hl hr ih
    rw [plant_element, plantAll_split hl hr, if_neg htop, List.perm_iff_count]
    intro node
    -- the nodes around the child are the same, so only the counts in the child matter
    have hcount := ih.count_eq node
    simp only [nodes_element, List.append_nil, List.flatMap_append, List.flatMap_cons,
      List.count_cons, List.count_append] at hcount ⊢
    omega

theorem leavesBefore?_here (id : ElementId) (kind : ElementKind) {l : List Subtree} {c : Subtree}
    (r : List Subtree) (hne : NodeId.element id ≠ c.id) (hl : c.id ∉ l.flatMap nodes) :
    (element id kind (l ++ c :: r)).leavesBefore? c.id = some (l.flatMap leaves) := by
  rw [leavesBefore?, if_neg hne, leavesBeforeAll?_split hl c.id_mem_nodes, leavesBefore?_self]
  simp

theorem leavesBefore?_above (id : ElementId) (kind : ElementKind) {l : List Subtree} {c : Subtree}
    (r : List Subtree) (hne : NodeId.element id ≠ target) (hl : target ∉ l.flatMap nodes)
    (hc : target ∈ c.nodes) : (element id kind (l ++ c :: r)).leavesBefore? target =
      (c.leavesBefore? target).map (l.flatMap leaves ++ ·) := by
  rw [leavesBefore?, if_neg hne, leavesBeforeAll?_split hl hc]

/-- The new tokens come in where the tokens before the anchor end. -/
theorem leaves_plant (new : Subtree) {s : Subtree} (nodup : s.nodes.Nodup) (hne : s.id ≠ anchor)
    {before : List Leaf} (h : s.leavesBefore? anchor = some before) :
    ∃ rest, s.leaves = before ++ rest ∧
      (s.plant anchor new).leaves = before ++ new.leaves ++ rest := by
  refine descend (motive := fun s => ∀ before, s.leavesBefore? anchor = some before →
    ∃ rest, s.leaves = before ++ rest ∧ (s.plant anchor new).leaves = before ++ new.leaves ++ rest)
    ?_ ?_ nodup (mem_nodes_of_leavesBefore? h) hne before h
  · intro id kind l c r hid htop hcn hl hr before h
    subst htop
    rw [leavesBefore?_here id kind r hid hl] at h
    obtain rfl := Option.some.inj h
    refine ⟨c.leaves ++ r.flatMap leaves, ?_, ?_⟩
    · simp
    · simp [plantAll_split hl hr, plant_self hcn rfl]
  · intro id kind l c r hid htop hc hl hr ih before h
    rw [leavesBefore?_above id kind r hid hl hc, Option.map_eq_some_iff] at h
    obtain ⟨inner, hinner, rfl⟩ := h
    obtain ⟨rest, hold, hnew⟩ := ih inner hinner
    refine ⟨rest ++ r.flatMap leaves, ?_, ?_⟩
    · simp [hold]
    · simp [plantAll_split hl hr, htop, hnew]

/-- The anchor keeps the tokens that were before it, and those of the new subtree come next. -/
theorem leavesBefore?_plant {s : Subtree} (nodup : s.nodes.Nodup) (hne : s.id ≠ anchor)
    (fresh : anchor ∉ new.nodes) {before : List Leaf} (h : s.leavesBefore? anchor = some before) :
    (s.plant anchor new).leavesBefore? anchor = some (before ++ new.leaves) := by
  refine descend (motive := fun s => ∀ before, s.leavesBefore? anchor = some before →
    (s.plant anchor new).leavesBefore? anchor = some (before ++ new.leaves))
    ?_ ?_ nodup (mem_nodes_of_leavesBefore? h) hne before h
  · intro id kind l c r hid htop hcn hl hr before h
    subst htop
    rw [leavesBefore?_here id kind r hid hl] at h
    obtain rfl := Option.some.inj h
    -- the new subtree is one more that stands before the anchor
    have hln : c.id ∉ (l ++ [new]).flatMap nodes := by
      simpa [List.flatMap_append] using ⟨by simpa using hl, fresh⟩
    rw [plant_element, plantAll_split hl hr, if_pos rfl, plant_self hcn rfl,
      leavesBefore?_here id kind r hid hln]
    simp
  · intro id kind l c r hid htop hc hl hr ih before h
    rw [leavesBefore?_above id kind r hid hl hc, Option.map_eq_some_iff] at h
    obtain ⟨inner, hinner, rfl⟩ := h
    have hplanted := ih inner hinner
    rw [plant_element, plantAll_split hl hr, if_neg htop, List.append_nil,
      leavesBefore?_above id kind r hid hl (mem_nodes_of_leavesBefore? hplanted), hplanted]
    simp

end DeclVisibility.Subtree
