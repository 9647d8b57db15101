import DeclVisibility.Proofs.Tree.Planting
import DeclVisibility.Proofs.Tree.Rows

/-!
# What a forest is made of

A forest carries a nested value if every row is what the value says (`Forest.Carries`). It is made
of nested values if it carries each of them at the top, no node stands in them twice, and no node
is left over (`Forest.MadeOf`). This is the invariant of all operations on forests: a new node is
one more top (`MadeOf.addToken`, `MadeOf.addElement`), an element takes tops in as its children
(`MadeOf.takeIn`), and a top goes before a node of another one (`MadeOf.insertBefore`).
-/

namespace DeclVisibility

/-- The row of a node that stands at the top of a subtree and hangs in an element. -/
def Subtree.row (parent? : Option ElementId) : Subtree → Row
  | .token leaf => .token ⟨leaf.kind, leaf.text, parent?⟩
  | .element _ kind children => .element ⟨kind, children.map Subtree.id, parent?⟩

@[simp] theorem Subtree.parent_row (p : Option ElementId) (s : Subtree) : (s.row p).parent = p := by
  cases s <;> rfl

namespace Forest

/-- The forest holds what the subtree says, with the top hanging in an element or nowhere. -/
def Carries (f : Forest) (parent? : Option ElementId) (s : Subtree) : Prop :=
  ∀ x ∈ s.placed parent?, f.row? x.2.id = some (x.2.row x.1)

/-- The forest consists of these subtrees, whose tops hang nowhere. -/
structure MadeOf (f : Forest) (tops : List Subtree) : Prop where
  carries : ∀ s ∈ tops, f.Carries none s
  nodup : (tops.flatMap Subtree.nodes).Nodup
  covers : ∀ node, f.holds node = true → node ∈ tops.flatMap Subtree.nodes

variable {f g : Forest} {p : Option ElementId} {s : Subtree}

/-! ## Carrying a subtree -/

theorem Carries.top (h : f.Carries p s) : f.row? s.id = some (s.row p) :=
  h (p, s) (Subtree.self_mem_placed p s)

theorem Carries.parent? (h : f.Carries p s) : f.parent? s.id = p := by
  rw [parent?_eq, h.top, Option.bind_some, Subtree.parent_row]

theorem Carries.of_placed (h : f.Carries p s) {x : Option ElementId × Subtree}
    (hx : x ∈ s.placed p) : f.Carries x.1 x.2 :=
  fun y hy => h y (Subtree.placed_trans hx hy)

theorem Carries.child {id : ElementId} {kind : ElementKind} {children : List Subtree}
    (h : f.Carries p (.element id kind children)) {c : Subtree} (hc : c ∈ children) :
    f.Carries (some id) c :=
  h.of_placed (x := (some id, c)) (Subtree.child_placed (Subtree.self_mem_placed _ _) hc)

theorem carries_element {id : ElementId} {kind : ElementKind} {children : List Subtree}
    (htop : f.row? (.element id) = some (.element ⟨kind, children.map Subtree.id, p⟩))
    (hbelow : ∀ c ∈ children, f.Carries (some id) c) : f.Carries p (.element id kind children) := by
  intro x hx
  rw [Subtree.placed_element, List.mem_cons] at hx
  rcases hx with rfl | hx
  · exact htop
  · obtain ⟨c, hc, hx⟩ := List.mem_flatMap.mp hx
    exact hbelow c hc x hx

/-- Only the rows of its own nodes matter for what a forest carries. -/
theorem Carries.congr (h : f.Carries p s) (same : ∀ node ∈ s.nodes, g.row? node = f.row? node) :
    g.Carries p s := by
  intro x hx
  rw [same _ ((Subtree.mem_nodes_iff p).mpr ⟨x, hx, rfl⟩)]
  exact h x hx

/-- A subtree whose top is hung in another element, and nothing else about it changed. -/
theorem Carries.hang (h : f.Carries p s) (nodup : s.nodes.Nodup) (parent : ElementId)
    (htop : g.row? s.id = (f.row? s.id).map (Row.hungIn parent))
    (same : ∀ node ∈ s.nodes, node ≠ s.id → g.row? node = f.row? node) :
    g.Carries (some parent) s := by
  have hrow := h.top
  cases s with
  | token leaf =>
    intro x hx
    rw [Subtree.placed_token, List.mem_singleton] at hx
    rw [hx, htop, hrow]
    rfl
  | element id kind children =>
    apply carries_element
    · rw [Subtree.id_element] at htop hrow
      rw [htop, hrow]
      rfl
    · intro c hc
      apply (h.child hc).congr
      intro node hnode
      rw [Subtree.nodes_element, List.nodup_cons] at nodup
      have hmem : node ∈ children.flatMap Subtree.nodes := List.mem_flatMap.mpr ⟨c, hc, hnode⟩
      apply same node
      · rw [Subtree.nodes_element]
        exact List.mem_cons_of_mem _ hmem
      · rintro rfl
        exact nodup.1 hmem

theorem Carries.row?_isSome (h : f.Carries p s) {node : NodeId} (hnode : node ∈ s.nodes) :
    (f.row? node).isSome := by
  obtain ⟨x, hx, rfl⟩ := (Subtree.mem_nodes_iff p).mp hnode
  rw [h x hx]
  rfl

/-- The nested view of a carried subtree is the subtree, given as many levels as it has elements. -/
theorem Carries.unfold (h : f.Carries p s) {fuel : Nat} (room : s.elements.length ≤ fuel) :
    f.unfold fuel s.id = some s := by
  induction s generalizing p fuel with
  | token leaf =>
    have htoken := token?_of_row? (f := f) h.top
    cases fuel <;> simp [Forest.unfold, htoken]
  | element id kind children ih =>
    rw [Subtree.elements_element, List.length_cons] at room
    -- the top takes one level, and the others are enough for each child
    obtain ⟨n, rfl⟩ : ∃ n, fuel = n + 1 := ⟨fuel - 1, by omega⟩
    have helement := element?_of_row? (f := f) h.top
    have hchildren : (children.map Subtree.id).filterMap (f.unfold n) = children := by
      rw [List.filterMap_map]
      have each : ∀ c ∈ children, (f.unfold n ∘ Subtree.id) c = some c := by
        intro c hc
        apply ih c hc (h.child hc)
        have hlength := (List.sublist_flatten_of_mem
          (List.mem_map_of_mem (f := Subtree.elements) hc)).length_le
        rw [← List.flatMap_def] at hlength
        omega
      rw [List.filterMap_congr each, List.filterMap_some]
    rw [Subtree.id_element, Forest.unfold, helement, Option.map_some, hchildren]

/-! ## Being made of subtrees -/

variable {tops rest : List Subtree}

theorem empty_madeOf : empty.MadeOf [] where
  carries _ hs := nomatch hs
  nodup := List.nodup_nil
  covers node h := by cases node <;> cases h

theorem MadeOf.perm (h : f.MadeOf tops) {tops' : List Subtree} (hperm : tops.Perm tops') :
    f.MadeOf tops' where
  carries s hs := h.carries s (hperm.mem_iff.mpr hs)
  nodup := (hperm.flatMap_right _).nodup_iff.mp h.nodup
  covers node hnode := (hperm.flatMap_right _).mem_iff.mp (h.covers node hnode)

theorem MadeOf.nodup_of_mem (h : f.MadeOf tops) {s : Subtree} (hs : s ∈ tops) : s.nodes.Nodup :=
  (List.nodup_flatMap.mp h.nodup).1 s hs

/-- A node is held exactly if it stands in one of the subtrees. -/
theorem MadeOf.holds_iff (h : f.MadeOf tops) {node : NodeId} :
    f.holds node = true ↔ node ∈ tops.flatMap Subtree.nodes := by
  refine ⟨h.covers node, fun hmem => ?_⟩
  obtain ⟨s, hs, hnode⟩ := List.mem_flatMap.mp hmem
  rw [holds_eq]
  exact (h.carries s hs).row?_isSome hnode

theorem MadeOf.notMem_of_row? (h : f.MadeOf tops) {node : NodeId} (hrow : f.row? node = none) :
    node ∉ tops.flatMap Subtree.nodes := by
  rw [← h.holds_iff, holds_eq, hrow]
  exact Bool.false_ne_true

/-- The elements of the subtrees are numbered as the forest numbers its own. -/
theorem MadeOf.numbers (h : f.MadeOf tops) :
    ((tops.flatMap Subtree.elements).map ElementId.num).Perm (List.range f.elements.size) := by
  have helements : tops.flatMap Subtree.elements =
      (tops.flatMap Subtree.nodes).filterMap NodeId.element? := by
    rw [List.filterMap_flatMap]
    rfl
  have hnodup : ((tops.flatMap Subtree.elements).map ElementId.num).Nodup := by
    rw [helements]
    apply List.Nodup.map fun _ _ heq => ElementId.num_inj.mp heq
    apply h.nodup.filterMap
    intro a b id ha hb
    cases a <;> cases b <;> simp_all [NodeId.element?]
  have hheld : ∀ id, NodeId.element id ∈ tops.flatMap Subtree.nodes ↔ id.num < f.elements.size := by
    intro id
    rw [← h.holds_iff]
    simp [holds, Table.has]
  -- both lists name every number once, so it is enough that they name the same ones
  rw [List.perm_ext_iff_of_nodup hnodup List.nodup_range]
  intro n
  rw [List.mem_range, List.mem_map, helements]
  constructor
  · rintro ⟨id, hid, rfl⟩
    exact (hheld id).mp (NodeId.mem_filterMap_element?.mp hid)
  · intro hn
    exact ⟨⟨n⟩, NodeId.mem_filterMap_element?.mpr ((hheld ⟨n⟩).mpr hn), rfl⟩

/-- A subtree has no more elements than the forest. -/
theorem MadeOf.elements_length (h : f.MadeOf tops) {s : Subtree} (hs : s ∈ tops) :
    s.elements.length ≤ f.elements.size := by
  have hall := h.numbers.length_eq
  rw [List.length_map, List.length_range, List.flatMap_def] at hall
  rw [← hall]
  exact (List.sublist_flatten_of_mem (List.mem_map_of_mem hs)).length_le

/-- The nested view of every placed node is what is placed there. -/
theorem MadeOf.subtree? (h : f.MadeOf tops) {s : Subtree} (hs : s ∈ tops)
    {x : Option ElementId × Subtree} (hx : x ∈ s.placed none) : f.subtree? x.2.id = some x.2 := by
  apply ((h.carries s hs).of_placed hx).unfold
  have hle := (Subtree.nodes_sublist hx).filterMap NodeId.element? |>.length_le
  have hbound := h.elements_length hs
  simp only [Subtree.elements] at hle hbound ⊢
  omega

/-! ## Adding nodes -/

/-- A node of its own that joins a forest is one more top. -/
theorem MadeOf.addNode (h : f.MadeOf tops) (single : s.placed none = [(none, s)])
    (fresh : f.row? s.id = none)
    (rows : ∀ node, g.row? node = if node = s.id then some (s.row none) else f.row? node) :
    g.MadeOf (s :: tops) := by
  have hnodes : s.nodes = [s.id] := by
    rw [← Subtree.map_placed s none, single]
    rfl
  have hfresh := h.notMem_of_row? fresh
  refine ⟨?_, ?_, ?_⟩
  · intro t ht
    rcases List.mem_cons.mp ht with rfl | ht
    · intro x hx
      rw [single, List.mem_singleton] at hx
      rw [hx, rows, if_pos rfl]
    · apply (h.carries t ht).congr
      intro node hnode
      rw [rows, if_neg]
      rintro rfl
      exact hfresh (List.mem_flatMap.mpr ⟨t, ht, hnode⟩)
  · rw [List.flatMap_cons, hnodes, List.singleton_append, List.nodup_cons]
    exact ⟨hfresh, h.nodup⟩
  · intro node hnode
    rw [holds_eq, rows] at hnode
    rw [List.flatMap_cons, hnodes, List.singleton_append, List.mem_cons]
    split at hnode
    · rename_i hnew
      exact .inl hnew
    · exact .inr (h.covers node (by rw [holds_eq]; exact hnode))

theorem MadeOf.addToken (h : f.MadeOf tops) (kind : TokenKind) (text : String) :
    (f.addToken kind text).2.MadeOf (.token ⟨(f.addToken kind text).1, kind, text⟩ :: tops) :=
  h.addNode (by simp) (row?_addToken_self kind text) (row?_addToken kind text)

theorem MadeOf.addBareElement (h : f.MadeOf tops) (kind : ElementKind) :
    (f.addBareElement kind).2.MadeOf (.element (f.addBareElement kind).1 kind [] :: tops) :=
  h.addNode (by simp) (row?_addBareElement_self kind) (row?_addBareElement kind)

/-! ## Taking in children -/

theorem row?_foldl_setParent (id : ElementId) (node : NodeId) : ∀ (nodes : List NodeId) (f : Forest),
    (nodes.foldl (fun g child => g.setParent child id) f).row? node =
      if node ∈ nodes then (f.row? node).map (Row.hungIn id) else f.row? node
  | [], f => by simp
  | child :: rest, f => by
    rw [List.foldl_cons, row?_foldl_setParent id node rest, row?_setParent]
    by_cases hc : child = node
    · subst hc
      rw [if_pos rfl, if_pos List.mem_cons_self, Option.map_map]
      have htwice : Row.hungIn id ∘ Row.hungIn id = Row.hungIn id := by
        funext row
        cases row <;> rfl
      rw [htwice, ite_self]
    · rw [if_neg hc]
      simp [Ne.symm hc]

theorem holds_foldl_setParent (id : ElementId) (node : NodeId) :
    ∀ (nodes : List NodeId) (f : Forest),
      (nodes.foldl (fun g child => g.setParent child id) f).holds node = f.holds node
  | [], _ => rfl
  | child :: rest, f => by
    rw [List.foldl_cons, holds_foldl_setParent id node rest, holds_setParent]

/-- Nodes that hang nowhere are adopted one after the other. -/
theorem adopt_eq_foldl (id : ElementId) : ∀ (nodes : List NodeId) (f : Forest), nodes.Nodup →
    (∀ node ∈ nodes, f.parent? node = none) →
    adopt id nodes f = .ok (nodes.foldl (fun g child => g.setParent child id) f)
  | [], _, _, _ => rfl
  | node :: rest, f, nodup, free => by
    rw [adopt, free node List.mem_cons_self, List.foldl_cons]
    rw [List.nodup_cons] at nodup
    -- the nodes that follow hang nowhere still
    apply adopt_eq_foldl id rest _ nodup.2
    intro other hother
    have hne : node ≠ other := fun heq => nodup.1 (heq ▸ hother)
    rw [parent?_eq, row?_setParent, if_neg hne, ← parent?_eq]
    exact free other (List.mem_cons_of_mem _ hother)

/-- An element without children takes in tops, which are its children from then on. -/
theorem MadeOf.takeIn {id : ElementId} {kind : ElementKind} {kids : List Subtree}
    (h : f.MadeOf (.element id kind [] :: (kids ++ rest))) :
    (((kids.map Subtree.id).foldl (fun g child => g.setParent child id) f).setChildren id
      (kids.map Subtree.id)).MadeOf (.element id kind kids :: rest) := by
  have hnodup := h.nodup
  rw [List.flatMap_cons, List.flatMap_append, Subtree.nodes_element, List.flatMap_nil,
    List.singleton_append, List.nodup_cons] at hnodup
  obtain ⟨hid, hnodup⟩ := hnodup
  rw [List.mem_append, not_or] at hid
  have hids : ∀ node ∈ kids.map Subtree.id, node ∈ kids.flatMap Subtree.nodes :=
    fun node hnode => (Subtree.map_id_sublist kids).subset hnode
  have hrows : ∀ node, node ≠ .element id → node ∉ kids.map Subtree.id →
      (((kids.map Subtree.id).foldl (fun g child => g.setParent child id) f).setChildren id
        (kids.map Subtree.id)).row? node = f.row? node := by
    intro node hne hnot
    rw [row?_setChildren, if_neg (Ne.symm hne), row?_foldl_setParent, if_neg hnot]
  refine ⟨?_, ?_, ?_⟩
  · intro s hs
    rcases List.mem_cons.mp hs with rfl | hs
    · apply carries_element
      · have hrow := (h.carries _ List.mem_cons_self).top
        rw [Subtree.id_element] at hrow
        rw [row?_setChildren, if_pos rfl, row?_foldl_setParent,
          if_neg (fun hmem => hid.1 (hids _ hmem)), hrow]
        rfl
      · intro c hc
        have hcmem : c ∈ Subtree.element id kind [] :: (kids ++ rest) :=
          List.mem_cons_of_mem _ (List.mem_append_left _ hc)
        have hcn := h.nodup_of_mem hcmem
        have hne : ∀ node ∈ c.nodes, node ≠ .element id := by
          rintro node hnode rfl
          exact hid.1 (List.mem_flatMap.mpr ⟨c, hc, hnode⟩)
        apply (h.carries c hcmem).hang hcn
        · rw [row?_setChildren, if_neg (Ne.symm (hne _ c.id_mem_nodes)), row?_foldl_setParent,
            if_pos (List.mem_map_of_mem hc)]
        · intro node hnode htop
          apply hrows node (hne node hnode)
          intro hmem
          -- no node below one kid is the top of another
          obtain ⟨d, hd, rfl⟩ := List.mem_map.mp hmem
          exact htop (Subtree.eq_of_common hnodup.of_append_left hc hd hnode d.id_mem_nodes ▸ rfl)
    · apply (h.carries s (List.mem_cons_of_mem _ (List.mem_append_right _ hs))).congr
      intro node hnode
      have hmem : node ∈ rest.flatMap Subtree.nodes := List.mem_flatMap.mpr ⟨s, hs, hnode⟩
      apply hrows
      · rintro rfl
        exact hid.2 hmem
      · intro hkid
        exact List.disjoint_of_nodup_append hnodup (hids node hkid) hmem
  · rw [List.flatMap_cons, Subtree.nodes_element, List.cons_append, List.nodup_cons, List.mem_append]
    exact ⟨fun hmem => hmem.elim hid.1 hid.2, hnodup⟩
  · intro node hnode
    rw [holds_setChildren, holds_foldl_setParent] at hnode
    have hmem := h.covers node hnode
    rw [List.flatMap_cons, List.flatMap_append] at hmem
    rw [List.flatMap_cons, Subtree.nodes_element, List.cons_append]
    exact hmem

/-- Tops become the children of a new element, in their order. -/
theorem MadeOf.addElement {kids : List Subtree} (h : f.MadeOf (kids ++ rest)) (kind : ElementKind) :
    ∃ g, f.addElement kind (kids.map Subtree.id) = .ok ((f.addBareElement kind).1, g) ∧
      g.MadeOf (.element (f.addBareElement kind).1 kind kids :: rest) := by
  have bare := h.addBareElement kind
  have hnodup := h.nodup
  rw [List.flatMap_append] at hnodup
  have free : ∀ node ∈ kids.map Subtree.id, (f.addBareElement kind).2.parent? node = none := by
    intro node hnode
    obtain ⟨c, hc, rfl⟩ := List.mem_map.mp hnode
    exact (bare.carries c (List.mem_cons_of_mem _ (List.mem_append_left _ hc))).parent?
  have hadopt := adopt_eq_foldl (f.addBareElement kind).1 (kids.map Subtree.id) _
    (hnodup.of_append_left.sublist (Subtree.map_id_sublist kids)) free
  refine ⟨_, ?_, bare.takeIn⟩
  simp only [Forest.addElement, hadopt]

/-! ## Inserting a node -/

theorem listWithBefore_map (new : Subtree) {cs : List Subtree} {anchor : NodeId}
    (nodup : (cs.map Subtree.id).Nodup) (h : anchor ∈ cs.map Subtree.id) :
    listWithBefore new.id anchor (cs.map Subtree.id) =
      some ((Subtree.plantAll cs anchor new).map Subtree.id) := by
  induction cs with
  | nil => cases h
  | cons c rest ih =>
    rw [List.map_cons, List.nodup_cons] at nodup
    rw [List.map_cons, List.mem_cons] at h
    rw [List.map_cons, listWithBefore, Subtree.plantAll]
    by_cases hc : c.id = anchor
    · have hrest := Subtree.map_id_plantAll new (hc ▸ nodup.1)
      simp [hc, hrest]
    · have hrest := ih nodup.2 (h.resolve_left (Ne.symm hc))
      simp [hc, hrest]

/-- A forest carries a subtree with a new one planted in it if it carries the new one in the element
that lists it, and nothing else about the old nodes changed. -/
theorem Carries.plant {new c : Subtree} (h : f.Carries p s) (nodup : s.nodes.Nodup)
    {q : Option ElementId} {id : ElementId} {kind : ElementKind} {children : List Subtree}
    (hplace : (q, .element id kind children) ∈ s.placed p) (hc : c ∈ children)
    (hnew : g.Carries (some id) new)
    (hlisted : g.row? (.element id) =
      some (.element ⟨kind, (Subtree.plantAll children c.id new).map Subtree.id, q⟩))
    (same : ∀ node ∈ s.nodes, node ≠ .element id → g.row? node = f.row? node) :
    g.Carries p (s.plant c.id new) := by
  -- the element that has the anchor as a child is the one it is planted in
  have only : ∀ {q' id' kind' children'}, (q', Subtree.element id' kind' children') ∈ s.placed p →
      ∀ d ∈ children', d.id = c.id → id' = id := by
    intro q' id' kind' children' hplace' d hd heq
    have hsame := Subtree.placed_unique nodup (Subtree.child_placed hplace' hd)
      (Subtree.child_placed hplace hc) heq
    exact Option.some.inj (Prod.mk.inj hsame).1
  intro x hx
  rcases Subtree.mem_placed_plant.mp hx with ⟨y, hy, rfl⟩ | ⟨q', id', k', cs', hq, ⟨d, hd, heq⟩, hx⟩
  · rw [Subtree.id_plant]
    by_cases hid : y.2.id = .element id
    · obtain rfl := Subtree.placed_unique nodup hy hplace hid
      rw [hid, hlisted, Subtree.plant_element]
      rfl
    · rw [same _ ((Subtree.mem_nodes_iff p).mpr ⟨y, hy, rfl⟩) hid, h y hy]
      obtain ⟨p', t⟩ := y
      cases t with
      | token leaf => rw [Subtree.plant_token]
      | element id' kind' children' =>
        have hnot : c.id ∉ children'.map Subtree.id := by
          intro hmem
          obtain ⟨d, hd, heq⟩ := List.mem_map.mp hmem
          exact hid (congrArg NodeId.element (only hy d hd heq))
        rw [Subtree.plant_element, Subtree.row, Subtree.row, Subtree.map_id_plantAll _ hnot]
  · rw [only hq d hd heq] at hx
    exact hnew x hx

/-- The rows that change when a node is put into an element are its own and that of the element. -/
theorem row?_inserted {id : ElementId} {new : NodeId} (hne : new ≠ .element id)
    (children : List NodeId) (node : NodeId) :
    ((f.setChildren id children).setParent new id).row? node =
      if node = new then (f.row? node).map (Row.hungIn id)
      else if node = .element id then (f.row? node).map (Row.listing children)
      else f.row? node := by
  rw [row?_setParent, row?_setChildren]
  by_cases hnew : node = new
  · rw [if_pos hnew.symm, if_pos hnew, if_neg fun h => hne (hnew.symm.trans h.symm)]
  · rw [if_neg (Ne.symm hnew), if_neg hnew]
    by_cases hid : node = .element id
    · rw [if_pos hid.symm, if_pos hid]
    · rw [if_neg (Ne.symm hid), if_neg hid]

/-- A forest is made of the planted subtree once a top was put into the element that has the anchor
as a child. -/
theorem MadeOf.inserted {new c : Subtree} (h : f.MadeOf (new :: s :: rest)) {q : Option ElementId}
    {id : ElementId} {kind : ElementKind} {children : List Subtree}
    (hplace : (q, .element id kind children) ∈ s.placed none) (hc : c ∈ children) :
    ((f.setChildren id ((Subtree.plantAll children c.id new).map Subtree.id)).setParent
      new.id id).MadeOf (s.plant c.id new :: rest) := by
  have hnodup := h.nodup
  rw [List.flatMap_cons, List.flatMap_cons] at hnodup
  have hsn : s.nodes.Nodup := hnodup.of_append_right.of_append_left
  -- the new nodes, those of the subtree and those of the rest are three separate lots
  have apart := List.disjoint_of_nodup_append hnodup
  have apart' := List.disjoint_of_nodup_append hnodup.of_append_right
  have hs : f.Carries none s := h.carries s (by simp)
  have hid : NodeId.element id ∈ s.nodes := (Subtree.mem_nodes_iff none).mpr ⟨_, hplace, rfl⟩
  have hne : new.id ≠ .element id := fun heq =>
    apart new.id_mem_nodes (List.mem_append_left _ (heq ▸ hid))
  generalize hg : (f.setChildren id _).setParent new.id id = g
  have hrows := hg ▸ row?_inserted (f := f) hne
    ((Subtree.plantAll children c.id new).map Subtree.id)
  have hsame : ∀ node, node ≠ .element id → node ≠ new.id → g.row? node = f.row? node := by
    intro node hnid hnew
    rw [hrows, if_neg hnew, if_neg hnid]
  have hhung : g.Carries (some id) new := by
    apply (h.carries new (by simp)).hang hnodup.of_append_left
    · rw [hrows, if_pos rfl]
    · intro node hnode htop
      exact hsame node (fun heq => apart (heq ▸ hnode) (List.mem_append_left _ hid)) htop
  have hlisted : g.row? (.element id) = some (.element
      ⟨kind, (Subtree.plantAll children c.id new).map Subtree.id, q⟩) := by
    have hrow := (hs.of_placed hplace).top
    rw [Subtree.id_element] at hrow
    rw [hrows, if_neg (Ne.symm hne), if_pos rfl, hrow]
    rfl
  have hperm : ((s.plant c.id new :: rest).flatMap Subtree.nodes).Perm
      ((new :: s :: rest).flatMap Subtree.nodes) := by
    have hchild := Subtree.child_placed hplace hc
    have hcid : c.id ∈ s.nodes := (Subtree.mem_nodes_iff none).mpr ⟨_, hchild, rfl⟩
    have htop : s.id ≠ c.id := by
      intro heq
      have hroot := Subtree.placed_unique hsn (Subtree.self_mem_placed none s) hchild heq
      cases (Prod.mk.inj hroot).1
    simp only [List.flatMap_cons, ← List.append_assoc]
    exact (Subtree.nodes_plant hsn hcid htop).append_right _
  refine ⟨?_, hperm.nodup_iff.mpr h.nodup, ?_⟩
  · intro t ht
    rcases List.mem_cons.mp ht with rfl | ht
    · apply hs.plant hsn hplace hc hhung hlisted
      intro node hnode hnid
      exact hsame node hnid fun heq =>
        apart (heq ▸ new.id_mem_nodes) (List.mem_append_left _ hnode)
    · apply (h.carries t (by simp [ht])).congr
      intro node hnode
      have hmem : node ∈ rest.flatMap Subtree.nodes := List.mem_flatMap.mpr ⟨t, ht, hnode⟩
      apply hsame
      · rintro rfl
        exact apart' hid hmem
      · rintro rfl
        exact apart new.id_mem_nodes (List.mem_append_right _ hmem)
  · intro node hnode
    rw [hperm.mem_iff]
    rw [← hg, holds_setParent, holds_setChildren] at hnode
    exact h.covers node hnode

/-- A top goes before a child of an element of another top, without a fault. -/
theorem MadeOf.insertBefore {new c : Subtree} (h : f.MadeOf (new :: s :: rest))
    {q : Option ElementId} {id : ElementId} {kind : ElementKind} {children : List Subtree}
    (hplace : (q, .element id kind children) ∈ s.placed none) (hc : c ∈ children) :
    ∃ g, f.insertBefore id new.id c.id = .ok g ∧ g.MadeOf (s.plant c.id new :: rest) := by
  refine ⟨_, ?_, h.inserted hplace hc⟩
  have hs : s ∈ new :: s :: rest := by simp
  have hnodup := (h.nodup_of_mem hs).sublist (Subtree.nodes_sublist hplace)
  rw [Subtree.nodes_element, List.nodup_cons] at hnodup
  have hrow : f.row? (.element id) = some (.element ⟨kind, children.map Subtree.id, q⟩) :=
    ((h.carries s hs).of_placed hplace).top
  have hlist := listWithBefore_map new (hnodup.2.sublist (Subtree.map_id_sublist children))
    (List.mem_map_of_mem hc)
  rw [Forest.insertBefore, (h.carries new List.mem_cons_self).parent?, children_of_row? hrow]
  simp only [hlist]

end Forest

end DeclVisibility
