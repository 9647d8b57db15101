import DeclVisibility.Fix.Basic
import DeclVisibility.Proofs.Fix.Anchor
import DeclVisibility.Proofs.Tree.Building
import DeclVisibility.Proofs.Visibility

/-!
# What a fix writes

A fix puts two subtrees before one anchor, a visibility and a blank (`Subtree.publish`). The tree
still reads as one nested value, every old element keeps its kind, its parent and a child of every
kind that it had, the text grows by what is written at the place where the edit says, and the
declaration, if it was private, is as visible as the fix says (`Fix.Wrote`). Applying a fix to a
declaration with a name always comes to this, and without a name to nothing (`Fix.invoke_cases`).
-/

namespace DeclVisibility

/-- The text that a fix writes: the scope and a blank. -/
def Scope.written (scope : Scope) : String := scope.text ++ " "

/-- What a fix puts before an anchor: a visibility with its tokens, and a blank. -/
structure Inset where
  anchor : NodeId
  vis : ElementId
  leaves : List Leaf
  blank : TokenId

namespace Inset

def visibility (w : Inset) : Subtree := .element w.vis .vis (w.leaves.map .token)

def space (w : Inset) : Subtree := .token ⟨w.blank, .space, " "⟩

/-- No node of a nested value is among those that are put in. -/
def Fresh (w : Inset) (s : Subtree) : Prop :=
  ∀ node ∈ s.nodes, node ∉ w.visibility.nodes ∧ node ∉ w.space.nodes

theorem leaves_visibility (w : Inset) : w.visibility.leaves = w.leaves := by
  rw [visibility, Subtree.leaves_element, List.flatMap_map]
  simp

end Inset

/-- The tokens that are put in have the text that the scope is written as. -/
theorem Scope.Writes.written {scope : Scope} {w : Inset} (h : scope.Writes w.leaves) :
    Subtree.textOfLeaves (w.leaves ++ w.space.leaves) = scope.written := by
  have hspace : Subtree.textOfLeaves w.space.leaves = " " := by
    rw [Inset.space, Subtree.leaves_token]
    rfl
  rw [Subtree.textOfLeaves_append, h.text, hspace, Scope.written]

namespace Subtree

/-- The subtree with a visibility and a blank put before a node. -/
def publish (s : Subtree) (w : Inset) : Subtree :=
  (s.plant w.anchor w.visibility).plant w.anchor w.space

variable {s : Subtree} (w : Inset)

@[simp] theorem id_publish : (s.publish w).id = s.id := by
  simp [publish]

@[simp] theorem publish_token (leaf : Leaf) : (token leaf).publish w = token leaf := by
  simp [publish]

theorem publish_eq (id : ElementId) (kind : ElementKind) (children : List Subtree) :
    (element id kind children).publish w =
      element id kind (plantAll (plantAll children w.anchor w.visibility) w.anchor w.space) := by
  rw [publish, plant_element, plant_element]

@[simp] theorem elementKind?_publish : (s.publish w).elementKind? = s.elementKind? := by
  simp [publish]

/-- Every old place is one still. -/
theorem placed_publish {p : Option ElementId} {x : Option ElementId × Subtree}
    (hx : x ∈ s.placed p) : (x.1, x.2.publish w) ∈ (s.publish w).placed p :=
  mem_placed_plant.mpr (.inl ⟨_, mem_placed_plant.mpr (.inl ⟨x, hx, rfl⟩), rfl⟩)

/-- An element still has its old children, and beside them only the new ones, which it has if the
anchor is among its children. -/
theorem publish_element (id : ElementId) (kind : ElementKind) (children : List Subtree) :
    ∃ all, (element id kind children).publish w = element id kind all ∧
      (∀ c ∈ children, c.publish w ∈ all) ∧
      (∀ c ∈ all, (∃ d ∈ children, c = d.publish w) ∨ c = w.space ∨
        c = w.visibility.plant w.anchor w.space) ∧
      ((∃ c ∈ children, c.id = w.anchor) →
        w.visibility.plant w.anchor w.space ∈ all ∧ w.space ∈ all) := by
  refine ⟨_, publish_eq w id kind children, ?_, ?_, ?_⟩
  · intro c hc
    exact mem_plantAll.mpr (.inl ⟨_, mem_plantAll.mpr (.inl ⟨c, hc, rfl⟩), rfl⟩)
  · intro c hc
    rcases mem_plantAll.mp hc with ⟨d, hd, rfl⟩ | ⟨rfl, -⟩
    · rcases mem_plantAll.mp hd with ⟨e, he, rfl⟩ | ⟨rfl, -⟩
      · exact .inl ⟨e, he, rfl⟩
      · exact .inr (.inr rfl)
    · exact .inr (.inl rfl)
  · rintro ⟨c, hc, hanchor⟩
    refine ⟨mem_plantAll.mpr (.inl ⟨_, mem_plantAll.mpr (.inr ⟨rfl, c, hc, hanchor⟩), rfl⟩), ?_⟩
    exact mem_plantAll.mpr (.inr ⟨rfl, _, mem_plantAll.mpr (.inl ⟨c, hc, rfl⟩), by simp [hanchor]⟩)

/-- The written tokens come in where the tokens before the anchor end. -/
theorem leaves_publish (nodup : s.nodes.Nodup)
    (nodup' : (s.plant w.anchor w.visibility).nodes.Nodup) (hne : s.id ≠ w.anchor)
    (fresh : w.anchor ∉ w.visibility.nodes) {before : List Leaf}
    (h : s.leavesBefore? w.anchor = some before) :
    ∃ rest, s.leaves = before ++ rest ∧
      (s.publish w).leaves = before ++ w.leaves ++ w.space.leaves ++ rest := by
  obtain ⟨rest, hold, hfirst⟩ := leaves_plant w.visibility nodup hne h
  have hbefore := leavesBefore?_plant nodup hne fresh h
  obtain ⟨rest', hfirst', hboth⟩ := leaves_plant w.space nodup' (by rwa [id_plant]) hbefore
  rw [w.leaves_visibility] at hfirst hfirst' hboth
  -- what stands behind the anchor is the same before and after the visibility was planted
  have hrest : rest = rest' := List.append_cancel_left (hfirst.symm.trans hfirst')
  refine ⟨rest, hold, ?_⟩
  rw [publish, hboth, hrest]

end Subtree

/-! ## The insertion -/

/-- A visibility and a blank are put before a child of an element without a fault. Their nodes were
not in the tree before. -/
theorem Forest.MadeOf.insertVisibility {f : Forest} {s : Subtree} (h : f.MadeOf [s])
    {q : Option ElementId} {decl : ElementId} {kind : ElementKind} {children : List Subtree}
    (hplace : (q, .element decl kind children) ∈ s.placed none) {c : Subtree} (hc : c ∈ children)
    (scope : Scope) : ∃ (w : Inset) (g : Forest), w.anchor = c.id ∧
      f.insertVisibility c.id scope = .ok ([.element w.vis, .token w.blank], g) ∧
      scope.Writes w.leaves ∧ w.Fresh s ∧
      (s.plant w.anchor w.visibility).nodes.Nodup ∧ g.MadeOf [s.publish w] := by
  have hparent : f.parent? c.id = some decl :=
    (h.carries s List.mem_cons_self).of_placed (Subtree.child_placed hplace hc) |>.parent?
  obtain ⟨vis, leaves, g₁, hvis, hwrites, hg₁⟩ := h.addVisibility scope
  obtain ⟨g₂, hfirst, hg₂⟩ := hg₁.insertBefore hplace hc
  -- the anchor is a child of the declaration still, so the blank can be put before it too
  have hplace' : (q, .element decl kind (Subtree.plantAll children c.id
      (.element vis .vis (leaves.map .token)))) ∈
      (s.plant c.id (.element vis .vis (leaves.map .token))).placed none := by
    rw [Subtree.mem_placed_plant]
    exact .inl ⟨_, hplace, by rw [Subtree.plant_element]⟩
  obtain ⟨g₃, hsecond, hg₃⟩ := (hg₂.addToken .space " ").insertBefore hplace'
    (Subtree.mem_plantAll.mpr (.inl ⟨c, hc, rfl⟩))
  rw [Subtree.id_plant] at hsecond hg₃
  refine ⟨⟨c.id, vis, leaves, (g₂.addToken .space " ").1⟩, g₃, rfl, ?_, hwrites, ?_,
    hg₂.nodup_of_mem List.mem_cons_self, hg₃⟩
  · have hfirst' : g₁.insertBefore decl (.element vis) c.id = .ok g₂ := hfirst
    have hsecond' : g₂.addSpace.2.insertBefore decl (.token g₂.addSpace.1) c.id = .ok g₃ := hsecond
    rw [Forest.insertVisibility, hparent]
    simp only [hvis, hfirst', hsecond', bind, Except.bind]
    rfl
  · intro node hnode
    refine ⟨fun hnew => ?_, fun hnew => ?_⟩
    · have hnodup := hg₁.nodup
      rw [List.flatMap_cons, List.flatMap_singleton] at hnodup
      exact List.disjoint_of_nodup_append hnodup hnew hnode
    · -- the blank is new where the visibility has been planted, so it was no node before that
      have hblank := hg₂.notMem_of_row? (Forest.row?_addToken_self .space " ")
      rw [Inset.space, Subtree.nodes_token, List.mem_singleton] at hnew
      rw [List.flatMap_singleton, ← hnew] at hblank
      exact hblank (Subtree.mem_nodes_plant hnode)

/-! ## What comes of it -/

/-- What a fix does to a tree, and the edit that tells it. -/
structure Fix.Wrote (fix : Fix) (t t' : Tree) (edit : Edit) : Prop where
  readsAs : ∃ s, t'.ReadsAs s
  edit : ∃ before after, t.text = before ++ after ∧
    edit = ⟨.emptyAt (.ofString before), fix.scope.written⟩ ∧
    t'.text = before ++ fix.scope.written ++ after
  held : ∀ node, t.holds node = true → t'.holds node = true
  kind : ∀ id, t.holds (.element id) = true → t'.elementKind? id = t.elementKind? id
  parent : ∀ node, t.holds node = true → t'.parent? node = t.parent? node
  child : ∀ id wanted, (t.childElement? id wanted).isSome → (t'.childElement? id wanted).isSome
  visibility : (t.visibilityOf fix.decl).value.isPrivate = true →
    (t'.visibilityOf fix.decl).value = fix.scope.visibility

namespace Tree.ReadsAs

variable {t t' : Tree} {s : Subtree} {w : Inset} {decl : ElementId} {scope : Scope}

/-- Old nodes are held, with the parents they had. -/
theorem parent_publish (h : t.ReadsAs s) (h' : t'.ReadsAs (s.publish w)) {node : NodeId}
    (held : t.holds node = true) : t'.holds node = true ∧ t'.parent? node = t.parent? node := by
  obtain ⟨x, hx, rfl⟩ := h.exists_placed held
  have hplaced := Subtree.placed_publish w hx
  have hid : (x.2.publish w).id = x.2.id := Subtree.id_publish w
  refine ⟨?_, ?_⟩
  · have hheld := h'.madeOf.holds_placed List.mem_cons_self hplaced
    rwa [hid] at hheld
  · rw [(h.carries.of_placed hx).parent?, ← hid]
    exact (h'.carries.of_placed hplaced).parent?

/-- The place of an old element before and after. -/
theorem exists_placed_publish (h : t.ReadsAs s) {id : ElementId}
    (held : t.holds (.element id) = true) (w : Inset) :
    ∃ q kind children all, (q, .element id kind children) ∈ s.placed none ∧
      (q, .element id kind all) ∈ (s.publish w).placed none ∧
      (∀ c ∈ children, c.publish w ∈ all) ∧
      (∀ c ∈ all, (∃ d ∈ children, c = d.publish w) ∨ c = w.space ∨
        c = w.visibility.plant w.anchor w.space) ∧
      ((∃ c ∈ children, c.id = w.anchor) →
        w.visibility.plant w.anchor w.space ∈ all ∧ w.space ∈ all) := by
  obtain ⟨q, kind, children, hx⟩ := h.exists_placed_element held
  obtain ⟨all, hall, hkept, honly, hnew⟩ := Subtree.publish_element w id kind children
  exact ⟨q, kind, children, all, hx, hall ▸ Subtree.placed_publish w hx, hkept, honly, hnew⟩

theorem kind_publish (h : t.ReadsAs s) (h' : t'.ReadsAs (s.publish w)) {id : ElementId}
    (held : t.holds (.element id) = true) : t'.elementKind? id = t.elementKind? id := by
  obtain ⟨q, kind, children, all, hx, hx', -⟩ := h.exists_placed_publish held w
  rw [h.madeOf.elementKind?_placed List.mem_cons_self hx,
    h'.madeOf.elementKind?_placed List.mem_cons_self hx']

/-- An element has a child of a kind still if it had one. -/
theorem child_publish (h : t.ReadsAs s) (h' : t'.ReadsAs (s.publish w)) {id : ElementId}
    {wanted : ElementKind} (hchild : (t.childElement? id wanted).isSome) :
    (t'.childElement? id wanted).isSome := by
  obtain ⟨child, hsome⟩ := Option.isSome_iff_exists.mp hchild
  obtain ⟨q, kind, children, all, hx, hx', hkept, -⟩ :=
    h.exists_placed_publish (Forest.holds_of_childElement? hsome) w
  obtain ⟨c, hc, hkind⟩ := (h.madeOf.childElement?_isSome List.mem_cons_self hx).mp hchild
  exact (h'.madeOf.childElement?_isSome List.mem_cons_self hx').mpr
    ⟨_, hkept c hc, by rw [Subtree.elementKind?_publish, hkind]⟩

/-- The new nodes hang in the parent of the anchor. -/
theorem new_placed (h : t.ReadsAs s) (hanchor : t.parent? w.anchor = some decl)
    (fresh : w.anchor ∉ w.visibility.nodes) :
    (some decl, w.visibility) ∈ (s.publish w).placed none ∧
      (some decl, w.space) ∈ (s.publish w).placed none := by
  have hmem := h.madeOf.mem_children_iff.mpr hanchor
  obtain ⟨q, kind, children, all, hx, hx', -, -, hnew⟩ :=
    h.exists_placed_publish (Forest.holds_of_mem_children hmem) w
  rw [h.madeOf.children_placed List.mem_cons_self hx] at hmem
  obtain ⟨hvis, hblank⟩ := hnew (List.mem_map.mp hmem)
  rw [Subtree.plant_of_notMem fresh] at hvis
  exact ⟨Subtree.child_placed hx' hvis, Subtree.child_placed hx' hblank⟩

/-- The first visibility in a private declaration is the one that was written. -/
theorem childElement?_publish (h : t.ReadsAs s) (h' : t'.ReadsAs (s.publish w))
    (hanchor : t.parent? w.anchor = some decl) (fresh : w.anchor ∉ w.visibility.nodes)
    (hprivate : t.childElement? decl .vis = none) : t'.childElement? decl .vis = some w.vis := by
  have hmem := h.madeOf.mem_children_iff.mpr hanchor
  obtain ⟨q, kind, children, all, hx, hx', -, honly, hnew⟩ :=
    h.exists_placed_publish (Forest.holds_of_mem_children hmem) w
  rw [Subtree.plant_of_notMem fresh] at honly hnew
  rw [h.madeOf.children_placed List.mem_cons_self hx] at hmem
  have hnone : ¬ ∃ c ∈ children, c.elementKind? = some .vis := by
    rw [← h.madeOf.childElement?_isSome List.mem_cons_self hx, hprivate]
    exact Bool.false_ne_true
  rw [h'.madeOf.childElement?_placed List.mem_cons_self hx']
  cases hfound : all.find? fun c => c.elementKind? = some .vis with
  | none =>
    have hnot := List.find?_eq_none.mp hfound _ (hnew (List.mem_map.mp hmem)).1
    simp [Inset.visibility, Subtree.elementKind?] at hnot
  | some c =>
    have hkind := List.find?_some hfound
    rcases honly c (List.mem_of_find?_eq_some hfound) with ⟨d, hd, rfl⟩ | rfl | rfl
    · exact absurd ⟨d, hd, by simpa using hkind⟩ hnone
    · simp [Inset.space, Subtree.elementKind?] at hkind
    · rfl

/-- A private declaration reads as what was written in it. -/
theorem visibility_publish (h : t.ReadsAs s) (h' : t'.ReadsAs (s.publish w))
    (hanchor : t.parent? w.anchor = some decl) (fresh : w.anchor ∉ w.visibility.nodes)
    (hwrites : scope.Writes w.leaves) (hprivate : (t.visibilityOf decl).value.isPrivate = true) :
    (t'.visibilityOf decl).value = scope.visibility := by
  have hchild := h.childElement?_publish h' hanchor fresh
    ((t.isPrivate_visibilityOf decl).mp hprivate)
  have htokens := h'.madeOf.tokenChildren_placed List.mem_cons_self (h.new_placed hanchor fresh).1
  rw [Forest.visibilityOf, hchild]
  simp only [htokens]
  exact hwrites.read (some w.vis)

/-- The tree reads as the new nested value, because only spelled tokens were added. -/
theorem readsAs_publish (h : t.ReadsAs s) {g : Forest} (hg : g.MadeOf [s.publish w])
    (hwrites : scope.Writes w.leaves) {before rest : List Leaf} (hold : s.leaves = before ++ rest)
    (hnew : (s.publish w).leaves = before ++ w.leaves ++ w.space.leaves ++ rest) :
    (t.withForest g).ReadsAs (s.publish w) where
  madeOf := hg
  root := by
    rw [Subtree.id_publish, h.root]
    rfl
  spelled := by
    intro leaf hleaf
    rw [hnew, Inset.space, Subtree.leaves_token, List.mem_append, List.mem_append,
      List.mem_append, List.mem_singleton] at hleaf
    rcases hleaf with ((hleaf | hleaf) | rfl) | hleaf
    · exact h.spelled leaf (hold ▸ List.mem_append_left _ hleaf)
    · exact hwrites.spells leaf hleaf
    · -- the spelling of a blank is free
      intro spelling hspelling
      cases hspelling
    · exact h.spelled leaf (hold ▸ List.mem_append_right _ hleaf)

/-- Writing a visibility before a child of a declaration meets no fault. The text grows by what is
written, at the place where the anchor started. -/
theorem insertVisibility (h : t.ReadsAs s) {anchor : NodeId}
    (hanchor : t.parent? anchor = some decl) (scope : Scope) :
    ∃ (w : Inset) (g : Forest) (before after : String), w.anchor = anchor ∧
      t.insertVisibility anchor scope = .ok ([.element w.vis, .token w.blank], g) ∧
      scope.Writes w.leaves ∧ w.Fresh s ∧
      (t.withForest g).ReadsAs (s.publish w) ∧ t.offsetOf? anchor = some (.ofString before) ∧
      t.text = before ++ after ∧ (t.withForest g).text = before ++ scope.written ++ after := by
  have hmem := h.madeOf.mem_children_iff.mpr hanchor
  obtain ⟨q, kind, children, hx⟩ := h.exists_placed_element (Forest.holds_of_mem_children hmem)
  rw [h.madeOf.children_placed List.mem_cons_self hx] at hmem
  obtain ⟨c, hc, rfl⟩ := List.mem_map.mp hmem
  obtain ⟨w, g, hw, hinsert, hwrites, hfresh, hnodup, hg⟩ := h.madeOf.insertVisibility hx hc scope
  have hin : c.id ∈ s.nodes := h.holds_iff.mp (Forest.holds_of_parent? hanchor)
  have hne : s.id ≠ c.id := by
    intro heq
    rw [← heq, h.carries.parent?] at hanchor
    cases hanchor
  obtain ⟨before, hbefore⟩ := Subtree.exists_leavesBefore? hin
  obtain ⟨rest, hold, hnew⟩ := Subtree.leaves_publish w h.nodup hnodup (hw ▸ hne)
    (hw ▸ (hfresh c.id hin).1) (hw ▸ hbefore)
  have h' := h.readsAs_publish hg hwrites hold hnew
  refine ⟨w, g, Subtree.textOfLeaves before, Subtree.textOfLeaves rest, hw, hinsert, hwrites,
    hfresh, h', ?_, ?_, ?_⟩
  · rw [h.offsetOf?_eq, hbefore, Option.map_some]
  · rw [h.text, Subtree.text, hold, Subtree.textOfLeaves_append]
  · rw [h'.text, Subtree.text, hnew, List.append_assoc before, Subtree.textOfLeaves_append,
      Subtree.textOfLeaves_append, hwrites.written]

/-- The two new nodes have the text that the scope is written as. -/
theorem newText (h : t.ReadsAs s) (hanchor : t.parent? w.anchor = some decl)
    (fresh : w.anchor ∉ w.visibility.nodes) (h' : t'.ReadsAs (s.publish w))
    (hwrites : scope.Writes w.leaves) :
    String.join ([NodeId.element w.vis, .token w.blank].map t'.nodeText) = scope.written := by
  obtain ⟨hvis, hblank⟩ := h.new_placed hanchor fresh
  have hfirst : t'.nodeText (.element w.vis) = scope.text := by
    rw [← hwrites.text, ← w.leaves_visibility]
    exact h'.nodeText_placed hvis
  have hsecond : t'.nodeText (.token w.blank) = " " := h'.nodeText_placed hblank
  rw [List.map_cons, List.map_singleton, hfirst, hsecond, Scope.written]
  simp [String.join]

end Tree.ReadsAs

namespace Fix

/-- A fix puts a visibility and a blank before the anchor of its declaration, and what comes of it
is read as a nested value. -/
structure Inserts (fix : Fix) (t : Tree) (s : Subtree) (w : Inset) (t' : Tree) : Prop where
  anchor : t.anchor? fix.decl = some w.anchor
  writes : fix.scope.Writes w.leaves
  fresh : w.Fresh s
  readsAs : t'.ReadsAs (s.publish w)

variable {fix : Fix} {t t' : Tree} {s : Subtree} {w : Inset}

theorem Inserts.parent? (h : fix.Inserts t s w t') (readsAs : t.ReadsAs s) :
    t.parent? w.anchor = some fix.decl :=
  readsAs.madeOf.parent?_anchor? h.anchor

theorem Inserts.anchor_fresh (h : fix.Inserts t s w t') (readsAs : t.ReadsAs s) :
    w.anchor ∉ w.visibility.nodes :=
  (h.fresh _ (readsAs.holds_iff.mp (Forest.holds_of_parent? (h.parent? readsAs)))).1

/-- Applied to a declaration with a name, a fix puts in what it is to write, and tells the place
where the text grows. -/
theorem invoke_of_named (fix : Fix) (h : t.ReadsAs s)
    (named : (t.childElement? fix.decl .name).isSome) :
    ∃ (w : Inset) (t' : Tree) (before after : String), fix.Inserts t s w t' ∧
      (fix.invoke t).outcome.value =
        .ok (some (⟨.emptyAt (.ofString before), fix.scope.written⟩, t')) ∧
      t.text = before ++ after ∧ t'.text = before ++ fix.scope.written ++ after ∧
      t.offsetOf? w.anchor = some (.ofString before) := by
  obtain ⟨name, hname⟩ := Option.isSome_iff_exists.mp named
  obtain ⟨anchor, hplace, hvalue, hanchor⟩ := h.madeOf.anchorOf hname
  obtain ⟨w, g, before, after, rfl, hinsert, hwrites, hfresh, h', hoffset, htext, htext'⟩ :=
    h.insertVisibility hanchor fix.scope
  have hinserts : fix.Inserts t s w (t.withForest g) := ⟨hplace, hwrites, hfresh, h'⟩
  have hnew := h.newText hanchor (hinserts.anchor_fresh h) h' hwrites
  change String.join ([NodeId.element w.vis, .token w.blank].map g.nodeText) = _ at hnew
  refine ⟨w, t.withForest g, before, after, hinserts, ?_, htext, htext', hoffset⟩
  rw [invoke, if_pos (Forest.holds_of_childElement? hname), write, hname]
  simp only [Attempt.value_bind_of_ok hvalue, hoffset, hanchor, hinsert, if_true,
    Attempt.value_bind_of_ok (Attempt.value_ofExcept _), hnew, Attempt.value_pure]

/-- Applied to a declaration that the tree holds, a fix comes to nothing if the declaration has no
name, and otherwise it writes its visibility. -/
theorem invoke_cases (h : t.ReadsAs s) (held : t.holds (.element fix.decl) = true) :
    (t.childElement? fix.decl .name = none ∧ (fix.invoke t).outcome.value = .ok none) ∨
      ((t.childElement? fix.decl .name).isSome ∧ ∃ edit t',
        (fix.invoke t).outcome.value = .ok (some (edit, t')) ∧ fix.Wrote t t' edit) := by
  cases hname : t.childElement? fix.decl .name with
  | none =>
    rw [invoke, if_pos held, write, hname]
    exact .inl ⟨rfl, Attempt.value_bind_of_ok (Attempt.value_ofLogged _)⟩
  | some name =>
    obtain ⟨w, t', before, after, hinserts, hinvoke, htext, htext', -⟩ :=
      invoke_of_named fix h (Option.isSome_of_eq_some hname)
    have h' := hinserts.readsAs
    refine .inr ⟨rfl, _, t', hinvoke, ?_⟩
    exact {
      readsAs := ⟨_, h'⟩
      edit := ⟨before, after, htext, rfl, htext'⟩
      held := fun _ hnode => (h.parent_publish h' hnode).1
      kind := fun _ hid => h.kind_publish h' hid
      parent := fun _ hnode => (h.parent_publish h' hnode).2
      child := fun _ _ hchild => h.child_publish h' hchild
      visibility := h.visibility_publish h' (hinserts.parent? h) (hinserts.anchor_fresh h)
        hinserts.writes }

end Fix

end DeclVisibility
