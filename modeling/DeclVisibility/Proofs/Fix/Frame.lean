import DeclVisibility.Proofs.Fix.Offer

/-!
# A fix leaves the other declarations alone

What a fix puts in hangs in its own declaration. Every other element keeps its list of children, and
these keep their kinds and their parents (`Forest.AgreeAt`, `Fix.Inserts.agreeAt`). Nothing else is
looked at to find the anchor of a declaration, or to tell whether it has a visibility or a name, so
all of that is for every other declaration as it was (`AgreeAt.anchor?`, `AgreeAt.awaits`).
-/

namespace DeclVisibility

/-- A visibility can be written into the element: it has none yet, and it has a name. -/
structure Forest.Awaits (f : Forest) (decl : ElementId) : Prop where
  unwritten : f.childElement? decl .vis = none
  named : (f.childElement? decl .name).isSome

namespace Forest

/-- Two forests hold the same children in an element, of the same kinds and with the same
parents. -/
structure AgreeAt (f g : Forest) (decl : ElementId) : Prop where
  children : g.children decl = f.children decl
  kind : ∀ node ∈ f.children decl, g.kind? node = f.kind? node
  parent : ∀ node ∈ f.children decl, g.parent? node = f.parent? node

variable {f g : Forest} {tops : List Subtree} {decl : ElementId} {node : NodeId}

theorem Awaits.held (h : f.Awaits decl) : f.holds (.element decl) = true := by
  obtain ⟨name, hname⟩ := Option.isSome_iff_exists.mp h.named
  exact holds_of_childElement? hname

namespace AgreeAt

theorem childElement? (h : f.AgreeAt g decl) (wanted : ElementKind) :
    g.childElement? decl wanted = f.childElement? decl wanted := by
  have hsame : g.elementChildren decl = f.elementChildren decl := by
    rw [elementChildren, elementChildren, h.children]
  have hkind : ∀ child ∈ f.elementChildren decl, g.elementKind? child = f.elementKind? child := by
    intro child hchild
    have hnodes := h.kind _ (mem_children_of_elementChildren hchild)
    rw [kind?, kind?] at hnodes
    exact Option.map_injective (fun _ _ => NodeKind.element.inj) hnodes
  rw [Forest.childElement?, Forest.childElement?, hsame]
  rw [← List.head?_filter, ← List.head?_filter]
  congr 1
  apply List.filter_congr
  intro child hchild
  rw [hkind child hchild]

theorem awaits (h : f.AgreeAt g decl) (hawaits : f.Awaits decl) : g.Awaits decl where
  unwritten := by rw [h.childElement?, hawaits.unwritten]
  named := by
    rw [h.childElement?]
    exact hawaits.named

/-! ## The anchor -/

theorem isAttr (h : f.AgreeAt g decl) (hnode : node ∈ f.children decl) :
    g.isAttr node = f.isAttr node := by
  rw [Forest.isAttr, Forest.isAttr, h.kind node hnode]

theorem isTrivia (h : f.AgreeAt g decl) (hnode : node ∈ f.children decl) :
    g.isTrivia node = f.isTrivia node := by
  rw [Forest.isTrivia, Forest.isTrivia, h.kind node hnode]

/-- The right place for an anchor depends on the kinds of the children only. -/
theorem isForemost (h : f.AgreeAt g decl) {n i : Nat} (hi : f.IsForemost (f.children decl) n i) :
    g.IsForemost (f.children decl) n i where
  le := hi.le
  plain child hchild := by
    rw [h.isAttr (List.mem_of_mem_take (List.mem_of_mem_drop hchild))]
    exact hi.plain child hchild
  stops last hlast := by
    have hmeant : ((f.children decl).take i).filter (fun child => !g.isTrivia child) =
        ((f.children decl).take i).filter fun child => !f.isTrivia child := by
      apply List.filter_congr
      intro child hchild
      rw [h.isTrivia (List.mem_of_mem_take hchild)]
    rw [hmeant] at hlast
    have hmem := (List.mem_filter.mp (List.mem_of_getLast? hlast)).1
    rw [h.isAttr (List.mem_of_mem_take hmem)]
    exact hi.stops last hlast
  lands := by
    refine hi.lands.imp_right ?_
    rintro ⟨child, hchild, meant⟩
    refine ⟨child, hchild, ?_⟩
    rw [h.isTrivia (List.mem_of_getElem? hchild), meant]

/-- The anchor of the declaration is the same one. -/
theorem anchor? (h : f.AgreeAt g decl) (linked : f.Linked) (linked' : g.Linked) :
    g.anchor? decl = f.anchor? decl := by
  rw [Forest.anchor?, Forest.anchor?, h.childElement?]
  cases hname : f.childElement? decl .name with
  | none => rfl
  | some name =>
    obtain ⟨before, after, listed⟩ := List.append_of_mem (mem_children_of_childElement? hname)
    have listed' := h.children.trans listed
    obtain ⟨i, anchor, hback, hanchor, hi⟩ := linked.exists_foremost (f.siblingCount (.element name))
      listed (by rw [linked.siblingCount listed]; simp)
    obtain ⟨j, anchor', hback', hanchor', hj⟩ :=
      linked'.exists_foremost (g.siblingCount (.element name)) listed'
        (by rw [linked'.siblingCount listed']; simp)
    rw [h.children] at hanchor' hj
    obtain rfl := (h.isForemost hi).unique hj
    obtain rfl := Option.some.inj (hanchor.symm.trans hanchor')
    rw [Option.map_some, Option.map_some, hback, hback']

end AgreeAt

end Forest

namespace Fix.Inserts

variable {fix : Fix} {t t' : Tree} {s : Subtree} {w : Inset}

/-- A token has nothing below it that could change. -/
theorem token? (h : fix.Inserts t s w t') (readsAs : t.ReadsAs s) {id : TokenId}
    (held : t.holds (.token id) = true) : t'.token? id = t.token? id := by
  obtain ⟨⟨p, u⟩, hu, hid⟩ := readsAs.exists_placed held
  cases u with
  | element _ _ _ => cases hid
  | token leaf =>
    obtain rfl := NodeId.token.inj hid
    have hplaced := Subtree.placed_publish w hu
    simp only [Subtree.publish_token] at hplaced
    have hbefore := Forest.token?_of_row? (readsAs.madeOf.row_placed List.mem_cons_self hu)
    have hafter := Forest.token?_of_row? (h.readsAs.madeOf.row_placed List.mem_cons_self hplaced)
    exact hafter.trans hbefore.symm

/-- What is put in is no part of another element, whose children stay what they were. -/
theorem agreeAt (h : fix.Inserts t s w t') (readsAs : t.ReadsAs s) {decl : ElementId}
    (held : t.holds (.element decl) = true) (hne : decl ≠ fix.decl) :
    t.AgreeAt t'.toForest decl := by
  obtain ⟨q, kind, children, hx⟩ := readsAs.exists_placed_element held
  have hchildren := readsAs.madeOf.children_placed List.mem_cons_self hx
  have hold : ∀ node ∈ t.children decl, t.holds node = true :=
    fun _ hnode => readsAs.madeOf.holds_child hnode
  refine ⟨?_, ?_, fun node hnode => (readsAs.parent_publish h.readsAs (hold node hnode)).2⟩
  · have hanchor : w.anchor ∉ children.map Subtree.id := by
      rw [← hchildren, readsAs.madeOf.mem_children_iff, h.parent? readsAs]
      exact fun heq => hne (Option.some.inj heq).symm
    have hplaced := Subtree.placed_publish w hx
    simp only [Subtree.publish_eq] at hplaced
    rw [h.readsAs.madeOf.children_placed List.mem_cons_self hplaced, hchildren,
      Subtree.map_id_plantAll, Subtree.map_id_plantAll w.visibility hanchor]
    rwa [Subtree.map_id_plantAll w.visibility hanchor]
  · intro node hnode
    cases node with
    | element id =>
      rw [Forest.kind?, Forest.kind?, readsAs.kind_publish h.readsAs (hold _ hnode)]
    | token id => rw [Forest.kind?, Forest.kind?, h.token? readsAs (hold _ hnode)]

end Fix.Inserts

end DeclVisibility
