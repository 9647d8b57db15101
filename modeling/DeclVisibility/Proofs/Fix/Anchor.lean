import DeclVisibility.Fix.Basic
import DeclVisibility.Proofs.Outcome
import DeclVisibility.Proofs.Tree.Siblings

/-!
# The way back to the anchor

Among the children of an element, the anchor for one of them is at a place that can be told without
going back step by step (`Forest.IsForemost`): no attribute stands from there up to the child, what
carries meaning before it ends with an attribute, and it carries meaning itself unless it is the
child. There is one such place (`IsForemost.unique`). Each round of the way back keeps a place that
is right for the node it goes to right for the node it comes from (`IsForemost.extend`), so where
the records of every link agree the way back ends at this place (`Linked.exists_foremost`), after no
more rounds than there are children before.

So from the name of a declaration the way back ends at a child of the declaration, which is its
anchor (`Forest.anchor?`), and meets no broken link (`Linked.exists_anchor`).
-/

namespace DeclVisibility.Forest

/-- Whether a node is an attribute. -/
def isAttr (f : Forest) (node : NodeId) : Bool := f.kind? node = some (.element .attr)

/-- Among these children, place `i` is that of the anchor for the child at place `n`. -/
structure IsForemost (f : Forest) (children : List NodeId) (n i : Nat) : Prop where
  le : i ≤ n
  plain : ∀ node ∈ (children.take n).drop i, f.isAttr node = false
  stops : ∀ node, ((children.take i).filter fun child => !f.isTrivia child).getLast? = some node →
    f.isAttr node = true
  lands : i = n ∨ ∃ node, children[i]? = some node ∧ f.isTrivia node = false

variable {f : Forest} {tops : List Subtree} {children before after : List NodeId} {node : NodeId}
  {n i j : Nat}

theorem isAttr_eq_false_of_isTrivia (h : f.isTrivia node = true) : f.isAttr node = false := by
  rw [isAttr, decide_eq_false_iff_not]
  intro hkind
  rw [isTrivia, hkind] at h
  cases h

theorem isTrivia_eq_false_of_isAttr (h : f.isAttr node = true) : f.isTrivia node = false := by
  cases htrivia : f.isTrivia node with
  | false => rfl
  | true =>
    rw [isAttr_eq_false_of_isTrivia htrivia] at h
    cases h

theorem mem_between (h : children[i]? = some node) (hlt : i < n) : node ∈ (children.take n).drop i := by
  rw [List.mem_iff_getElem?]
  exact ⟨0, by rw [List.getElem?_drop, Nat.add_zero, List.getElem?_take_of_lt hlt, h]⟩

namespace IsForemost

/-- Of two places the later one would have an attribute between them, which the earlier one rules
out. -/
theorem not_lt (h : f.IsForemost children n i) (h' : f.IsForemost children n j) : ¬ i < j := by
  intro hlt
  have hjn := h'.le
  obtain ⟨node, hnode, htrivia⟩ := h.lands.resolve_left (by omega)
  have hmem : node ∈ ((children.take j).drop i).filter fun child => !f.isTrivia child := by
    rw [List.mem_filter, htrivia]
    exact ⟨mem_between hnode hlt, rfl⟩
  have hsplit : children.take j = children.take i ++ (children.take j).drop i := by
    have happend := (List.take_append_drop i (children.take j)).symm
    rwa [List.take_take, Nat.min_eq_left (Nat.le_of_lt hlt)] at happend
  -- the last child before the later place that carries meaning is not before the earlier one
  obtain ⟨front, last, hlast⟩ := (List.eq_nil_or_concat' _).resolve_left (List.ne_nil_of_mem hmem)
  have hstops := h'.stops last (by rw [hsplit, List.filter_append, hlast]; simp)
  have hin : last ∈ ((children.take j).drop i).filter fun child => !f.isTrivia child := by
    rw [hlast]
    simp
  have hbetween : last ∈ (children.take n).drop i := by
    apply List.Sublist.subset _ (List.mem_filter.mp hin).1
    exact (List.take_sublist_take_left hjn).drop i
  rw [h.plain last hbetween] at hstops
  cases hstops

theorem unique (h : f.IsForemost children n i) (h' : f.IsForemost children n j) : i = j := by
  have hij := h.not_lt h'
  have hji := h'.not_lt h
  omega

/-- A place that is right for a child that carries meaning and is no attribute is right for the next
child that carries meaning, and for all children up to that one. -/
theorem extend {front gap : List NodeId} (meant : f.isTrivia node = false)
    (noAttr : f.isAttr node = false) (trivia : ∀ child ∈ gap, f.isTrivia child = true)
    (h : f.IsForemost (front ++ node :: (gap ++ after)) front.length i) :
    f.IsForemost (front ++ node :: (gap ++ after)) (front ++ node :: gap).length i := by
  have hle := h.le
  have hlength : (front ++ node :: gap).length = front.length + (gap.length + 1) := by simp
  have hplain := h.plain
  rw [List.take_left] at hplain
  refine ⟨by omega, ?_, h.stops, ?_⟩
  · rw [← List.cons_append, ← List.append_assoc, List.take_left,
      List.drop_append_of_le_length hle]
    intro child hchild
    rcases List.mem_append.mp hchild with hchild | hchild
    · exact hplain child hchild
    · rcases List.mem_cons.mp hchild with rfl | hchild
      · exact noAttr
      · exact isAttr_eq_false_of_isTrivia (trivia child hchild)
  · rcases h.lands with rfl | hlands
    · exact .inr ⟨node, by simp, meant⟩
    · exact .inr hlands

/-- The place of a child itself is right if no child before it carries meaning, or the nearest that
does is an attribute. -/
theorem here (stops : ∀ last, (before.filter fun child => !f.isTrivia child).getLast? = some last →
    f.isAttr last = true) : f.IsForemost (before ++ node :: after) before.length before.length where
  le := Nat.le_refl _
  plain := by simp
  stops := by simpa using stops
  lands := .inl rfl

end IsForemost

/-! ## The way back -/

/-- Where the records of every link agree, the way back from a child ends at the right place, given
as many rounds as there are children before, and no broken link is met. -/
theorem Linked.exists_foremost (h : f.Linked) {parent : ElementId} : ∀ (fuel : Nat)
    {before after : List NodeId} {node : NodeId}, f.children parent = before ++ node :: after →
    before.length ≤ fuel → ∃ i anchor, f.backOverModifiers fuel node = pure anchor ∧
      (f.children parent)[i]? = some anchor ∧
      f.IsForemost (f.children parent) before.length i
  | 0, before, after, node, listed, room => by
    obtain rfl := List.length_eq_zero_iff.mp (Nat.le_zero.mp room)
    rw [listed]
    exact ⟨0, node, rfl, rfl, IsForemost.here (fun _ hlast => nomatch hlast)⟩
  | fuel + 1, before, after, node, listed, room => by
    rw [Forest.backOverModifiers, h.prevMeaningful listed, pure_bind]
    have hplace : (f.children parent)[before.length]? = some node := by
      rw [listed]
      simp
    cases hlast : (before.filter fun child => !f.isTrivia child).getLast? with
    | none =>
      refine ⟨before.length, node, rfl, hplace, ?_⟩
      rw [listed]
      exact IsForemost.here (by simp [hlast])
    | some last =>
      simp only
      split
      · rename_i hattr
        refine ⟨before.length, node, rfl, hplace, ?_⟩
        rw [listed]
        exact IsForemost.here (by simp [hlast, isAttr, hattr])
      · rename_i hattr
        obtain ⟨front, gap, rfl, meant, trivia⟩ := exists_split_of_getLast? hlast
        have listed' : f.children parent = front ++ last :: (gap ++ node :: after) := by
          rw [listed]
          simp
        rw [List.length_append, List.length_cons] at room
        obtain ⟨i, anchor, hback, hanchor, hforemost⟩ :=
          h.exists_foremost fuel listed' (by omega)
        refine ⟨i, anchor, hback, hanchor, ?_⟩
        rw [listed'] at hforemost ⊢
        exact hforemost.extend meant (by simp [isAttr, hattr]) trivia

/-! ## The anchor of a declaration -/

/-- From a node that hangs in an element the way back ends in that element. -/
theorem Linked.exists_anchor (h : f.Linked) {parent : ElementId} (hangs : f.parent? node = some parent) :
    ∃ anchor, f.backOverModifiers (f.siblingCount node) node = pure anchor ∧
      f.parent? anchor = some parent := by
  obtain ⟨before, after, listed⟩ := List.append_of_mem (h.mem_children_iff.mpr hangs)
  obtain ⟨i, anchor, hback, hanchor, -⟩ := h.exists_foremost (f.siblingCount node) listed
    (by rw [h.siblingCount listed]; simp)
  exact ⟨anchor, hback, h.mem_children_iff.mp (List.mem_of_getElem? hanchor)⟩

/-- The node that a visibility of a declaration is put before, if the declaration has a name. -/
def anchor? (f : Forest) (decl : ElementId) : Option NodeId :=
  (f.childElement? decl .name).map fun name =>
    (f.backOverModifiers (f.siblingCount (.element name)) (.element name)).value

/-- For a name in a declaration the anchor is found, and it hangs in the declaration too. -/
theorem MadeOf.anchorOf (h : f.MadeOf tops) {name decl : ElementId}
    (hname : f.childElement? decl .name = some name) :
    ∃ anchor, f.anchor? decl = some anchor ∧
      (f.anchorOf (.element name)).outcome.value = .ok anchor ∧ f.parent? anchor = some decl := by
  have hparent := h.parent?_childElement? hname
  obtain ⟨anchor, hback, hanchor⟩ := h.linked.exists_anchor hparent
  refine ⟨anchor, ?_, ?_, hanchor⟩
  · rw [anchor?, hname, Option.map_some, hback]
    rfl
  · rw [Forest.anchorOf, hparent, Attempt.value_ofLogged, hback]
    rfl

theorem MadeOf.parent?_anchor? (h : f.MadeOf tops) {decl : ElementId} {anchor : NodeId}
    (hanchor : f.anchor? decl = some anchor) : f.parent? anchor = some decl := by
  obtain ⟨name, hname, -⟩ := Option.map_eq_some_iff.mp hanchor
  obtain ⟨found, hfound, -, hhangs⟩ := h.anchorOf hname
  obtain rfl := Option.some.inj (hfound.symm.trans hanchor)
  exact hhangs

end DeclVisibility.Forest
