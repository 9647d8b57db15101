import DeclVisibility.Proofs.Exchange.Loading
import DeclVisibility.Proofs.Fix.Anchor
import Mathlib.Data.List.DropRight

/-!
# The place of the anchor

For a child that carries meaning, the place of its anchor is computed from the last attribute before
it (`Forest.foremostIndex`, `IsForemost.computed`). For every child the anchor is found at the one
right place (`Linked.anchorOf_foremost`).
-/

namespace DeclVisibility

namespace Forest

variable {f : Forest} {children before after : List NodeId} {node : NodeId} {n i j : Nat}

/-! ## The place, computed -/

/-- The place just after the last attribute among children. -/
def attrsEnd (f : Forest) (children : List NodeId) : Nat :=
  (children.rdropWhile fun child => !f.isAttr child).length

/-- The place of the first child that carries meaning, from a place on. -/
def meantFrom (f : Forest) (children : List NodeId) (start : Nat) : Nat :=
  start + ((children.drop start).takeWhile f.isTrivia).length

/-- The place of the first child that carries meaning after the last attribute before place `n`. -/
def foremostIndex (f : Forest) (children : List NodeId) (n : Nat) : Nat :=
  f.meantFrom children (f.attrsEnd (children.take n))

/-- Children end with an attribute up to the last one, and with none behind it. -/
theorem exists_split_attrsEnd (f : Forest) (children : List NodeId) :
    ∃ front back, children = front ++ back ∧ front.length = f.attrsEnd children ∧
      (∀ last, front.getLast? = some last → f.isAttr last = true) ∧
      ∀ child ∈ back, f.isAttr child = false := by
  refine ⟨children.rdropWhile fun child => !f.isAttr child,
    children.rtakeWhile fun child => !f.isAttr child, ?_, rfl, ?_, ?_⟩
  · rw [List.rdropWhile, List.rtakeWhile, ← List.reverse_append, List.takeWhile_append_dropWhile,
      List.reverse_reverse]
  · intro last hlast
    have hne : children.rdropWhile (fun child => !f.isAttr child) ≠ [] := by
      intro hnil
      rw [hnil] at hlast
      cases hlast
    rw [List.getLast?_eq_some_getLast hne] at hlast
    obtain rfl := Option.some.inj hlast
    simpa using List.rdropWhile_last_not _ _ hne
  · intro child hchild
    simpa using List.mem_rtakeWhile_imp hchild

/-- After children that end with an attribute come trivia, then children that don't start with
trivia and among which is no attribute: so these children start at the right place. -/
theorem IsForemost.of_split {front gap rest : List NodeId}
    (ends : ∀ last, front.getLast? = some last → f.isAttr last = true)
    (trivia : ∀ child ∈ gap, f.isTrivia child = true)
    (meant : ∀ child, rest.head? = some child → f.isTrivia child = false)
    (noAttr : ∀ child ∈ rest, f.isAttr child = false) :
    f.IsForemost (front ++ gap ++ (rest ++ node :: after)) (front ++ gap ++ rest).length
      (front ++ gap).length where
  le := by simp
  plain := by
    rw [← List.append_assoc, List.take_left, List.drop_left]
    exact noAttr
  stops := by
    have hgap : (gap.filter fun child => !f.isTrivia child) = [] := by
      rw [List.filter_eq_nil_iff]
      intro child hchild
      simp [trivia child hchild]
    rw [List.take_left, List.filter_append, hgap, List.append_nil]
    rcases List.eq_nil_or_concat' front with rfl | ⟨others, attr, rfl⟩
    · exact fun _ hlast => nomatch hlast
    · -- the attribute carries meaning, so it is the last one that does
      have hattr := ends attr (by simp)
      rw [List.filter_append, List.filter_cons_of_pos
        (by simp [isTrivia_eq_false_of_isAttr hattr])]
      intro last hlast
      rw [List.filter_nil, List.getLast?_concat] at hlast
      exact Option.some.inj hlast ▸ hattr
  lands := by
    cases rest with
    | nil => exact .inl (by simp)
    | cons first rest => exact .inr ⟨first, by simp, meant first rfl⟩

/-- The computed place is the right one for a child that carries meaning. -/
theorem IsForemost.computed (placed : children[n]? = some node) (meant : f.isTrivia node = false) :
    f.IsForemost children n (f.foremostIndex children n) := by
  obtain ⟨before, after, rfl, rfl⟩ := exists_split_of_getElem? placed
  obtain ⟨front, back, rfl, hlength, ends, noAttr⟩ := f.exists_split_attrsEnd before
  have hback := List.takeWhile_append_dropWhile (p := f.isTrivia) (l := back)
  -- the child carries meaning, so the trivia end before it
  have hgap : (back ++ node :: after).takeWhile f.isTrivia = back.takeWhile f.isTrivia := by
    rw [List.takeWhile_append, List.takeWhile_cons_of_neg (by simp [meant]), List.append_nil]
    split
    · rename_i hall
      exact ((List.takeWhile_prefix f.isTrivia).eq_of_length hall).symm
    · rfl
  have hindex : f.foremostIndex (front ++ back ++ node :: after) (front ++ back).length =
      (front ++ back.takeWhile f.isTrivia).length := by
    rw [foremostIndex, meantFrom, List.take_left, ← hlength, List.append_assoc, List.drop_left,
      hgap, List.length_append]
  have hmeant : ∀ child, (back.dropWhile f.isTrivia).head? = some child →
      f.isTrivia child = false := by
    intro child hchild
    have hhead := List.head?_dropWhile_not f.isTrivia back
    rwa [hchild] at hhead
  have htrivia : ∀ child ∈ back.takeWhile f.isTrivia, f.isTrivia child = true :=
    fun _ hchild => List.mem_takeWhile_imp hchild
  have hnoAttr : ∀ child ∈ back.dropWhile f.isTrivia, f.isAttr child = false := fun child hchild =>
    noAttr child ((List.dropWhile_sublist f.isTrivia).subset hchild)
  have hsplit : f.IsForemost (front ++ back.takeWhile f.isTrivia ++
      (back.dropWhile f.isTrivia ++ node :: after)) _ (front ++ back.takeWhile f.isTrivia).length :=
    IsForemost.of_split ends htrivia hmeant hnoAttr
  rw [← List.append_assoc, List.append_assoc front, hback] at hsplit
  rw [hindex]
  exact hsplit

/-! ## The anchor -/

/-- For a child of an element the anchor is found without a fault and without a report, at the one
right place. The way back has ended there after as many rounds as there are children before,
whatever is left of the rounds that it was given. From a child that carries meaning and is no
attribute it leads to such a child. -/
theorem Linked.anchorOf_foremost (h : f.Linked) {parent : ElementId}
    (placed : (f.children parent)[n]? = some node) :
    ∃ i anchor, (f.anchorOf node).outcome = pure (.ok anchor) ∧
      (f.children parent)[i]? = some anchor ∧ f.IsForemost (f.children parent) n i ∧
      (∀ j, f.IsForemost (f.children parent) n j → j = i) ∧
      (∀ fuel, n ≤ fuel → f.backOverModifiers fuel node = pure anchor) ∧
      (f.isTrivia node = false → f.isAttr node = false →
        f.isTrivia anchor = false ∧ f.isAttr anchor = false) := by
  obtain ⟨before, after, listed, rfl⟩ := exists_split_of_getElem? placed
  obtain ⟨i, anchor, -, hanchor, hforemost⟩ := h.exists_foremost _ listed (Nat.le_refl _)
  have hfuel : ∀ fuel, before.length ≤ fuel → f.backOverModifiers fuel node = pure anchor := by
    intro fuel room
    obtain ⟨j, other, hback, hother, hforemost'⟩ := h.exists_foremost fuel listed room
    obtain rfl := hforemost.unique hforemost'
    rw [hback, Option.some.inj (hother.symm.trans hanchor)]
  refine ⟨i, anchor, ?_, hanchor, hforemost, fun j hj => hj.unique hforemost, hfuel, ?_⟩
  · rw [anchorOf, h.parent?_listed listed]
    simp only
    rw [Attempt.outcome_ofLogged, hfuel _ (by rw [h.siblingCount listed]; simp)]
    rfl
  · intro meant noAttr
    rcases Nat.lt_or_eq_of_le hforemost.le with hlt | rfl
    · obtain ⟨other, hother, htrivia⟩ := hforemost.lands.resolve_left hlt.ne
      obtain rfl := Option.some.inj (hanchor.symm.trans hother)
      exact ⟨htrivia, hforemost.plain anchor (mem_between hanchor hlt)⟩
    · obtain rfl := Option.some.inj (placed.symm.trans hanchor)
      exact ⟨meant, noAttr⟩

end Forest

/-- A function with an attribute, two modifiers and a comment before its name. -/
def Draft.modified : Draft :=
  .element .fnItem [.element .attr [.token .other (some "#[inline]")], .token .space (some " "),
    .token (.keyword .unsafeKw) none, .token .comment (some "/**/"), .token (.keyword .fnKw) none,
    .token .space (some " "), .element .name [.token .ident (some "f")]]

/-- The anchor is the first modifier, which stands behind the attribute and a blank. -/
theorem Forest.Linked.anchorOf_foremost_sample : ∃ t : Tree, Draft.modified.load = .ok (.ok t) ∧
    t.Linked ∧ (t.children ⟨2⟩)[6]? = some (.element ⟨1⟩) ∧
    (t.anchorOf (.element ⟨1⟩)).outcome = pure (.ok (.token ⟨2⟩)) ∧
    t.IsForemost (t.children ⟨2⟩) 6 2 := by
  have hload : ∃ t : Tree, Draft.modified.load = .ok (.ok t) ∧
      decide ((t.children ⟨2⟩)[6]? = some (.element ⟨1⟩) ∧
        (t.children ⟨2⟩)[2]? = some (.token ⟨2⟩) ∧ t.isTrivia (.element ⟨1⟩) = false ∧
        t.foremostIndex (t.children ⟨2⟩) 6 = 2) = true :=
    Draft.exists_loaded (by decide +kernel)
  obtain ⟨t, hload, hseen⟩ := hload
  obtain ⟨hname, hmodifier, meant, hindex⟩ := of_decide_eq_true hseen
  obtain ⟨s, hreads⟩ := Draft.readsAs_of_load hload
  have linked := hreads.madeOf.linked
  obtain ⟨i, anchor, houtcome, hanchor, hforemost, unique, -, -⟩ := linked.anchorOf_foremost hname
  have hcomputed := hindex ▸ Forest.IsForemost.computed hname meant
  obtain rfl := unique 2 hcomputed
  obtain rfl := Option.some.inj (hmodifier.symm.trans hanchor)
  exact ⟨t, hload, linked, hname, houtcome, hforemost⟩

end DeclVisibility
