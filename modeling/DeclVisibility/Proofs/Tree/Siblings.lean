import DeclVisibility.Proofs.Tree.Links
import DeclVisibility.Tree.Basic

/-!
# Walks along siblings

Where the two records of every link agree, the walks along siblings read off the parent's child
list: the child before a node is the last of those before it (`Linked.prevSibling`), and the nearest
one that carries meaning is the last of those before it that are no trivia
(`Linked.prevMeaningful`). No walk meets a broken link, and none runs out of steps, since each step
leaves one child less before.
-/

namespace DeclVisibility.Forest

variable {f : Forest} {parent : ElementId} {before after : List NodeId} {node : NodeId}

/-! ## Places in a list of children -/

theorem exists_split_of_getElem? {children : List NodeId} {n : Nat} (h : children[n]? = some node) :
    ∃ before after, children = before ++ node :: after ∧ before.length = n := by
  obtain ⟨hlt, rfl⟩ := List.getElem?_eq_some_iff.mp h
  refine ⟨children.take n, children.drop (n + 1), ?_, List.length_take_of_le (Nat.le_of_lt hlt)⟩
  rw [← List.drop_eq_getElem_cons hlt, List.take_append_drop]

/-- The last child that carries meaning, and the trivia behind it. -/
theorem exists_split_of_getLast? (h : (before.filter fun child => !f.isTrivia child).getLast? =
    some node) : ∃ front gap, before = front ++ node :: gap ∧ f.isTrivia node = false ∧
      ∀ child ∈ gap, f.isTrivia child = true := by
  obtain ⟨others, hothers⟩ := List.getLast?_eq_some_iff.mp h
  obtain ⟨front, rest, rfl, -, hrest⟩ := List.filter_eq_append_iff.mp hothers
  obtain ⟨skipped, gap, rfl, -, hnode, hgap⟩ := List.filter_eq_cons_iff.mp hrest
  refine ⟨front ++ skipped, gap, by simp, by simpa using hnode, ?_⟩
  intro child hchild
  simpa using List.filter_eq_nil_iff.mp hgap child hchild

/-! ## The walks -/

namespace Linked

section Listed
variable (h : f.Linked) (listed : f.children parent = before ++ node :: after)
include h listed

theorem parent?_listed : f.parent? node = some parent := by
  rw [← h.mem_children_iff, listed]
  exact List.mem_append_right _ List.mem_cons_self

theorem siblingCount : f.siblingCount node = (before ++ node :: after).length := by
  rw [Forest.siblingCount, h.parent?_listed listed, ← listed]

theorem placeInParent? : f.placeInParent? node = pure (some (parent, before.length)) := by
  have hindex : (f.children parent).idxOf? node = some before.length := by
    have hnodup := h.nodup_children parent
    rw [listed, List.nodup_middle, List.nodup_cons, List.mem_append, not_or] at hnodup
    rw [listed, List.idxOf?_eq_some_iff]
    refine ⟨by simp, by simp, ?_⟩
    intro j hj heq
    rw [List.getElem_append_left hj] at heq
    exact hnodup.1.1 (heq ▸ List.getElem_mem hj)
  rw [Forest.placeInParent?, h.parent?_listed listed]
  simp only [hindex]

theorem prevSibling : f.prevSibling node = pure before.getLast? := by
  rw [Forest.prevSibling, h.placeInParent? listed, pure_bind]
  cases hlength : before.length with
  | zero =>
    rw [List.length_eq_zero_iff.mp hlength]
    rfl
  | succ n =>
    simp only
    rw [listed, List.getElem?_append_left (by omega), List.getLast?_eq_getElem?, hlength,
      Nat.add_sub_cancel]

end Listed

/-- From a child back, the nearest one that is no trivia. -/
theorem backOverTrivia (h : f.Linked) : ∀ (fuel : Nat) {before after : List NodeId} {node : NodeId},
    f.children parent = before ++ node :: after → before.length < fuel →
    f.backOverTrivia fuel node =
      pure ((before ++ [node]).filter fun child => !f.isTrivia child).getLast?
  | 0, _, _, _, _, room => absurd room (Nat.not_lt_zero _)
  | fuel + 1, before, after, node, listed, room => by
    rw [Forest.backOverTrivia, List.filter_append]
    cases htrivia : f.isTrivia node with
    | false => simp [htrivia]
    | true =>
      rw [if_pos rfl, h.prevSibling listed, pure_bind]
      rcases List.eq_nil_or_concat' before with rfl | ⟨before, child, rfl⟩
      · simp [htrivia]
      · rw [List.append_assoc, List.singleton_append] at listed
        rw [List.length_append, List.length_singleton] at room
        have hback := h.backOverTrivia fuel listed (by omega)
        simpa [htrivia] using hback

/-- The nearest child before another that is no trivia. -/
theorem prevMeaningful (h : f.Linked) (listed : f.children parent = before ++ node :: after) :
    f.prevMeaningful node = pure (before.filter fun child => !f.isTrivia child).getLast? := by
  rw [Forest.prevMeaningful, h.prevSibling listed, pure_bind]
  rcases List.eq_nil_or_concat' before with rfl | ⟨before, child, rfl⟩
  · rfl
  · rw [h.siblingCount listed]
    rw [List.append_assoc, List.singleton_append] at listed
    have hback := h.backOverTrivia (before ++ [child] ++ node :: after).length listed (by simp)
    simpa using hback

end Linked

end DeclVisibility.Forest
