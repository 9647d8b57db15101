import DeclVisibility.Proofs.Fix.Frame
import DeclVisibility.Proofs.Tree.Order

/-!
# Where everything starts after a fix

Where a node starts is told by the tokens among the nodes before it
(`Subtree.leavesBefore?_of_split`). A fix puts its new nodes directly before the anchor and leaves
the order of the others alone (`Fix.Inserts.nodes_publish`). So the nodes before the anchor start
where they did (`Fix.Inserts.offsetOf?_early`), and every other node is moved by what is written
(`Fix.Inserts.offsetOf?_late`).
-/

namespace DeclVisibility

namespace Subtree

variable {s : Subtree} {anchor node : NodeId} {new : Subtree} {l r : List NodeId}

/-! ## The order of the nodes -/

/-- Planting keeps the order of the old nodes. -/
theorem nodes_sublist_plant (s : Subtree) : s.nodes.Sublist (s.plant anchor new).nodes := by
  induction s with
  | token leaf =>
    rw [plant_token]
  | element id kind children ih =>
    rw [plant_element, nodes_element, nodes_element]
    refine List.Sublist.cons_cons _ ?_
    induction children with
    | nil => exact List.nil_sublist _
    | cons c rest ihr =>
      have hc := ih c List.mem_cons_self
      have hrest := ihr fun d hd => ih d (List.mem_cons_of_mem c hd)
      rw [plantAll]
      split
      · rw [List.flatMap_cons, List.flatMap_cons, List.flatMap_cons]
        exact (hc.append hrest).trans (List.sublist_append_right _ _)
      · rw [List.flatMap_cons, List.flatMap_cons]
        exact hc.append hrest

/-- The new nodes come directly before the anchor. -/
theorem nodes_plant_split (nodup : s.nodes.Nodup) (hne : s.id ≠ anchor)
    (h : s.nodes = l ++ anchor :: r) :
    (s.plant anchor new).nodes = l ++ new.nodes ++ anchor :: r := by
  have hmem : anchor ∈ s.nodes := h ▸ List.mem_append_right _ List.mem_cons_self
  have hsplit : ∃ l r, s.nodes = l ++ anchor :: r ∧
      (s.plant anchor new).nodes = l ++ new.nodes ++ anchor :: r := by
    refine descend (motive := fun s => ∃ l r, s.nodes = l ++ anchor :: r ∧
      (s.plant anchor new).nodes = l ++ new.nodes ++ anchor :: r) ?_ ?_ nodup hmem hne
    · intro id kind before c after _ htop hcn hbefore hafter
      obtain ⟨below, hbelow⟩ : ∃ below, c.nodes = anchor :: below := by
        cases c <;> simp_all
      refine ⟨.element id :: before.flatMap nodes, below ++ after.flatMap nodes, ?_, ?_⟩
      · simp [hbelow]
      · simp [plantAll_split hbefore hafter, htop, plant_self hcn htop, hbelow]
    · rintro id kind before c after - htop - hbefore hafter ⟨l, r, hold, hnew⟩
      refine ⟨.element id :: before.flatMap nodes ++ l, r ++ after.flatMap nodes, ?_, ?_⟩
      · simp [hold]
      · simp [plantAll_split hbefore hafter, htop, hnew]
  obtain ⟨l', r', hold, hnew⟩ := hsplit
  rw [hold] at nodup h
  obtain ⟨rfl, rfl⟩ := split_unique nodup h
  exact hnew

end Subtree

/-! ## After a fix -/

namespace Fix.Inserts

variable {fix : Fix} {t t' : Tree} {s : Subtree} {w : Inset} {l r : List NodeId} {node : NodeId}

theorem nodup_plant (h : fix.Inserts t s w t') : (s.plant w.anchor w.visibility).nodes.Nodup :=
  h.readsAs.nodup.sublist (Subtree.nodes_sublist_plant _)

/-- The anchor hangs in the declaration, so it is not the root. -/
theorem id_ne_anchor (h : fix.Inserts t s w t') (readsAs : t.ReadsAs s) : s.id ≠ w.anchor := by
  intro heq
  have hparent := h.parent? readsAs
  rw [← heq, readsAs.carries.parent?] at hparent
  cases hparent

/-- The new nodes come directly before the anchor, and the order of the others stays. -/
theorem nodes_publish (h : fix.Inserts t s w t') (readsAs : t.ReadsAs s)
    (hsplit : s.nodes = l ++ w.anchor :: r) :
    (s.publish w).nodes = l ++ (w.visibility.nodes ++ w.space.nodes) ++ w.anchor :: r := by
  have hfirst : (s.plant w.anchor w.visibility).nodes = l ++ w.visibility.nodes ++ w.anchor :: r :=
    Subtree.nodes_plant_split readsAs.nodup (h.id_ne_anchor readsAs) hsplit
  rw [Subtree.publish, Subtree.nodes_plant_split h.nodup_plant
    (by rw [Subtree.id_plant]; exact h.id_ne_anchor readsAs) hfirst,
    List.append_assoc l]

/-- The tokens before the anchor, and all tokens before and after the fix. -/
theorem leaves_publish (h : fix.Inserts t s w t') (readsAs : t.ReadsAs s)
    (hsplit : s.nodes = l ++ w.anchor :: r) : ∃ before rest,
    s.leavesBefore? w.anchor = some before ∧ before.length = Subtree.countTokens l ∧
      s.leaves = before ++ rest ∧
      (s.publish w).leaves = before ++ (w.leaves ++ w.space.leaves) ++ rest := by
  have hbefore := Subtree.leavesBefore?_of_split readsAs.nodup hsplit
  obtain ⟨rest, hold, hnew⟩ := Subtree.leaves_publish w readsAs.nodup h.nodup_plant
    (h.id_ne_anchor readsAs) (h.anchor_fresh readsAs) hbefore
  refine ⟨_, rest, hbefore, ?_, hold, ?_⟩
  · have hcount := Subtree.countTokens_nodes s
    rw [hsplit, Subtree.countTokens_append] at hcount
    rw [List.length_take]
    omega
  · rw [hnew]
    simp

/-- A node before the anchor starts where it did. -/
theorem offsetOf?_early (h : fix.Inserts t s w t') (readsAs : t.ReadsAs s)
    (hsplit : s.nodes = l ++ w.anchor :: r) (hnode : node ∈ l) :
    t'.offsetOf? node = t.offsetOf? node := by
  obtain ⟨before, rest, -, hlength, hold, hnew⟩ := h.leaves_publish readsAs hsplit
  have hnodes := h.nodes_publish readsAs hsplit
  obtain ⟨l, m, rfl⟩ := List.append_of_mem hnode
  rw [List.append_assoc, List.cons_append] at hsplit
  simp only [List.append_assoc, List.cons_append] at hnodes
  rw [Subtree.countTokens_append] at hlength
  have hshort : Subtree.countTokens l ≤ before.length := by omega
  rw [readsAs.offsetOf?_eq, h.readsAs.offsetOf?_eq,
    Subtree.leavesBefore?_of_split readsAs.nodup hsplit,
    Subtree.leavesBefore?_of_split h.readsAs.nodup hnodes, hold, hnew, List.append_assoc,
    List.take_append_of_le_length hshort, List.take_append_of_le_length hshort]

/-- Any other node is moved by what is written, and the text around it stays. -/
theorem offsetOf?_late (h : fix.Inserts t s w t') (readsAs : t.ReadsAs s)
    (hsplit : s.nodes = l ++ w.anchor :: r) (hnode : node ∈ w.anchor :: r) :
    ∃ before between after, t.offsetOf? w.anchor = some (.ofString before) ∧
      t.text = before ++ between ++ after ∧
      t'.text = before ++ fix.scope.written ++ between ++ after ∧
      t.offsetOf? node = some (.ofString (before ++ between)) ∧
      t'.offsetOf? node = some (.ofString (before ++ fix.scope.written ++ between)) := by
  obtain ⟨before, rest, hanchor, hlength, hold, hnew⟩ := h.leaves_publish readsAs hsplit
  have hnodes := h.nodes_publish readsAs hsplit
  obtain ⟨m, r, hm⟩ := List.append_of_mem hnode
  rw [hm, ← List.append_assoc] at hsplit hnodes
  have htokens : Subtree.countTokens (w.visibility.nodes ++ w.space.nodes) =
      (w.leaves ++ w.space.leaves).length := by
    rw [Subtree.countTokens_append, Subtree.countTokens_nodes, Subtree.countTokens_nodes,
      w.leaves_visibility, List.length_append]
  have hrest : Subtree.textOfLeaves rest =
      Subtree.textOfLeaves (rest.take (Subtree.countTokens m)) ++
        Subtree.textOfLeaves (rest.drop (Subtree.countTokens m)) := by
    rw [← Subtree.textOfLeaves_append, List.take_append_drop]
  refine ⟨Subtree.textOfLeaves before, Subtree.textOfLeaves (rest.take (Subtree.countTokens m)),
    Subtree.textOfLeaves (rest.drop (Subtree.countTokens m)), ?_, ?_, ?_, ?_, ?_⟩
  · rw [readsAs.offsetOf?_eq, hanchor, Option.map_some]
  · rw [readsAs.text, Subtree.text, hold, Subtree.textOfLeaves_append, hrest, String.append_assoc]
  · rw [h.readsAs.text, Subtree.text, hnew, Subtree.textOfLeaves_append,
      Subtree.textOfLeaves_append, h.writes.written, hrest]
    simp only [String.append_assoc]
  · rw [readsAs.offsetOf?_eq, Subtree.leavesBefore?_of_split readsAs.nodup hsplit, Option.map_some,
      Subtree.countTokens_append, ← hlength, hold, List.take_length_add_append,
      Subtree.textOfLeaves_append]
  · rw [h.readsAs.offsetOf?_eq, Subtree.leavesBefore?_of_split h.readsAs.nodup hnodes,
      Option.map_some, Subtree.countTokens_append, Subtree.countTokens_append, ← hlength, htokens,
      ← List.length_append, hnew, List.take_length_add_append, Subtree.textOfLeaves_append,
      Subtree.textOfLeaves_append, h.writes.written]

end Fix.Inserts

end DeclVisibility
