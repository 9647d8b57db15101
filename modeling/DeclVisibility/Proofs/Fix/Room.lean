import DeclVisibility.Proofs.Exchange.Bulk
import DeclVisibility.Proofs.Fix.Starts
import DeclVisibility.Proofs.Tree.Walk
import Mathlib.Data.Finset.Card

/-!
# Room for what fixes write

A fix writes at most eleven bytes, into a declaration that awaits a visibility and from then on has
one. The visibility itself is a new element, but it has no name and awaits nothing. So the bytes of
a text, with eleven more for each element that awaits a visibility, never become more by a fix
(`Fix.Inserts.fullSize_le`). For a tree that was just loaded they are no more than its draft takes
up in the text that it was read from (`Draft.fullSize_of_events`).
-/

namespace DeclVisibility

/-! ## What a loaded tree takes up -/

namespace Draft

theorem bulkOfAll_eq : ∀ ds : List Draft, bulkOfAll ds = Json.totalCost bulk ds
  | [] => rfl
  | d :: rest => by rw [bulkOfAll, bulkOfAll_eq rest, Json.totalCost]

/-- Writing out the spellings of a draft changes nothing in what it takes up. -/
theorem bulk_writtenOut (d : Draft) : d.writtenOut.bulk = d.bulk := by
  induction d with
  | token kind text? => rw [writtenOut, bulk, bulk, Option.getD_some]
  | element kind children ih =>
    rw [writtenOut_element, bulk, bulk, bulkOfAll_eq, bulkOfAll_eq]
    congr 1
    induction children with
    | nil => rfl
    | cons c rest ihr =>
      rw [List.map_cons, Json.totalCost, Json.totalCost, ih c List.mem_cons_self,
        ihr fun d hd => ih d (List.mem_cons_of_mem c hd)]

end Draft

/-- The draft of a nested value takes up the bytes of its text and eleven for each element. -/
theorem Subtree.bulk_draft (s : Subtree) :
    s.draft.bulk = s.text.utf8ByteSize + 11 * s.elements.length := by
  induction s with
  | token leaf =>
    rw [draft_token, Draft.bulk, Option.getD_some, elements_token, text, leaves_token]
    simp [textOfLeaves]
  | element id kind children ih =>
    rw [draft_element, Draft.bulk, Draft.bulkOfAll_eq, elements_element, text, leaves_element,
      List.length_cons, Nat.mul_succ, ← Nat.add_assoc]
    congr 1
    induction children with
    | nil => rfl
    | cons c rest ihr =>
      have hrest := ihr fun d hd => ih d (List.mem_cons_of_mem c hd)
      have hc := ih c List.mem_cons_self
      rw [text] at hc
      rw [List.map_cons, Json.totalCost, List.flatMap_cons, List.flatMap_cons,
        textOfLeaves_append, String.utf8ByteSize_append, List.length_append]
      omega

/-! ## Elements that await a visibility -/

namespace Forest

/-- The elements into which a visibility can still be written. -/
def awaiting (f : Forest) : Finset Nat :=
  (Finset.range f.elements.size).filter fun n =>
    f.childElement? ⟨n⟩ .vis = none ∧ (f.childElement? ⟨n⟩ .name).isSome

theorem mem_awaiting {f : Forest} {n : Nat} : n ∈ f.awaiting ↔ f.Awaits ⟨n⟩ := by
  rw [awaiting, Finset.mem_filter, Finset.mem_range]
  constructor
  · rintro ⟨-, unwritten, named⟩
    exact ⟨unwritten, named⟩
  · intro h
    exact ⟨of_decide_eq_true h.held, h.unwritten, h.named⟩

theorem card_awaiting_le (f : Forest) : f.awaiting.card ≤ f.elements.size := by
  have hle := Finset.card_filter_le (Finset.range f.elements.size) fun n =>
    f.childElement? ⟨n⟩ .vis = none ∧ (f.childElement? ⟨n⟩ .name).isSome
  rwa [Finset.card_range] at hle

end Forest

/-- The bytes that the text can come to by fixes. -/
def Tree.fullSize (t : Tree) : Nat := t.text.utf8ByteSize + 11 * t.awaiting.card

/-- A tree that was loaded cannot come to more bytes than its draft takes up. -/
theorem Tree.ReadsAs.fullSize_le {t : Tree} {s : Subtree} (h : t.ReadsAs s) :
    t.fullSize ≤ s.draft.bulk := by
  have hnumbers := h.madeOf.numbers.length_eq
  rw [List.flatMap_singleton, List.length_map, List.length_range] at hnumbers
  have hcard := t.card_awaiting_le
  rw [fullSize, Subtree.bulk_draft, h.text]
  omega

/-- A draft is loaded as a tree that cannot come to more bytes than the draft takes up. -/
theorem Draft.fullSize_of_events {d : Draft} {events : List Event} {t : Tree}
    (hevents : d.events = .ok events) (htree : Tree.ofEvents events = .ok t) :
    t.fullSize ≤ d.bulk := by
  obtain ⟨built, sub, hbuilt, hsub, hdraft⟩ := Tree.exists_of_events hevents
  obtain rfl := Except.ok.inj (hbuilt.symm.trans htree)
  rw [← d.bulk_writtenOut, ← hdraft]
  exact hsub.fullSize_le

/-! ## A fix takes the room that it needs -/

theorem Scope.utf8ByteSize_written_le (scope : Scope) : scope.written.utf8ByteSize ≤ 11 := by
  cases scope <;> decide

namespace Fix.Inserts

variable {fix : Fix} {t t' : Tree} {s : Subtree} {w : Inset}

/-- An element of the tree that a fix leaves is an old one or the visibility. -/
theorem held_or_vis (h : fix.Inserts t s w t') (readsAs : t.ReadsAs s) {id : ElementId}
    (held : t'.holds (.element id) = true) : t.holds (.element id) = true ∨ id = w.vis := by
  have hanchor : w.anchor ∈ s.nodes :=
    readsAs.holds_iff.mp (Forest.holds_of_parent? (h.parent? readsAs))
  obtain ⟨l, r, hsplit⟩ := List.append_of_mem hanchor
  have hmem := h.readsAs.holds_iff.mp held
  rw [h.nodes_publish readsAs hsplit] at hmem
  rw [readsAs.holds_iff, hsplit]
  rcases List.mem_append.mp hmem with hmem | hold
  · rcases List.mem_append.mp hmem with hold | hnew
    · exact .inl (List.mem_append_left _ hold)
    · -- among the new nodes, all but the visibility are tokens
      simp only [Inset.visibility, Inset.space, Subtree.nodes_element, Subtree.nodes_token,
        List.flatMap_map, List.mem_append, List.mem_cons, List.mem_flatMap] at hnew
      rcases hnew with (hvis | ⟨_, -, htoken⟩) | htoken
      · exact .inr (NodeId.element.inj hvis)
      · simp at htoken
      · simp at htoken
  · exact .inl (List.mem_append_right _ hold)

/-- The visibility has tokens below it and no name. -/
theorem childElement?_vis (h : fix.Inserts t s w t') (readsAs : t.ReadsAs s) :
    t'.childElement? w.vis .name = none := by
  have hplaced := (readsAs.new_placed (h.parent? readsAs) (h.anchor_fresh readsAs)).1
  rw [← Option.not_isSome_iff_eq_none]
  intro hname
  obtain ⟨c, hc, hkind⟩ :=
    (h.readsAs.madeOf.childElement?_isSome List.mem_cons_self hplaced).mp hname
  obtain ⟨leaf, -, rfl⟩ := List.mem_map.mp hc
  cases hkind

/-- The declaration awaits no visibility any more, and no other element does that did not. -/
theorem awaiting_subset (h : fix.Inserts t s w t') (readsAs : t.ReadsAs s)
    (unwritten : t.childElement? fix.decl .vis = none) :
    t'.awaiting ⊆ t.awaiting.erase fix.decl.num := by
  intro n hn
  rw [Forest.mem_awaiting] at hn
  rw [Finset.mem_erase, Forest.mem_awaiting]
  have hwritten : t'.childElement? fix.decl .vis = some w.vis :=
    readsAs.childElement?_publish h.readsAs (h.parent? readsAs) (h.anchor_fresh readsAs) unwritten
  have hne : (⟨n⟩ : ElementId) ≠ fix.decl := by
    intro heq
    have hnone := hn.unwritten
    rw [heq, hwritten] at hnone
    cases hnone
  refine ⟨fun hnum => hne (ElementId.num_inj.mp hnum), ?_⟩
  rcases h.held_or_vis readsAs hn.held with held | hvis
  · have hsame := h.agreeAt readsAs held hne
    exact ⟨(hsame.childElement? .vis).symm.trans hn.unwritten,
      (congrArg Option.isSome (hsame.childElement? .name)).symm.trans hn.named⟩
  · have hname := hn.named
    rw [hvis, h.childElement?_vis readsAs] at hname
    cases hname

/-- The text grows by what the fix writes. -/
theorem utf8ByteSize_text (h : fix.Inserts t s w t') (readsAs : t.ReadsAs s) :
    t'.text.utf8ByteSize = t.text.utf8ByteSize + fix.scope.written.utf8ByteSize := by
  have hanchor : w.anchor ∈ s.nodes :=
    readsAs.holds_iff.mp (Forest.holds_of_parent? (h.parent? readsAs))
  obtain ⟨l, r, hsplit⟩ := List.append_of_mem hanchor
  obtain ⟨before, rest, -, -, hold, hnew⟩ := h.leaves_publish readsAs hsplit
  rw [h.readsAs.text, readsAs.text, Subtree.text, Subtree.text, hold, hnew]
  simp only [Subtree.textOfLeaves_append, String.utf8ByteSize_append, h.writes.written]
  omega

/-- By a fix, a tree can come to no more bytes than before. -/
theorem fullSize_le (h : fix.Inserts t s w t') (readsAs : t.ReadsAs s)
    (unwritten : t.childElement? fix.decl .vis = none)
    (named : (t.childElement? fix.decl .name).isSome) : t'.fullSize ≤ t.fullSize := by
  have hdecl : fix.decl.num ∈ t.awaiting := Forest.mem_awaiting.mpr ⟨unwritten, named⟩
  have hcard := Finset.card_le_card (h.awaiting_subset readsAs unwritten)
  have hpos := Finset.card_pos.mpr ⟨_, hdecl⟩
  have hwritten := fix.scope.utf8ByteSize_written_le
  rw [Finset.card_erase_of_mem hdecl] at hcard
  rw [Tree.fullSize, Tree.fullSize, h.utf8ByteSize_text readsAs]
  omega

end Fix.Inserts

end DeclVisibility
