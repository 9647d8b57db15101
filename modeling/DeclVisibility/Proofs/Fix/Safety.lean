import DeclVisibility.Proofs.Fix.Offer
import DeclVisibility.Proofs.Reports

/-!
# Fixes break nothing

Reading a visibility and offering a fix report no broken link. Applying a fix to a tree that holds
its declaration succeeds, with a name in the declaration or without (`Fix.succeeds_invoke`): the
name hangs in the declaration, the way back from it meets no broken link and ends at an anchor that
hangs there too, and what is put before it is new.
-/

namespace DeclVisibility

namespace Forest

/-! ## Visibilities and offers -/

theorem clean_visibilityOf (f : Forest) (decl : ElementId) : (f.visibilityOf decl).Clean := by
  rw [visibilityOf]
  split
  · exact .pure _
  · rw [Visibility.ofTokens]
    generalize List.drop 1 _ = tokens
    cases tokens with
    | nil => exact .pure _
    | cons first rest =>
      -- a kind that no restriction starts with is reported, which is no breach
      rw [Restriction.ofTokens]
      split
      · exact .pure _
      · exact .pure _
      · exact .pure _
      · exact .pure _
      · exact (Logged.Clean.report rfl).bind (.pure _)

theorem clean_offerFix (f : Forest) (decl : ElementId) (name? : Option String) (scope : Scope)
    (origin? : Option Origin) : (f.offerFix decl name? scope origin?).Clean := by
  rw [offerFix]
  split
  · refine (f.clean_visibilityOf decl).bind ?_
    split <;> exact .pure _
  · exact .pure _

end Forest

/-! ## Applying a fix -/

/-- A fix can be applied to a tree that holds its declaration without breaking anything. -/
theorem Fix.succeeds_invoke (fix : Fix) {t : Tree} {s : Subtree} (h : t.ReadsAs s)
    (held : t.holds (.element fix.decl) = true) : (fix.invoke t).Succeeds := by
  rw [invoke, if_pos held, write]
  split
  · refine .bind (.ofLogged (.report rfl)) fun _ _ => .pure _
  · rename_i name hname
    have hparent := h.madeOf.parent?_childElement? hname
    obtain ⟨anchor, -, hanchor, hhangs⟩ := h.madeOf.anchorOf hname
    refine .bind ?_ fun found hfound => ?_
    · obtain ⟨_, hback, -⟩ := h.madeOf.linked.exists_anchor hparent
      rw [Forest.anchorOf, hparent]
      simp only [hback]
      exact .ofLogged (.pure _)
    · obtain rfl := Except.ok.inj (hanchor.symm.trans hfound)
      split
      · exact .pure _
      · obtain ⟨w, g, _, _, -, hinsert, -⟩ := h.insertVisibility hhangs fix.scope
        rw [if_pos hhangs]
        exact .bind (.ofExcept ⟨_, hinsert⟩) fun _ _ => .pure _

end DeclVisibility
