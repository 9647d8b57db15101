import DeclVisibility.Proofs.Fix.Insertion

/-!
# When a fix is offered

A fix is offered exactly for a declaration that can carry a visibility, is private and may be made
public (`Forest.offerFix_eq_some`). Once a visibility stands in the declaration, none is offered.
What does not depend on a visibility or on a package (`Forest.Suits`) no fix can change, neither its
own nor one for another declaration (`Fix.Wrote.suits`).
-/

namespace DeclVisibility

namespace Forest

variable {f : Forest} {decl : ElementId} {name? : Option String} {scope : Scope}
  {origin? : Option Origin}

/-- A declaration that visibilities are written for: of a kind that carries one, neither a variant
nor a member of a trait, and with a name. -/
structure Suits (f : Forest) (decl : ElementId) : Prop where
  visible : (f.elementKind? decl).any ElementKind.isVisibleDecl = true
  notVariant : f.elementKind? decl ≠ some .enumVariant
  notInTrait : f.grandparentKind? decl ≠ some .traitItem
  named : (f.childElement? decl .name).isSome

/-- All that has to hold of a declaration for a fix to be offered. -/
structure Offers (f : Forest) (decl : ElementId) (origin? : Option Origin) : Prop
    extends f.Suits decl where
  isPrivate : (f.visibilityOf decl).value.isPrivate = true
  fromWorkspace : origin? = some .workspace

theorem offerFix_eq_some {fix : Fix} :
    (f.offerFix decl name? scope origin?).value = some fix ↔
      f.Offers decl origin? ∧ fix = ⟨decl, Fix.titleFor name?, scope⟩ := by
  have hguard : f.Offers decl origin? ↔
      (f.elementKind? decl).any ElementKind.isVisibleDecl = true ∧
        ((f.visibilityOf decl).value.isPrivate && f.isFixable decl origin?) = true := by
    simp only [isFixable, Bool.and_eq_true, bne_iff_ne, beq_iff_eq]
    constructor
    · intro h
      exact ⟨h.visible, h.isPrivate, ⟨⟨h.notVariant, h.notInTrait⟩, h.fromWorkspace⟩, h.named⟩
    · rintro ⟨visible, isPrivate, ⟨⟨notVariant, notInTrait⟩, fromWorkspace⟩, named⟩
      exact ⟨⟨visible, notVariant, notInTrait, named⟩, isPrivate, fromWorkspace⟩
  rw [hguard, offerFix]
  by_cases hvisible : (f.elementKind? decl).any ElementKind.isVisibleDecl = true
  · rw [if_pos hvisible, Logged.value_bind]
    split
    · rename_i hrest
      simp [hvisible, hrest, eq_comm]
    · rename_i hrest
      simp [hrest]
  · rw [if_neg hvisible]
    simp [hvisible]

/-- A declaration that has a visibility is offered no fix. -/
theorem offerFix_of_written (written : (f.childElement? decl .vis).isSome) :
    (f.offerFix decl name? scope origin?).value = none := by
  rw [Option.eq_none_iff_forall_ne_some]
  intro fix hfix
  have hprivate := (offerFix_eq_some.mp hfix).1.isPrivate
  rw [isPrivate_visibilityOf] at hprivate
  rw [hprivate] at written
  cases written

theorem Suits.held (h : f.Suits decl) : f.holds (.element decl) = true := by
  obtain ⟨name, hname⟩ := Option.isSome_iff_exists.mp h.named
  exact holds_of_childElement? hname

end Forest

/-- Where all elements keep their kinds and parents, they hang below elements of the same kinds. -/
theorem Forest.MadeOf.grandparentKind?_congr {f g : Forest} {tops : List Subtree}
    (h : f.MadeOf tops)
    (kind : ∀ id, f.holds (.element id) = true → g.elementKind? id = f.elementKind? id)
    (parent : ∀ node, f.holds node = true → g.parent? node = f.parent? node) {id : ElementId}
    (held : f.holds (.element id) = true) : g.grandparentKind? id = f.grandparentKind? id := by
  rw [grandparentKind?, grandparentKind?, parent _ held]
  cases hparent : f.parent? (.element id) with
  | none => rfl
  | some around =>
    rw [Option.bind_some, Option.bind_some, parent _ (h.holds_parent hparent)]
    cases hgrand : f.parent? (.element around) with
    | none => rfl
    | some grand => rw [Option.bind_some, Option.bind_some, kind _ (h.holds_parent hgrand)]

namespace Fix.Wrote

variable {fix : Fix} {t t' : Tree} {s : Subtree} {edit : Edit} {id : ElementId}

/-- A declaration that suited before suits still. -/
theorem suits (h : fix.Wrote t t' edit) (readsAs : t.ReadsAs s) (hsuits : t.Suits id) :
    t'.Suits id where
  visible := by
    rw [h.kind _ hsuits.held]
    exact hsuits.visible
  notVariant := by
    rw [h.kind _ hsuits.held]
    exact hsuits.notVariant
  notInTrait := by
    rw [readsAs.madeOf.grandparentKind?_congr h.kind h.parent hsuits.held]
    exact hsuits.notInTrait
  named := h.child _ _ hsuits.named

end Fix.Wrote

end DeclVisibility
