import DeclVisibility.Proofs.Exchange.Draft
import DeclVisibility.Proofs.Exchange.Loading
import DeclVisibility.Proofs.Fix.Offer
import DeclVisibility.Symbol
import Mathlib.Data.List.Chain

/-!
# Where a declaration has to stand to be offered a fix

Between a declaration and the nearest symbol around it may stand lists, one in the other
(`Forest.between`). What counts for the offer is the kind of the declaration and of the second
element around it (`Forest.grandparentKind?_of_enclosing`). So a variant is never offered a fix, and
neither is what stands in one list of a trait; what stands in a trait without a list, or in a list
of a list, is offered one all the same, and so is a field of a variant (`Forest.offered_iff_placed`,
`Forest.variant_field_offered`).
-/

namespace DeclVisibility

/-- Whether elements of this kind only hold together what is listed in a declaration. -/
def ElementKind.isList : ElementKind → Bool
  | namedFieldList | tupleFieldList | variantList | assocItemList => true
  | _ => false

namespace Forest

/-- The elements that are climbed over from an element to the nearest symbol around it. -/
def climbedOver (f : Forest) : Nat → ElementId → List ElementId
  | 0, _ => []
  | fuel + 1, id =>
    match f.parent? (.element id) with
    | none => []
    | some parent =>
      if (f.symbolKind? parent).isSome then [] else parent :: f.climbedOver fuel parent

/-- The elements between an element and the nearest symbol around it, from the inside out. -/
def between (f : Forest) (id : ElementId) : List ElementId := f.climbedOver f.elements.size id

variable {f : Forest} {id decl around : ElementId}

/-- Climbing goes from each element to its parent, and ends at the symbol. -/
theorem isChain_climbedOver {fuel : Nat} (h : f.climbToSymbol fuel id = some around) :
    (id :: (f.climbedOver fuel id ++ [around])).IsChain fun child parent =>
      f.parent? (.element child) = some parent := by
  induction fuel generalizing id with
  | zero => cases h
  | succ fuel ih =>
    rw [climbToSymbol] at h
    rw [climbedOver]
    cases hparent : f.parent? (.element id) with
    | none =>
      rw [hparent] at h
      cases h
    | some parent =>
      rw [hparent] at h
      simp only at h ⊢
      by_cases hsymbol : (f.symbolKind? parent).isSome
      · rw [if_pos hsymbol] at h ⊢
        obtain rfl := Option.some.inj h
        exact List.isChain_pair.mpr hparent
      · rw [if_neg hsymbol] at h ⊢
        exact List.isChain_cons_cons.mpr ⟨hparent, ih h⟩

/-- What a declaration's parent hangs in is the second of the elements around the declaration. -/
theorem grandparentKind?_of_enclosing (h : f.enclosingSymbol? decl = some around) :
    f.grandparentKind? decl = ((f.between decl ++
      around :: (f.parent? (.element around)).toList)[1]?).bind f.elementKind? := by
  have hchain := isChain_climbedOver h
  rw [← between] at hchain
  rw [grandparentKind?]
  rcases hbetween : f.between decl with _ | ⟨list, _ | ⟨second, rest⟩⟩
  · rw [hbetween, List.nil_append, List.isChain_pair] at hchain
    rw [hchain, Option.bind_some]
    cases f.parent? (.element around) <;> rfl
  · rw [hbetween] at hchain
    obtain ⟨hfirst, hsecond⟩ := List.isChain_cons_cons.mp hchain
    rw [hfirst, Option.bind_some, List.isChain_pair.mp hsecond]
    rfl
  · rw [hbetween] at hchain
    obtain ⟨hfirst, hrest⟩ := List.isChain_cons_cons.mp hchain
    obtain ⟨hsecond, -⟩ := List.isChain_cons_cons.mp hrest
    rw [hfirst, Option.bind_some, hsecond]
    rfl

/-- With nothing but lists between it and the nearest symbol around it, a declaration is offered a
fix exactly if it is a private declaration of the workspace with a name, of a kind that carries a
visibility and no variant, and unless it stands in one list of a trait or, without a list, in a
symbol that is itself the child of a trait. What else is around it doesn't count. -/
theorem offered_iff_placed (henclosing : f.enclosingSymbol? decl = some around)
    (lists : ∀ e ∈ f.between decl, (f.elementKind? e).any ElementKind.isList = true)
    (name? : Option String) (scope : Scope) (origin? : Option Origin) :
    (f.offerFix decl name? scope origin?).value.isSome ↔
      (f.elementKind? decl).any ElementKind.isVisibleDecl = true ∧
      f.elementKind? decl ≠ some .enumVariant ∧
      (f.visibilityOf decl).value.isPrivate = true ∧
      (f.childElement? decl .name).isSome ∧
      origin? = some .workspace ∧
      (f.between decl = [] →
        (f.parent? (.element around)).bind f.elementKind? ≠ some .traitItem) ∧
      ∀ list, f.between decl = [list] → f.elementKind? around ≠ some .traitItem := by
  have hplace : f.grandparentKind? decl ≠ some .traitItem ↔
      (f.between decl = [] →
        (f.parent? (.element around)).bind f.elementKind? ≠ some .traitItem) ∧
      ∀ list, f.between decl = [list] → f.elementKind? around ≠ some .traitItem := by
    rw [grandparentKind?_of_enclosing henclosing]
    rcases hbetween : f.between decl with _ | ⟨list, _ | ⟨second, rest⟩⟩
    · cases f.parent? (.element around) <;> simp
    · simp
    · -- a list is no trait
      have hsecond := lists second (by simp [hbetween])
      have hne : f.elementKind? second ≠ some .traitItem := by
        intro hkind
        rw [hkind] at hsecond
        cases hsecond
      simp [hne]
  rw [← hplace, Option.isSome_iff_exists]
  constructor
  · rintro ⟨fix, hfix⟩
    obtain ⟨hoffers, -⟩ := offerFix_eq_some.mp hfix
    exact ⟨hoffers.visible, hoffers.notVariant, hoffers.isPrivate, hoffers.named,
      hoffers.fromWorkspace, hoffers.notInTrait⟩
  · rintro ⟨visible, notVariant, isPrivate, named, fromWorkspace, notInTrait⟩
    exact ⟨_, offerFix_eq_some.mpr
      ⟨⟨⟨visible, notVariant, notInTrait, named⟩, isPrivate, fromWorkspace⟩, rfl⟩⟩

end Forest

/-! ## In a trait and in a variant -/

namespace Draft

/-- A declaration with a name and with what else is in it. -/
def named (kind : ElementKind) (name : String) (inner : List Draft) : Draft :=
  .element kind (.element .name [.token .ident (some name)] :: inner)

/-- A trait with a function in it. -/
def traitMember : Draft :=
  named .traitItem "T" [.element .assocItemList [named .fnItem "f" []]]

/-- An enum with a variant that has a field. -/
def variantField : Draft :=
  named .enumItem "E" [.element .variantList
    [named .enumVariant "V" [.element .namedFieldList [named .namedFieldDecl "x" []]]]]

end Draft

namespace Forest

open Exchange (readDraft valueOf)

/-- A function in the list of a trait is not offered a fix. -/
theorem offered_iff_placed_sample : ∃ t : Tree,
    readDraft (valueOf Draft.traitMember).pretty = .ok Draft.traitMember ∧
    Draft.traitMember.load = .ok (.ok t) ∧
    t.enclosingSymbol? ⟨2⟩ = some ⟨4⟩ ∧
    (∀ e ∈ t.between ⟨2⟩, (t.elementKind? e).any ElementKind.isList = true) ∧
    (t.offerFix ⟨2⟩ (some "f") .pub (some .workspace)).value.isSome = false := by
  have hload : ∃ t, Draft.traitMember.load = .ok (.ok t) ∧
      decide (t.enclosingSymbol? ⟨2⟩ = some ⟨4⟩ ∧ t.elementKind? ⟨4⟩ = some .traitItem ∧
        t.between ⟨2⟩ = [⟨3⟩] ∧
        ∀ e ∈ t.between ⟨2⟩, (t.elementKind? e).any ElementKind.isList = true) = true :=
    Draft.exists_loaded (by decide +kernel)
  obtain ⟨t, hload, hseen⟩ := hload
  obtain ⟨henclosing, htrait, hbetween, lists⟩ := of_decide_eq_true hseen
  refine ⟨t, Exchange.readDraft_pretty (by decide), hload, henclosing, lists, ?_⟩
  rw [← Bool.not_eq_true, offered_iff_placed henclosing lists]
  rintro ⟨-, -, -, -, -, -, hplace⟩
  exact hplace _ hbetween htrait

/-- A field stands in the list of a variant, and is offered a fix. -/
theorem variant_field_offered : ∃ t : Tree,
    readDraft (valueOf Draft.variantField).pretty = .ok Draft.variantField ∧
    Draft.variantField.load = .ok (.ok t) ∧
    t.enclosingSymbol? ⟨3⟩ = some ⟨5⟩ ∧ t.elementKind? ⟨5⟩ = some .enumVariant ∧
    t.between ⟨3⟩ = [⟨4⟩] ∧ t.elementKind? ⟨4⟩ = some .namedFieldList ∧
    (t.offerFix ⟨3⟩ (some "x") .pub (some .workspace)).value =
      some ⟨⟨3⟩, "Make `x` public", .pub⟩ := by
  have hload : ∃ t, Draft.variantField.load = .ok (.ok t) ∧
      decide (t.enclosingSymbol? ⟨3⟩ = some ⟨5⟩ ∧ t.elementKind? ⟨5⟩ = some .enumVariant ∧
        t.between ⟨3⟩ = [⟨4⟩] ∧ t.elementKind? ⟨4⟩ = some .namedFieldList ∧
        (t.offerFix ⟨3⟩ (some "x") .pub (some .workspace)).value =
          some ⟨⟨3⟩, "Make `x` public", .pub⟩) = true :=
    Draft.exists_loaded (by decide +kernel)
  obtain ⟨t, hload, hseen⟩ := hload
  exact ⟨t, Exchange.readDraft_pretty (by decide), hload, of_decide_eq_true hseen⟩

end Forest

end DeclVisibility
