import DeclVisibility.Proofs.Outline.Listing

/-!
# Elements that are alike in two forests

What an outline tells of a declaration follows from the kinds and the nesting of elements, from the
texts of a few children, and from its visibility. So if the elements of two forests are related such
that kinds, parents and children of each kind go together (`Forest.Mirrors`), related declarations
are shown alike as soon as these texts and visibilities are alike: their names
(`Mirrors.symbolName?`), how they are shown (`Mirrors.presentationOf`), the parameters of methods
(`Mirrors.methodDeclarations`), and whether a fix is on offer (`Mirrors.isSome_offerFix`).

Children that are visibilities are left out, because a fix adds one.
-/

namespace DeclVisibility

/-- Related elements have the same kind, related parents, and related children of each kind but
visibilities, in the same order. -/
structure Forest.Mirrors (f g : Forest) (Mate : ElementId → ElementId → Prop) : Prop where
  unique : ∀ {a b a' b'}, Mate a a' → Mate b b' → (a = b ↔ a' = b')
  kind : ∀ {a a'}, Mate a a' → g.elementKind? a' = f.elementKind? a
  parent : ∀ {a a'}, Mate a a' → Option.Rel Mate (f.parent? (.element a)) (g.parent? (.element a'))
  children : ∀ {a a'}, Mate a a' → ∀ wanted, wanted ≠ .vis →
    List.Forall₂ Mate (f.childElements a wanted) (g.childElements a' wanted)

section Related
variable {α β : Type} {Mate : α → β → Prop}

theorem rel_cases {a? : Option α} {b? : Option β} (h : Option.Rel Mate a? b?) :
    (a? = none ∧ b? = none) ∨ ∃ a b, a? = some a ∧ b? = some b ∧ Mate a b := by
  cases h with
  | none => exact .inl ⟨rfl, rfl⟩
  | some hmate => exact .inr ⟨_, _, rfl, rfl, hmate⟩

theorem rel_head? {as : List α} {bs : List β} (h : List.Forall₂ Mate as bs) :
    Option.Rel Mate as.head? bs.head? := by
  cases h with
  | nil => exact .none
  | cons hfirst _ => exact .some hfirst

/-- Lists of related entries have related entries in the same place. -/
theorem idxOf?_eq_of_forall₂ [DecidableEq α] [DecidableEq β]
    (unique : ∀ {a b a' b'}, Mate a a' → Mate b b' → (a = b ↔ a' = b')) {a : α} {a' : β}
    (ha : Mate a a') {as : List α} {as' : List β} (h : List.Forall₂ Mate as as') :
    as'.idxOf? a' = as.idxOf? a := by
  induction h with
  | nil => rfl
  | @cons b b' rest rest' hb _ ih =>
    rw [List.idxOf?_cons, List.idxOf?_cons, ih]
    simp only [beq_iff_eq, unique hb ha]

end Related

namespace Forest.Mirrors

variable {f g : Forest} {Mate : ElementId → ElementId → Prop} {a a' : ElementId}
  (h : f.Mirrors g Mate) (hmate : Mate a a')
include h hmate

theorem symbolKind? : g.symbolKind? a' = f.symbolKind? a := by
  rw [Forest.symbolKind?, Forest.symbolKind?, h.kind hmate]

theorem childElement? {wanted : ElementKind} (hne : wanted ≠ .vis) :
    Option.Rel Mate (f.childElement? a wanted) (g.childElement? a' wanted) := by
  rw [childElement?_eq_head?, childElement?_eq_head?]
  exact rel_head? (h.children hmate wanted hne)

theorem isSome_childElement? {wanted : ElementKind} (hne : wanted ≠ .vis) :
    (g.childElement? a' wanted).isSome = (f.childElement? a wanted).isSome := by
  obtain ⟨hc, hc'⟩ | ⟨c, c', hc, hc', -⟩ := rel_cases (h.childElement? hmate hne)
  · rw [hc, hc']
  · rw [hc, hc', Option.isSome_some, Option.isSome_some]

theorem grandparentKind? : g.grandparentKind? a' = f.grandparentKind? a := by
  rw [Forest.grandparentKind?, Forest.grandparentKind?]
  obtain ⟨hp, hp'⟩ | ⟨p, p', hp, hp', hparent⟩ := rel_cases (h.parent hmate)
  · rw [hp, hp']
    rfl
  · rw [hp, hp', Option.bind_some, Option.bind_some]
    obtain ⟨hg, hg'⟩ | ⟨grand, grand', hg, hg', hgrand⟩ := rel_cases (h.parent hparent)
    · rw [hg, hg']
      rfl
    · rw [hg, hg', Option.bind_some, Option.bind_some, h.kind hgrand]

/-! ## Names -/

/-- The names are the same if the texts of the children that they are read off are. -/
theorem symbolName? (text : ∀ {c c' wanted}, Mate c c' → f.childElement? a wanted = some c →
    g.nonTriviaText c' = f.nonTriviaText c) : g.symbolName? a' = f.symbolName? a := by
  have htext : ∀ wanted, wanted ≠ .vis → (g.childElement? a' wanted).map g.nonTriviaText =
      (f.childElement? a wanted).map f.nonTriviaText := by
    intro wanted hne
    obtain ⟨hc, hc'⟩ | ⟨c, c', hc, hc', hchild⟩ := rel_cases (h.childElement? hmate hne)
    · rw [hc, hc']
      rfl
    · rw [hc, hc', Option.map_some, Option.map_some, text hchild hc]
  rw [Forest.symbolName?, Forest.symbolName?, h.kind hmate]
  split
  · exact htext .ty (by decide)
  · obtain ⟨hp, hp'⟩ | ⟨p, p', hp, hp', hparent⟩ := rel_cases (h.parent hmate)
    · rw [hp, hp']
      rfl
    · rw [hp, hp', Option.bind_some, Option.bind_some,
        idxOf?_eq_of_forall₂ h.unique hmate (h.children hparent .tupleFieldDecl (by decide))]
  · exact htext .name (by decide)

/-! ## Methods -/

theorem method? : g.method? a' = (f.method? a).map fun _ => ⟨a'⟩ := by
  rw [Forest.method?, Forest.method?, h.kind hmate]
  split
  · obtain ⟨hp, hp'⟩ | ⟨p, p', hp, hp', hbody⟩ := rel_cases (h.parent hmate)
    · rw [hp, hp']
      rfl
    · simp only [hp, hp', h.kind hbody]
      split
      · obtain ⟨hg, hg'⟩ | ⟨owner, owner', hg, hg', howner⟩ := rel_cases (h.parent hbody)
        · rw [hg, hg']
          rfl
        · simp only [hg, hg', h.kind howner]
          split <;> rfl
      · rfl
  · rfl

/-- Both take a receiver, or none does. -/
theorem isStaticMethod : g.isStaticMethod ⟨a'⟩ = f.isStaticMethod ⟨a⟩ := by
  rw [Forest.isStaticMethod, Forest.isStaticMethod, methodParams?, methodParams?]
  obtain ⟨hc, hc'⟩ | ⟨c, c', hc, hc', hparams⟩ :=
    rel_cases (h.childElement? hmate (show ElementKind.paramList ≠ .vis by decide))
  · rw [hc, hc']
    rfl
  · rw [hc, hc', Option.bind_some, Option.bind_some, ← Option.not_isSome, ← Option.not_isSome,
      h.isSome_childElement? hparams (by decide)]

theorem methodDeclarations :
    List.Forall₂ Mate (f.methodDeclarations ⟨a⟩) (g.methodDeclarations ⟨a'⟩) := by
  rw [Forest.methodDeclarations, Forest.methodDeclarations, methodParams?, methodParams?]
  obtain ⟨hc, hc'⟩ | ⟨c, c', hc, hc', hparams⟩ :=
    rel_cases (h.childElement? hmate (show ElementKind.paramList ≠ .vis by decide))
  · rw [hc, hc']
    exact .nil
  · simp only [hc, hc']
    exact h.children hparams .param (by decide)

/-! ## What follows from the visibility -/

/-- The same fixes are offered. -/
theorem isSome_offerFix (visibility : (g.visibilityOf a').value = (f.visibilityOf a).value)
    (name? : Option String) (scope : Scope) (origin? : Option Origin) :
    (g.offerFix a' name? scope origin?).value.isSome =
      (f.offerFix a name? scope origin?).value.isSome := by
  rw [Forest.offerFix, Forest.offerFix, h.kind hmate]
  split
  · rw [Logged.value_bind, Logged.value_bind, visibility, isFixable, isFixable, h.kind hmate,
      h.grandparentKind? hmate, h.isSome_childElement? hmate (by decide)]
    split <;> rfl
  · rfl

end Forest.Mirrors

namespace Forest.Mirrors

variable {t t' : Tree} {Mate : ElementId → ElementId → Prop} {a a' : ElementId}
  (h : t.Mirrors t'.toForest Mate) (hmate : Mate a a')
include h hmate

/-- Declarations are shown in the same way. -/
theorem presentationOf (visibility : (t'.visibilityOf a').value = (t.visibilityOf a).value)
    (kind : SymbolKind) : (t'.presentationOf a' kind (t'.visibilityOf a').value).value =
      (t.presentationOf a kind (t.visibilityOf a).value).value := by
  rw [Tree.value_presentationOf, Tree.value_presentationOf, h.method? hmate, visibility]
  cases hmethod : t.method? a with
  | none => rfl
  | some m =>
    obtain rfl := method_eq hmethod
    simp only [Option.map_some, h.isStaticMethod hmate, visibility]

/-- Methods have equally many parameters. -/
theorem length_parameterTexts :
    (t'.parameterTexts a').length = (t.parameterTexts a).length := by
  rw [Tree.parameterTexts, Tree.parameterTexts, h.method? hmate]
  cases hmethod : t.method? a with
  | none => rfl
  | some m =>
    obtain rfl := method_eq hmethod
    simp only [Option.map_some, List.length_map]
    exact (h.methodDeclarations hmate).length_eq.symm

end Forest.Mirrors

end DeclVisibility
