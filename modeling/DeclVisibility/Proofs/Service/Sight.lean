import DeclVisibility.Proofs.Package.Lookup
import DeclVisibility.Proofs.Service.Naming

/-!
# What one document sees of a service

A document sees its tree and the package that it belongs to. Two services may differ in all other
documents and packages, in the numbers of the packages too (`Service.SameFor`): a request for the
document is answered alike, and a request for another document changes nothing that this one sees,
as long as the names of packages that are its own are used by no other.
-/

namespace DeclVisibility

open Attempt (Alike)

/-- A package keeps what is held of it when one of another name is added. -/
theorem Package.after_of_ne {added held : Package} (h : held.name ≠ added.name) :
    added.after held = held :=
  if_neg h

namespace Service

/-- A document sees the same of two services, and the name of its package is its own. -/
structure SameFor (doc : Doc) (own : String → Prop) (s t : Service) : Prop where
  document? : t.document? doc = s.document? doc
  packageOf? : t.workspace.packageOf? doc = s.workspace.packageOf? doc
  named : ∀ package, s.workspace.packageOf? doc = some package → own package.name
  kept : s.workspace.WellKept
  kept' : t.workspace.WellKept

variable {doc other : Doc} {own : String → Prop} {s s' t : Service} {package : Package}
  {version : Version} {events : List Event} {package? : Option Package} {text : String}

theorem sameFor_new (doc : Doc) (own : String → Prop) : new.SameFor doc own new where
  document? := rfl
  packageOf? := rfl
  named _ h := nomatch h
  kept := Workspace.wellKept_empty
  kept' := Workspace.wellKept_empty

theorem SameFor.sameUnder (h : s.SameFor doc own t) : SameUnder doc doc s t where
  document? := h.document?
  origin? := by rw [Workspace.originOf?, Workspace.originOf?, h.packageOf?]

/-! ## Packages -/

/-- A document can be put into any package. -/
theorem setPackage_eq_ok (kept : s.workspace.WellKept) (doc : Doc) (package : Package) :
    ∃ workspace, (s.setPackage doc package).outcome.value = .ok { s with workspace } ∧
      s.workspace.Joined doc package workspace := by
  obtain ⟨workspace, hattach, hjoined⟩ := kept.joined doc package
  refine ⟨workspace, ?_, hjoined⟩
  have hadded := Attempt.value_ofLogged (s.workspace.addPackage package)
  rw [setPackage, Attempt.value_bind_of_ok hadded]
  exact Attempt.value_bind_of_ok (x := Attempt.ofExcept _) hattach

theorem SameFor.setPackage (h : s.SameFor doc own t) (hown : own package.name) :
    Alike (SameFor doc own) (s.setPackage doc package) (t.setPackage doc package) := by
  obtain ⟨w, hw, hjoined⟩ := setPackage_eq_ok h.kept doc package
  obtain ⟨w', hw', hjoined'⟩ := setPackage_eq_ok h.kept' doc package
  have hplace : w.packageOf? doc = some package := (hjoined.packageOf? doc).trans (if_pos rfl)
  have hplace' : w'.packageOf? doc = some package := (hjoined'.packageOf? doc).trans (if_pos rfl)
  refine .ok hw hw' ⟨h.document?, hplace'.trans hplace.symm, ?_, hjoined.kept, hjoined'.kept⟩
  intro held hheld
  obtain rfl := Option.some.inj (hplace.symm.trans hheld)
  exact hown

theorem SameFor.setPackage_other (h : s.SameFor doc own t) (hother : other ≠ doc)
    (hfree : ¬ own package.name) (hset : (s.setPackage other package).outcome.value = .ok s') :
    s'.SameFor doc own t := by
  obtain ⟨w, hw, hjoined⟩ := setPackage_eq_ok h.kept other package
  obtain rfl := Except.ok.inj (hset.symm.trans hw)
  have hsame : w.packageOf? doc = s.workspace.packageOf? doc := by
    rw [hjoined.packageOf?, if_neg (Ne.symm hother)]
    cases hheld : s.workspace.packageOf? doc with
    | none => rfl
    | some held =>
      have hne : held.name ≠ package.name := fun heq => hfree (heq ▸ h.named held hheld)
      rw [Option.map_some, Package.after_of_ne hne]
  exact ⟨h.document?, h.packageOf?.trans hsame.symm, fun held hheld =>
    h.named held (hsame.symm.trans hheld), hjoined.kept, h.kept'⟩

/-! ## Opening and closing -/

theorem SameFor.withDocument (h : s.SameFor doc own t) (document : Document) :
    (s.withDocument doc document).SameFor doc own (t.withDocument doc document) where
  document? := (h.sameUnder.withDocument document).document?
  packageOf? := h.packageOf?
  named := h.named
  kept := h.kept
  kept' := h.kept'

theorem SameFor.withDocument_other (h : s.SameFor doc own t) (hother : other ≠ doc)
    (document : Document) : (s.withDocument other document).SameFor doc own t where
  document? := by rw [document?_withDocument, if_neg (Ne.symm hother), h.document?]
  packageOf? := h.packageOf?
  named := h.named
  kept := h.kept
  kept' := h.kept'

theorem SameFor.openInput (h : s.SameFor doc own t)
    (hown : ∀ package, package? = some package → own package.name) :
    Alike (SameFor doc own) (s.openInput doc version events package?)
      (t.openInput doc version events package?) := by
  refine .bind (.same _) fun tree _ htree => ?_
  subst htree
  have hopened := h.withDocument ⟨version, tree⟩
  cases package? with
  | none => exact .pure hopened
  | some package => exact hopened.setPackage (hown package rfl)

theorem SameFor.openInput_other (h : s.SameFor doc own t) (hother : other ≠ doc)
    (hfree : ∀ package, package? = some package → ¬ own package.name)
    (hopen : (s.openInput other version events package?).outcome.value = .ok s') :
    s'.SameFor doc own t := by
  obtain ⟨tree, -, hopen⟩ := Attempt.value_bind_eq_ok.mp hopen
  have hopened := h.withDocument_other hother ⟨version, tree⟩
  cases package? with
  | none =>
    obtain rfl := Except.ok.inj hopen
    exact hopened
  | some package => exact hopened.setPackage_other hother (hfree package rfl) hopen

end Service

/-- The package that a text adds when it is opened; a text that is refused adds none. -/
def Exchange.addedPackage? (text : String) : Option Package := do
  let input ← (readDocument text).toOption
  let _ ← input.draft.events.toOption
  input.package?

theorem Exchange.addedPackage?_eq {text : String} {input : DocumentInput} {events : List Event}
    (hread : readDocument text = .ok input) (hevents : input.draft.events = .ok events) :
    addedPackage? text = input.package? := by
  simp [addedPackage?, hread, hevents, Except.toOption]

namespace Service

variable {doc other : Doc} {own : String → Prop} {s s' t : Service} {version : Version}
  {text : String}

/-- What comes of opening one text in two services. -/
inductive SameOpened (doc : Doc) (own : String → Prop) :
    Except ReadError Service → Except ReadError Service → Prop
  | refused (error : ReadError) : SameOpened doc own (.error error) (.error error)
  | opened {s t : Service} (same : s.SameFor doc own t) : SameOpened doc own (.ok s) (.ok t)

theorem SameFor.openJson (h : s.SameFor doc own t)
    (hown : ∀ package, Exchange.addedPackage? text = some package → own package.name) :
    Alike (SameOpened doc own) (s.openJson doc version text) (t.openJson doc version text) := by
  rw [Service.openJson, Service.openJson]
  cases hread : Exchange.readDocument text with
  | error cause => exact .pure (.refused _)
  | ok input =>
    simp only
    cases hevents : input.draft.events with
    | error misfit => exact .pure (.refused _)
    | ok events =>
      rw [Exchange.addedPackage?_eq hread hevents] at hown
      exact (h.openInput hown).bind fun _ _ same => .pure (.opened same)

theorem SameFor.openJson_other (h : s.SameFor doc own t) (hother : other ≠ doc)
    (hfree : ∀ package, Exchange.addedPackage? text = some package → ¬ own package.name)
    (hopen : (s.openJson other version text).outcome.value = .ok (.ok s')) :
    s'.SameFor doc own t := by
  obtain ⟨input, events, hread, hevents, hopened⟩ := openJson_eq_ok_iff.mp hopen
  rw [Exchange.addedPackage?_eq hread hevents] at hfree
  exact h.openInput_other hother hfree hopened

theorem SameFor.close (h : s.SameFor doc own t) : (s.close doc).SameFor doc own (t.close doc) where
  document? := by rw [document?_close, document?_close, if_pos rfl, if_pos rfl]
  packageOf? := by
    rw [Service.close, Service.close, Workspace.packageOf?_detach, Workspace.packageOf?_detach,
      if_pos rfl, if_pos rfl]
  named package hpackage := by
    rw [Service.close, Workspace.packageOf?_detach, if_pos rfl] at hpackage
    cases hpackage
  kept := h.kept.detach doc
  kept' := h.kept'.detach doc

theorem SameFor.close_other (h : s.SameFor doc own t) (hother : other ≠ doc) :
    (s.close other).SameFor doc own t := by
  have hsame : (s.close other).workspace.packageOf? doc = s.workspace.packageOf? doc := by
    rw [Service.close, Workspace.packageOf?_detach, if_neg (Ne.symm hother)]
  refine ⟨?_, h.packageOf?.trans hsame.symm, fun package hpackage =>
    h.named package (hsame.symm.trans hpackage), h.kept.detach other, h.kept'⟩
  rw [document?_close, if_neg (Ne.symm hother), h.document?]

/-! ## Fixes -/

/-- Applying a fix leaves packages alone. -/
theorem workspace_apply {fix : Fix} {result : Option (Version × Edit)}
    (happly : (s.apply doc fix).outcome.value = .ok (result, s')) : s'.workspace = s.workspace := by
  rcases apply_cases happly with ⟨-, rfl⟩ | ⟨_, _, _, _, -, -, -, -, -, rfl⟩
  · rfl
  · rfl

theorem SameFor.apply (h : s.SameFor doc own t) (fix : Fix) :
    Alike (fun result result' => result'.1 = result.1 ∧ result.2.SameFor doc own result'.2)
      (s.apply doc fix) (t.apply doc fix) := by
  cases h.sameUnder.apply fix with
  | fault first second => exact .fault first second
  | ok first second related =>
    have hs := workspace_apply first
    have ht := workspace_apply second
    refine .ok first second ⟨related.1, related.2.document?, ?_, ?_, hs ▸ h.kept, ht ▸ h.kept'⟩
    · rw [hs, ht, h.packageOf?]
    · rw [hs]
      exact h.named

theorem SameFor.apply_other (h : s.SameFor doc own t) (hother : other ≠ doc) {fix : Fix}
    {result : Option (Version × Edit)}
    (happly : (s.apply other fix).outcome.value = .ok (result, s')) : s'.SameFor doc own t := by
  rcases apply_cases happly with ⟨-, rfl⟩ | ⟨_, _, tree, next, -, -, -, -, -, rfl⟩
  · exact h
  · exact h.withDocument_other hother ⟨next, tree⟩

end Service

end DeclVisibility
