import DeclVisibility.Proofs.Outcome
import DeclVisibility.Proofs.Service.Documents
import DeclVisibility.Service.Single

/-!
# A document by another name

The name of a document stands in reports, and its service finds by it the tree and the package. So
two services answer alike about two documents that have one tree and one origin
(`Service.SameUnder`), whatever the documents are called. A text that is opened in a service of its
own can be called anything (`Single.value_makePublic`, `Single.value_outline`, `Single.value_dump`).
-/

namespace DeclVisibility

/-- Two attempts give values that are related, or meet the same fault. -/
inductive Attempt.Alike {α β : Type} (Related : α → β → Prop) (x : Attempt α) (y : Attempt β) : Prop
  | ok {a : α} {b : β} (first : x.outcome.value = .ok a) (second : y.outcome.value = .ok b)
    (related : Related a b)
  | fault {f : Fault} (first : x.outcome.value = .error f) (second : y.outcome.value = .error f)

namespace Attempt.Alike

variable {α β γ δ : Type} {Related : α → β → Prop} {Ended : γ → δ → Prop}

theorem pure {a : α} {b : β} (h : Related a b) :
    Alike Related (Pure.pure a : Attempt α) (Pure.pure b : Attempt β) :=
  .ok rfl rfl h

theorem bind {x : Attempt α} {y : Attempt β} {next : α → Attempt γ} {next' : β → Attempt δ}
    (h : Alike Related x y) (hnext : ∀ a b, Related a b → Alike Ended (next a) (next' b)) :
    Alike Ended (x >>= next) (y >>= next') := by
  cases h with
  | ok first second related =>
    cases hnext _ _ related with
    | ok hfirst hsecond hrelated =>
      exact .ok ((value_bind_of_ok first).trans hfirst) ((value_bind_of_ok second).trans hsecond)
        hrelated
    | fault hfirst hsecond =>
      exact .fault ((value_bind_of_ok first).trans hfirst) ((value_bind_of_ok second).trans hsecond)
  | @fault f first second =>
    have hfirst : (x >>= next).outcome.value = .error f := by rw [outcome_bind, first]
    have hsecond : (y >>= next').outcome.value = .error f := by rw [outcome_bind, second]
    exact .fault hfirst hsecond

theorem same (x : Attempt α) : Alike Eq x x := by
  cases h : x.outcome.value with
  | ok a => exact .ok h h rfl
  | error f => exact .fault h h

/-- If the first attempt gives a value, so does the second. -/
theorem exists_ok {x : Attempt α} {y : Attempt β} {a : α} (h : Alike Related x y)
    (ha : x.outcome.value = .ok a) : ∃ b, y.outcome.value = .ok b ∧ Related a b := by
  cases h with
  | ok first second related =>
    obtain rfl := Except.ok.inj (first.symm.trans ha)
    exact ⟨_, second, related⟩
  | fault first second =>
    rw [first] at ha
    cases ha

theorem value_eq {x y : Attempt α} (h : Alike Eq x y) : x.outcome.value = y.outcome.value := by
  cases h with
  | ok first second related => rw [first, second, related]
  | fault first second => rw [first, second]

end Attempt.Alike

open Attempt (Alike)

namespace Service

/-- A document of one service has the tree and the origin that a document of another has. -/
structure SameUnder (doc doc' : Doc) (s s' : Service) : Prop where
  document? : s'.document? doc' = s.document? doc
  origin? : s'.workspace.originOf? doc' = s.workspace.originOf? doc

variable {doc doc' : Doc} {s s' : Service}

theorem SameUnder.withDocument (h : SameUnder doc doc' s s') (document : Document) :
    SameUnder doc doc' (s.withDocument doc document) (s'.withDocument doc' document) where
  document? := by rw [document?_withDocument, document?_withDocument, if_pos rfl, if_pos rfl]
  origin? := h.origin?

theorem alike_openInput (doc doc' : Doc) (version : Version) (events : List Event)
    (package? : Option Package) : Alike (SameUnder doc doc')
      (new.openInput doc version events package?) (new.openInput doc' version events package?) := by
  have hnew : SameUnder doc doc' new new := ⟨rfl, rfl⟩
  refine .bind (.same _) fun tree tree' htree => ?_
  subst htree
  have hopened := hnew.withDocument ⟨version, tree⟩
  cases package? with
  | none => exact .pure hopened
  | some package =>
    have hpackage : (Table.empty.push package).get? 0 = some package := rfl
    have horigin : ∀ name, (Workspace.originOf?
        ⟨Table.empty.push package, [(name, ⟨0⟩)]⟩ name) = some package.origin := by
      intro name
      simp [Workspace.originOf?, Workspace.packageOf?, Workspace.packageIdOf?, Workspace.package?,
        hpackage]
    refine .ok rfl rfl ⟨hopened.document?, ?_⟩
    exact (horigin doc').trans (horigin doc).symm

theorem SameUnder.makePublic (h : SameUnder doc doc' s s') (name : String) (scope : Scope) :
    s'.makePublic doc' name scope = s.makePublic doc name scope := by
  rw [Service.makePublic, Service.makePublic, h.document?, h.origin?]

theorem SameUnder.outline (h : SameUnder doc doc' s s') : s'.outline doc' = s.outline doc := by
  rw [Service.outline, Service.outline, h.document?, h.origin?]

/-- The name is told if a fix doesn't belong to the document, but nothing else depends on it. -/
theorem SameUnder.apply (h : SameUnder doc doc' s s') (fix : Fix) :
    Alike (fun result result' => result'.1 = result.1 ∧ SameUnder doc doc' result.2 result'.2)
      (s.apply doc fix) (s'.apply doc' fix) := by
  have hnothing : (none : Option (Version × Edit)) = none ∧ SameUnder doc doc' s s' := ⟨rfl, h⟩
  rw [Service.apply, Service.apply, h.document?]
  cases s.document? doc with
  | none => exact .pure hnothing
  | some document =>
    simp only
    split
    · exact .ok rfl rfl hnothing
    · refine .bind (.same _) fun visibility _ hvisibility => ?_
      subst hvisibility
      split
      · exact .ok rfl rfl hnothing
      · refine .bind (.same _) fun invoked? _ hinvoked => ?_
        subst hinvoked
        cases invoked? with
        | none => exact .pure hnothing
        | some invoked =>
          refine .bind (.same _) fun version _ hversion => ?_
          subst hversion
          exact .pure ⟨rfl, h.withDocument ⟨version, invoked.2⟩⟩

end Service

namespace Single

/-- What comes of opening one text under two names. -/
inductive Opened (doc doc' : Doc) :
    Except ReadError Service → Except ReadError Service → Prop
  | refused (error : ReadError) : Opened doc doc' (.error error) (.error error)
  | opened {s s' : Service} (same : s.SameUnder doc doc' s') : Opened doc doc' (.ok s) (.ok s')

variable (text name : String) (scope : Scope) (doc doc' : Doc)

theorem alike_openText : Alike (Opened doc doc') (openText text doc) (openText text doc') := by
  rw [openText, openText, Service.openJson, Service.openJson]
  cases Exchange.readDocument text with
  | error cause => exact .pure (.refused _)
  | ok input =>
    simp only
    cases input.draft.events with
    | error misfit => exact .pure (.refused _)
    | ok events =>
      exact (Service.alike_openInput doc doc' 1 events input.package?).bind
        fun _ _ same => .pure (.opened same)

/-- What is made public in a text, under any name. -/
theorem value_makePublic : (makePublic text name scope doc).outcome.value =
    (makePublic text name scope doc').outcome.value := by
  refine Alike.value_eq (.bind (alike_openText text doc doc') fun opened opened' hopened => ?_)
  cases hopened with
  | refused error => exact .pure rfl
  | @opened s s' same =>
    simp only [same.makePublic]
    refine .bind (.same _) fun fix? _ hfix => ?_
    subst hfix
    cases fix? with
    | none => exact .pure rfl
    | some fix =>
      refine .bind (same.apply fix) fun result result' ⟨hresult, hsame⟩ => ?_
      simp only [hresult, Service.text?, hsame.document?]
      exact .same _

/-- The outline of a text, under any name. -/
theorem value_outline :
    (outline text doc).outcome.value = (outline text doc').outcome.value := by
  refine Alike.value_eq (.bind (alike_openText text doc doc') fun opened opened' hopened => ?_)
  cases hopened with
  | refused error => exact .pure rfl
  | opened same =>
    simp only [same.outline]
    exact .same _

/-- What is shown of a text, under any name. -/
theorem value_dump : (dump text doc).outcome.value = (dump text doc').outcome.value := by
  refine Alike.value_eq (.bind (alike_openText text doc doc') fun opened opened' hopened => ?_)
  cases hopened with
  | refused error => exact .pure rfl
  | opened same =>
    simp only [Service.dump?, Service.text?, same.document?]
    exact .same _

end Single

end DeclVisibility
