import DeclVisibility.Proofs.Service.Isolation

/-!
# Opening a document again

A document that is opened again may have been closed before or not. Its earlier content leaves no
trace either way. Its package does: a text that brings a package puts the document into that one
(`Service.close_openInput`), but one that brings none leaves it where it was. So closing it first
makes no difference to any later answer about the document exactly if the text brings a package or
the document was in none (`Session.reopened_as_fresh_iff`). Otherwise a few requests tell the
difference (`Session.probe`).
-/

namespace DeclVisibility

/-! ## Closing first -/

theorem Workspace.attach_detach (w : Workspace) (doc : Doc) (id : PackageId) :
    (w.detach doc).attach doc id = w.attach doc id := by
  simp only [attach, detach, List.filter_filter, Bool.and_self]

/-- Adding a package moves no document, so a document can as well be taken out before. -/
theorem Workspace.addPackage_detach (w : Workspace) (doc : Doc) (package : Package) :
    ((w.detach doc).addPackage package).value =
      ((w.addPackage package).value.1, (w.addPackage package).value.2.detach doc) := by
  have hfind : (w.detach doc).findPackage? package.name = w.findPackage? package.name := rfl
  rw [addPackage, addPackage, hfind]
  cases w.findPackage? package.name with
  | none => rfl
  | some id =>
    have hheld : (w.detach doc).package? id = w.package? id := rfl
    simp only [hheld]
    cases w.package? id with
    | none => rfl
    | some held =>
      simp only
      split <;> rfl

/-- A document of no package has no place to be taken out of. -/
theorem Workspace.detach_eq_self {w : Workspace} {doc : Doc} (h : w.packageIdOf? doc = none) :
    w.detach doc = w := by
  rw [packageIdOf?, Option.map_eq_none_iff, List.find?_eq_none] at h
  have hall : w.members.filter (fun entry => entry.1 != doc) = w.members := by
    rw [List.filter_eq_self]
    intro entry hentry
    simpa using h entry hentry
  rw [detach, hall]

/-- No document refers to a package that is missing, so one that has none is in none. -/
theorem Workspace.WellKept.packageIdOf?_eq_none {w : Workspace} {doc : Doc} (kept : w.WellKept)
    (h : w.packageOf? doc = none) : w.packageIdOf? doc = none := by
  cases hmember : w.packageIdOf? doc with
  | none => rfl
  | some id =>
    have hheld := kept.members hmember
    rw [packageOf?, hmember] at h
    exact absurd (h : w.package? id = none) (Option.ne_none_iff_isSome.mpr hheld)

namespace Service

variable {s opened : Service} {doc : Doc} {version : Version} {text : String} {events : List Event}
  {package? : Option Package}

theorem setPackage_detach (s : Service) (doc : Doc) (package : Package) :
    (({ s with workspace := s.workspace.detach doc } : Service).setPackage doc package).outcome.value =
      (s.setPackage doc package).outcome.value := by
  rw [setPackage, setPackage, Attempt.value_bind_of_ok (Attempt.value_ofLogged _),
    Attempt.value_bind_of_ok (Attempt.value_ofLogged _)]
  simp only [Workspace.addPackage_detach, Workspace.attach_detach]

/-- A document that is opened with a package, or belongs to none, can as well be closed before. -/
theorem close_openInput (s : Service) (doc : Doc) (version : Version) (events : List Event)
    (h : package?.isSome ∨ s.workspace.packageIdOf? doc = none) :
    ((s.close doc).openInput doc version events package?).outcome.value =
      (s.openInput doc version events package?).outcome.value := by
  have hwith : ∀ document, (s.close doc).withDocument doc document =
      { s.withDocument doc document with workspace := s.workspace.detach doc } := by
    intro document
    simp only [close, withDocument, withoutDocument, List.filter_filter, Bool.and_self]
  rw [openInput, openInput, Attempt.outcome_bind, Attempt.outcome_bind, Attempt.value_ofExcept]
  cases Tree.ofEvents events with
  | error fault => rfl
  | ok tree =>
    simp only [hwith]
    cases package? with
    | none =>
      have hout := Workspace.detach_eq_self (h.resolve_left Bool.false_ne_true)
      simp only [hout]
      rfl
    | some package => exact setPackage_detach (s.withDocument doc ⟨version, tree⟩) doc package

/-- A document that was opened belongs to the package that it was opened with, or else to the one
that it belonged to before. -/
theorem packageOf?_openInput (kept : s.workspace.WellKept)
    (h : (s.openInput doc version events package?).outcome.value = .ok opened) :
    opened.workspace.WellKept ∧
      opened.workspace.packageOf? doc = package?.or (s.workspace.packageOf? doc) := by
  obtain ⟨tree, -, h⟩ := Attempt.value_bind_eq_ok.mp h
  cases package? with
  | none =>
    obtain rfl := Except.ok.inj h
    exact ⟨kept, rfl⟩
  | some package =>
    obtain ⟨workspace, hset, hjoined⟩ :=
      setPackage_eq_ok (s := s.withDocument doc ⟨version, tree⟩) kept doc package
    obtain rfl := Except.ok.inj (hset.symm.trans h)
    refine ⟨hjoined.kept, ?_⟩
    rw [hjoined.packageOf?, if_pos rfl, Option.some_or]

/-- A text that is taken in is also taken in when the document is closed before. The package is then
the one that the text brings, or none. -/
theorem exists_closed_before (kept : s.workspace.WellKept)
    (h : (s.openJson doc version text).outcome.value = .ok (.ok opened)) :
    ∃ fresh, ((s.close doc).openJson doc version text).outcome.value = .ok (.ok fresh) ∧
      opened.workspace.packageOf? doc =
        (Exchange.addedPackage? text).or (s.workspace.packageOf? doc) ∧
      fresh.workspace.packageOf? doc = Exchange.addedPackage? text ∧
      opened.workspace.WellKept ∧ fresh.workspace.WellKept ∧
      ((Exchange.addedPackage? text).isSome ∨ s.workspace.packageOf? doc = none →
        fresh = opened) := by
  obtain ⟨input, events, hread, hevents, hinput⟩ := openJson_eq_ok_iff.mp h
  have keptClosed : (s.close doc).workspace.WellKept := kept.detach doc
  have hout : (s.close doc).workspace.packageOf? doc = none :=
    (Workspace.packageOf?_detach s.workspace doc doc).trans (if_pos rfl)
  obtain ⟨fresh, hfresh⟩ : ∃ fresh,
      ((s.close doc).openInput doc version events input.package?).outcome.value = .ok fresh := by
    obtain ⟨tree, htree, -⟩ := Attempt.value_bind_eq_ok.mp hinput
    cases input.package? with
    | none => exact ⟨_, Attempt.value_bind_eq_ok.mpr ⟨tree, htree, rfl⟩⟩
    | some package =>
      obtain ⟨workspace, hset, -⟩ := setPackage_eq_ok
        (s := (s.close doc).withDocument doc ⟨version, tree⟩) keptClosed doc package
      exact ⟨_, Attempt.value_bind_eq_ok.mpr ⟨tree, htree, hset⟩⟩
  obtain ⟨keptOpened, hopened⟩ := packageOf?_openInput kept hinput
  obtain ⟨keptFresh, hpackage⟩ := packageOf?_openInput keptClosed hfresh
  rw [hout, Option.or_none] at hpackage
  rw [Exchange.addedPackage?_eq hread hevents]
  refine ⟨fresh, openJson_eq_ok_iff.mpr ⟨input, events, hread, hevents, hfresh⟩, hopened, hpackage,
    keptOpened, keptFresh, fun hsame => ?_⟩
  have hclosed := close_openInput s doc version events (hsame.imp_right kept.packageIdOf?_eq_none)
  exact Except.ok.inj (hfresh.symm.trans (hclosed.trans hinput))

end Service

namespace Session

variable {s s' last : Session} {doc : Doc} {version : Version} {text : String}

/-! ## Workspaces along a run -/

theorem wellKept_step {call : Call} {answer : Answer} (kept : s.service.workspace.WellKept)
    (h : (s.step call).outcome.value = .ok (answer, s')) : s'.service.workspace.WellKept := by
  cases step_effect h with
  | quiet _ => exact kept
  | opened tree sub service readsAs documents =>
    obtain ⟨result, hopen, h⟩ := Attempt.value_bind_eq_ok.mp h
    cases result with
    | error error => cases h
    | ok opened =>
      obtain ⟨-, heq⟩ := Prod.mk.inj (Except.ok.inj h)
      obtain ⟨input, events, -, -, hinput⟩ := Service.openJson_eq_ok_iff.mp hopen
      rw [← heq]
      exact (Service.packageOf?_openInput kept hinput).1
  | closed doc => exact kept.detach doc
  | @packaged doc package service documents =>
    obtain ⟨opened, hset, h⟩ := Attempt.value_bind_eq_ok.mp h
    obtain ⟨-, heq⟩ := Prod.mk.inj (Except.ok.inj h)
    obtain ⟨workspace, hset', hjoined⟩ := Service.setPackage_eq_ok kept doc package
    obtain rfl := Except.ok.inj (hset'.symm.trans hset)
    rw [← heq]
    exact hjoined.kept
  | offered fix offer => exact kept
  | applied fix version edit service place apply =>
    have hsame := Service.workspace_apply apply
    rw [withService, hsame]
    exact kept
  | fixed fix version edit service offer apply =>
    have hsame := Service.workspace_apply apply
    rw [withService, hsame]
    exact kept

/-- In every state that is reached, packages are told apart by their names. -/
theorem Reached.wellKept (h : s.Reached) : s.service.workspace.WellKept := by
  obtain ⟨steps, hrun⟩ := h
  have kept : Session.new.service.workspace.WellKept := Workspace.wellKept_empty
  generalize Session.new = first at hrun kept
  induction hrun with
  | nil => exact kept
  | cons hstep _ ih => exact ih (wellKept_step kept hstep)

/-! ## Telling sessions apart -/

/-- The answers to the requests for one document, or the fault that the requests end with. -/
def answersFor (doc : Doc) (calls : List Call) (s : Session) : Except Fault (List Answer) :=
  (run calls s).outcome.value.map fun (answers, _) =>
    ((calls.zip answers).filter fun (call, _) => call.doc = doc).map Prod.snd

/-- Another document is put into the package of this name, as one of the workspace, and then a fix
is asked for in the document, which was opened with a private function and without a package. -/
def probe (doc : Doc) (name : String) : List Call :=
  [.openJson doc 0 (privateText .fnItem), .setPackage ⟨doc.num + 1⟩ ⟨name, .workspace⟩,
    .makePublic doc "f" .pub]

/-- The walk over a private function that has a name and nothing else. -/
def privateEvents : List Event :=
  [.start .fnItem, .start .name, .token .ident "f", .finish, .finish]

/-- What the text of a private function is opened as, in which the fix is offered in the workspace
and not where there is no package. -/
theorem exists_private : ∃ tree, (∀ (s : Service) (doc : Doc) (version : Version),
      (s.openJson doc version (privateText .fnItem)).outcome.value =
        .ok (.ok (s.withDocument doc ⟨version, tree⟩))) ∧
    tree.findDecl? "f" = some ⟨1⟩ ∧
    (tree.offerFix ⟨1⟩ (tree.symbolName? ⟨1⟩) .pub (some .workspace)).value =
      some ⟨⟨1⟩, "Make `f` public", .pub⟩ ∧
    (tree.offerFix ⟨1⟩ (tree.symbolName? ⟨1⟩) .pub none).value = none := by
  have hread : (Exchange.readDocument (privateText .fnItem)).toOption.map (fun input =>
      (input.package?, input.draft.events.toOption)) = some (none, some privateEvents) := by
    decide +kernel
  have hbuilt : (Tree.ofEvents privateEvents).toOption.map (fun tree => decide
      (tree.findDecl? "f" = some ⟨1⟩ ∧
        (tree.offerFix ⟨1⟩ (tree.symbolName? ⟨1⟩) .pub (some .workspace)).value =
          some ⟨⟨1⟩, "Make `f` public", .pub⟩ ∧
        (tree.offerFix ⟨1⟩ (tree.symbolName? ⟨1⟩) .pub none).value = none)) = some true := by
    decide +kernel
  obtain ⟨input, hread, hinput⟩ := exists_ok_of_seen hread
  obtain ⟨hpackage, hevents⟩ := Prod.mk.inj hinput
  obtain ⟨events, hevents, rfl⟩ := exists_ok_of_seen (Option.map_id'.trans hevents)
  obtain ⟨tree, htree, hoffers⟩ := exists_ok_of_seen hbuilt
  refine ⟨tree, fun s doc version => ?_, of_decide_eq_true hoffers⟩
  refine Service.openJson_eq_ok_iff.mpr ⟨input, privateEvents, hread, hevents, ?_⟩
  rw [hpackage, Service.openInput, htree]
  rfl

/-- Asking for a fix is answered, with none if the service offers none. -/
theorem step_makePublic (s : Session) (doc : Doc) (name : String) (scope : Scope) :
    ∃ answer last, (s.step (.makePublic doc name scope)).outcome.value = .ok (answer, last) ∧
      (answer = .notOffered ↔ (s.service.makePublic doc name scope).value = none) := by
  have hasked : (Attempt.ofLogged (s.service.makePublic doc name scope)).outcome.value =
      .ok (s.service.makePublic doc name scope).value := Attempt.value_ofLogged _
  cases hfix : (s.service.makePublic doc name scope).value with
  | none =>
    rw [hfix] at hasked
    exact ⟨.notOffered, s, Attempt.value_bind_eq_ok.mpr ⟨none, hasked, rfl⟩, by simp⟩
  | some fix =>
    rw [hfix] at hasked
    exact ⟨.offered s.offers.length fix, { s with offers := s.offers ++ [fix] },
      Attempt.value_bind_eq_ok.mpr ⟨some fix, hasked, rfl⟩, by simp⟩

/-- A document of a package is offered the fix once that package is one of the workspace. One that
is in no package is not. -/
theorem answersFor_probe (kept : s.service.workspace.WellKept) (doc : Doc) (name : String) :
    ∃ answer, answersFor doc (probe doc name) s = .ok [.done, answer] ∧
      ((s.service.workspace.packageOf? doc).map Package.name = some name → answer ≠ .notOffered) ∧
      (s.service.workspace.packageOf? doc = none → answer = .notOffered) := by
  obtain ⟨tree, hopen, hfind, hoffer, hnone⟩ := exists_private
  have hother : doc ≠ ⟨doc.num + 1⟩ := by
    intro heq
    have hnum : doc.num = doc.num + 1 := congrArg Doc.num heq
    simp at hnum
  have hopened : (s.step (.openJson doc 0 (privateText .fnItem))).outcome.value =
      .ok (.done, s.withService (s.service.withDocument doc ⟨0, tree⟩)) :=
    Attempt.value_bind_eq_ok.mpr ⟨_, hopen s.service doc 0, rfl⟩
  obtain ⟨workspace, hset, hjoined⟩ := Service.setPackage_eq_ok
    (s := s.service.withDocument doc ⟨0, tree⟩) kept ⟨doc.num + 1⟩ ⟨name, .workspace⟩
  generalize hservice : ({ s.service.withDocument doc ⟨0, tree⟩ with workspace } : Service) =
    packaged at hset
  have hpackaged : ((s.withService (s.service.withDocument doc ⟨0, tree⟩)).step
      (.setPackage ⟨doc.num + 1⟩ ⟨name, .workspace⟩)).outcome.value =
        .ok (.done, s.withService packaged) :=
    Attempt.value_bind_eq_ok.mpr ⟨packaged, hset, rfl⟩
  -- the fix depends on the origin of the package that the document was in all along
  have hoffered : (packaged.makePublic doc "f" .pub).value = (tree.offerFix ⟨1⟩
      (tree.symbolName? ⟨1⟩) .pub (((s.service.workspace.packageOf? doc).map
        (Package.after ⟨name, .workspace⟩)).map Package.origin)).value := by
    have hdocument : packaged.document? doc = some ⟨0, tree⟩ := by
      rw [← hservice]
      exact (Service.document?_withDocument s.service doc ⟨0, tree⟩ doc).trans (if_pos rfl)
    have horigin : packaged.workspace.originOf? doc = ((s.service.workspace.packageOf? doc).map
        (Package.after ⟨name, .workspace⟩)).map Package.origin := by
      rw [← hservice, Workspace.originOf?, hjoined.packageOf?, if_neg hother]
      rfl
    rw [Service.makePublic, hdocument]
    simp only [hfind, horigin]
  obtain ⟨answer, last, hstep, hnot⟩ := step_makePublic (s.withService packaged) doc "f" .pub
  have hrun := run_eq_ok.mpr ⟨_, .cons hopened (.cons hpackaged (.cons hstep (.nil last))), rfl, rfl⟩
  simp only [List.map_cons, List.map_nil] at hrun
  refine ⟨answer, ?_, ?_, ?_⟩
  · rw [answersFor, probe, hrun]
    simp [Except.map, Call.doc, Ne.symm hother]
  · intro hname hsame
    obtain ⟨held, hheld, rfl⟩ := Option.map_eq_some_iff.mp hname
    have hfix := hoffered.symm.trans (hnot.mp hsame)
    rw [hheld, Option.map_some, Package.after, if_pos rfl, Option.map_some, hoffer] at hfix
    cases hfix
  · intro hout
    refine hnot.mpr (hoffered.trans ?_)
    rw [hout, Option.map_none, Option.map_none, hnone]

/-! ## Opening anew -/

/-- A document that is opened from a text is afterwards answered for as if it had been closed
before, whatever is asked, exactly if the text brings a package or the document was in none. Only
the package can tell the two apart: it is the one of the text, and without that the one from before,
unless the document was closed. -/
theorem reopened_as_fresh_iff {opened : Session} (hs : s.Reached)
    (hopen : (s.step (.openJson doc version text)).outcome.value = .ok (.done, opened)) :
    ∃ fresh, (run [.close doc, .openJson doc version text] s).outcome.value =
        .ok ([.done, .done], fresh) ∧
      opened.service.workspace.packageOf? doc =
        (Exchange.addedPackage? text).or (s.service.workspace.packageOf? doc) ∧
      fresh.service.workspace.packageOf? doc = Exchange.addedPackage? text ∧
      ((∀ calls, answersFor doc calls opened = answersFor doc calls fresh) ↔
        (Exchange.addedPackage? text).isSome ∨ s.service.workspace.packageOf? doc = none) := by
  obtain ⟨result, hservice, h⟩ := Attempt.value_bind_eq_ok.mp hopen
  cases result with
  | error error => cases h
  | ok service =>
    obtain ⟨-, rfl⟩ := Prod.mk.inj (Except.ok.inj h)
    obtain ⟨fresh, hfresh, hopened, hpackage, keptOpened, keptFresh, hsame⟩ :=
      Service.exists_closed_before hs.wellKept hservice
    have hclose : (s.step (.close doc)).outcome.value =
        .ok (.done, s.withService (s.service.close doc)) := rfl
    have hreopen : ((s.withService (s.service.close doc)).step
        (.openJson doc version text)).outcome.value = .ok (.done, s.withService fresh) :=
      Attempt.value_bind_eq_ok.mpr ⟨_, hfresh, rfl⟩
    refine ⟨s.withService fresh, run_eq_ok.mpr ⟨_, .cons hclose (.cons hreopen (.nil _)), rfl, rfl⟩,
      hopened, hpackage, ?_, ?_⟩
    · intro hanswers
      by_contra hstays
      rw [not_or, Bool.not_eq_true, Option.isSome_eq_false_iff, Option.isNone_iff_eq_none] at hstays
      obtain ⟨hbrings, hwas⟩ := hstays
      obtain ⟨package, hwas⟩ := Option.ne_none_iff_exists'.mp hwas
      -- the probe asks with the name of the package that the document was in before
      obtain ⟨answer, hanswer, hoffered, -⟩ := answersFor_probe (s := s.withService service)
        keptOpened doc package.name
      obtain ⟨answer', hanswer', -, hnot⟩ := answersFor_probe (s := s.withService fresh)
        keptFresh doc package.name
      rw [hanswers, hanswer'] at hanswer
      obtain rfl : answer' = answer := by simpa using hanswer
      refine hoffered ?_ (hnot (hpackage.trans hbrings))
      rw [show (s.withService service).service.workspace.packageOf? doc = _ from hopened, hbrings,
        hwas]
      rfl
    · intro hplain calls
      rw [hsame hplain]

/-- The private function is opened anew after it was put into a package of the workspace. -/
theorem reopened_as_fresh_iff_sample : ∃ s opened fresh : Session, s.Reached ∧
    (s.step (.openJson ⟨1⟩ 2 (privateText .fnItem))).outcome.value = .ok (.done, opened) ∧
    (run [.close ⟨1⟩, .openJson ⟨1⟩ 2 (privateText .fnItem)] s).outcome.value =
      .ok ([.done, .done], fresh) ∧
    opened.service.workspace.packageOf? ⟨1⟩ = some ⟨"app", .workspace⟩ ∧
    fresh.service.workspace.packageOf? ⟨1⟩ = none ∧
    ¬ ∀ calls, answersFor ⟨1⟩ calls opened = answersFor ⟨1⟩ calls fresh := by
  have heval : (run [.openJson ⟨1⟩ 1 (privateText .fnItem), .setPackage ⟨1⟩ ⟨"app", .workspace⟩]
      .new).outcome.value.toOption.map (fun reached =>
        reached.2.service.workspace.packageOf? ⟨1⟩) = some (some ⟨"app", .workspace⟩) := by
    decide +kernel
  obtain ⟨_, s, -, hs, hwas⟩ := exists_of_seen heval
  have hbrings : Exchange.addedPackage? (privateText .fnItem) = none := by decide +kernel
  obtain ⟨tree, hprivate, -⟩ := exists_private
  have hopen : (s.step (.openJson ⟨1⟩ 2 (privateText .fnItem))).outcome.value =
      .ok (.done, s.withService (s.service.withDocument ⟨1⟩ ⟨2, tree⟩)) :=
    Attempt.value_bind_eq_ok.mpr ⟨_, hprivate s.service ⟨1⟩ 2, rfl⟩
  obtain ⟨fresh, hfresh, hopened, hpackage, hiff⟩ := reopened_as_fresh_iff hs hopen
  rw [hbrings] at hopened hpackage hiff
  refine ⟨s, _, fresh, hs, hopen, hfresh, hopened.trans hwas, hpackage, fun hall => ?_⟩
  rcases hiff.mp hall with h | h
  · cases h
  · exact nomatch h.symm.trans hwas

/-- The function is opened anew without a package. It is offered the fix because of the package of
the text before, and not when it was closed in between. -/
theorem membership_outlives_text : ([[], [.close ⟨1⟩]] : List (List Call)).map (fun closing =>
      (run ([.openJson ⟨1⟩ 1 sampleText] ++ closing ++
        [.openJson ⟨1⟩ 2 (privateText .fnItem), .makePublic ⟨1⟩ "f" .pub])
          .new).outcome.value.toOption.map (·.1)) =
    [some [.done, .done, .offered 0 ⟨⟨1⟩, "Make `f` public", .pub⟩],
      some [.done, .done, .done, .notOffered]] := by
  decide +kernel

end Session

end DeclVisibility
