import DeclVisibility.Proofs.Service.Documents
import DeclVisibility.Service.Session

/-!
# Runs of a session

What one request does to a session is one of few things, told by the request and its answer
(`Session.Effect`, `Session.step_effect`). A run is a chain of steps, each with the state before and
after (`Session.Run`); it is what `Session.run` computes (`Session.run_eq_ok`). In every state that
a run from the new session reaches, all open documents read as nested values
(`Session.Reached.wellMade`), and a document that is neither opened anew nor closed only changes by
having fixes written into it (`Session.Effect.document`).
-/

namespace DeclVisibility

/-- Whether the answer says that the session is as it was. -/
def Answer.isQuiet : Answer → Bool
  | .done | .offered _ _ | .applied _ _ _ | .fixed _ _ _ => false
  | _ => true

/-- A request with its answer and the states before and after. -/
structure Step where
  before : Session
  call : Call
  answer : Answer
  after : Session

/-- Whether the step opens the document anew or closes it. -/
def Step.resets (doc : Doc) (step : Step) : Bool :=
  match step.call, step.answer with
  | .openJson opened _ _, .done => opened == doc
  | .close closed, _ => closed == doc
  | _, _ => false

namespace Session

/-! ## One step -/

/-- What a request can do to a session. -/
inductive Effect (s : Session) : Call → Answer → Session → Prop
  | quiet {call : Call} {answer : Answer} (h : answer.isQuiet = true) : Effect s call answer s
  | opened {doc : Doc} {version : Version} {text : String} (tree : Tree) (sub : Subtree)
      (service : Service) (readsAs : tree.ReadsAs sub)
      (documents : service.documents = (s.service.withDocument doc ⟨version, tree⟩).documents) :
      Effect s (.openJson doc version text) .done (s.withService service)
  | closed (doc : Doc) : Effect s (.close doc) .done (s.withService (s.service.close doc))
  | packaged {doc : Doc} {package : Package} (service : Service)
      (documents : service.documents = s.service.documents) :
      Effect s (.setPackage doc package) .done (s.withService service)
  | offered {doc : Doc} {name : String} {scope : Scope} (fix : Fix)
      (offer : (s.service.makePublic doc name scope).value = some fix) :
      Effect s (.makePublic doc name scope) (.offered s.offers.length fix)
        { s with offers := s.offers ++ [fix] }
  | applied {doc : Doc} {slot : Nat} (fix : Fix) (version : Version) (edit : Edit)
      (service : Service) (place : s.offers[slot]? = some fix)
      (apply : (s.service.apply doc fix).outcome.value = .ok (some (version, edit), service)) :
      Effect s (.apply doc slot) (.applied version edit ((service.text? doc).getD ""))
        (s.withService service)
  | fixed {doc : Doc} {name : String} {scope : Scope} (fix : Fix) (version : Version) (edit : Edit)
      (service : Service) (offer : (s.service.makePublic doc name scope).value = some fix)
      (apply : (s.service.apply doc fix).outcome.value = .ok (some (version, edit), service)) :
      Effect s (.fixNow doc name scope) (.fixed fix.title version edit) (s.withService service)

variable {s s' last : Session} {call : Call} {answer : Answer}

theorem step_effect (h : (s.step call).outcome.value = .ok (answer, s')) :
    Effect s call answer s' := by
  cases call with
  | openJson doc version text =>
    obtain ⟨result, hopen, h⟩ := Attempt.value_bind_eq_ok.mp h
    -- a text that is refused leaves the session alone
    rcases Service.openJson_cases hopen with ⟨error, rfl⟩ | ⟨tree, sub, opened, rfl, hsub, hdocuments⟩
    · obtain ⟨rfl, rfl⟩ := Prod.mk.inj (Except.ok.inj h)
      exact .quiet rfl
    · obtain ⟨rfl, rfl⟩ := Prod.mk.inj (Except.ok.inj h)
      exact .opened tree sub opened hsub hdocuments
  | close doc =>
    obtain ⟨rfl, rfl⟩ := Prod.mk.inj (Except.ok.inj h)
    exact .closed doc
  | setPackage doc package =>
    obtain ⟨service, hservice, h⟩ := Attempt.value_bind_eq_ok.mp h
    obtain ⟨rfl, rfl⟩ := Prod.mk.inj (Except.ok.inj h)
    exact .packaged service (Service.documents_setPackage hservice)
  | version doc | text doc | dump doc | json doc | find doc name =>
    obtain ⟨rfl, rfl⟩ := Prod.mk.inj (Except.ok.inj h)
    exact .quiet rfl
  | makePublic doc name scope =>
    obtain ⟨fix?, hfix, h⟩ := Attempt.value_bind_eq_ok.mp h
    rw [Attempt.value_ofLogged] at hfix
    cases fix? with
    | none =>
      obtain ⟨rfl, rfl⟩ := Prod.mk.inj (Except.ok.inj h)
      exact .quiet rfl
    | some fix =>
      obtain ⟨rfl, rfl⟩ := Prod.mk.inj (Except.ok.inj h)
      exact .offered fix (Except.ok.inj hfix)
  | apply doc slot =>
    rw [step] at h
    split at h
    · obtain ⟨rfl, rfl⟩ := Prod.mk.inj (Except.ok.inj h)
      exact .quiet rfl
    · rename_i fix hslot
      obtain ⟨⟨result?, service⟩, happly, h⟩ := Attempt.value_bind_eq_ok.mp h
      cases result? with
      | none =>
        obtain ⟨rfl, rfl⟩ := Prod.mk.inj (Except.ok.inj h)
        obtain rfl := Service.same_of_apply_none happly
        exact .quiet rfl
      | some result =>
        obtain ⟨rfl, rfl⟩ := Prod.mk.inj (Except.ok.inj h)
        exact .applied fix result.1 result.2 service hslot happly
  | fixNow doc name scope =>
    obtain ⟨fix?, hfix, h⟩ := Attempt.value_bind_eq_ok.mp h
    rw [Attempt.value_ofLogged] at hfix
    cases fix? with
    | none =>
      obtain ⟨rfl, rfl⟩ := Prod.mk.inj (Except.ok.inj h)
      exact .quiet rfl
    | some fix =>
      obtain ⟨⟨result?, service⟩, happly, h⟩ := Attempt.value_bind_eq_ok.mp h
      cases result? with
      | none =>
        obtain ⟨rfl, rfl⟩ := Prod.mk.inj (Except.ok.inj h)
        obtain rfl := Service.same_of_apply_none happly
        exact .quiet rfl
      | some result =>
        obtain ⟨rfl, rfl⟩ := Prod.mk.inj (Except.ok.inj h)
        exact .fixed fix result.1 result.2 service (Except.ok.inj hfix) happly
  | outline doc =>
    obtain ⟨items, -, h⟩ := Attempt.value_bind_eq_ok.mp h
    obtain ⟨rfl, rfl⟩ := Prod.mk.inj (Except.ok.inj h)
    exact .quiet rfl
  | render doc =>
    obtain ⟨items, -, h⟩ := Attempt.value_bind_eq_ok.mp h
    obtain ⟨text, -, h⟩ := Attempt.value_bind_eq_ok.mp h
    obtain ⟨rfl, rfl⟩ := Prod.mk.inj (Except.ok.inj h)
    exact .quiet rfl

/-- What holds of all open trees holds of them after a request, if opening and applying keep it. -/
theorem every_step {P : Tree → Prop} (h : (s.step call).outcome.value = .ok (answer, s'))
    (held : s.service.Every P)
    (opens : ∀ doc version text service, call = .openJson doc version text →
      (s.service.openJson doc version text).outcome.value = .ok (.ok service) → service.Every P)
    (applies : ∀ doc fix version edit service,
      (s.service.apply doc fix).outcome.value = .ok (some (version, edit), service) →
        service.Every P) : s'.service.Every P := by
  cases step_effect h with
  | quiet _ | offered _ _ => exact held
  | @opened doc version text tree sub service readsAs documents =>
    obtain ⟨result, hopen, hrest⟩ := Attempt.value_bind_eq_ok.mp h
    cases result with
    | error error => cases Except.ok.inj hrest
    | ok opened =>
      have hservice := congrArg Session.service (Prod.mk.inj (Except.ok.inj hrest)).2
      rw [show opened = service from hservice] at hopen
      exact opens doc version text service rfl hopen
  | closed doc => exact held.close
  | packaged service documents => exact held.congr documents
  | applied fix version edit service place apply => exact applies _ fix version edit service apply
  | fixed fix version edit service offer apply => exact applies _ fix version edit service apply

/-- A document that was just opened has the version that it came with. -/
theorem Effect.opened_document {s s' : Session} {doc : Doc} {version : Version} {text : String}
    (h : Effect s (.openJson doc version text) .done s') :
    ∃ tree sub, s'.service.document? doc = some ⟨version, tree⟩ ∧ Tree.ReadsAs tree sub := by
  cases h with
  | quiet h => cases h
  | opened tree sub service readsAs documents =>
    refine ⟨tree, sub, ?_, readsAs⟩
    rw [withService, Service.document?_congr documents, Service.document?_withDocument, if_pos rfl]

/-- An offer takes the next place and changes nothing in the service. -/
theorem Effect.makePublic_of_offered {doc : Doc} {name : String} {scope : Scope} {slot : Nat}
    {fix : Fix} (h : Effect s (.makePublic doc name scope) (.offered slot fix) s') :
    (s.service.makePublic doc name scope).value = some fix ∧ s'.service = s.service ∧
      slot = s.offers.length ∧ s'.offers = s.offers ++ [fix] := by
  cases h with
  | quiet h => cases h
  | offered fix offer => exact ⟨offer, rfl, rfl, rfl⟩

/-- Offers are kept, in their places. -/
theorem Effect.offers (h : Effect s call answer s') : ∃ more, s'.offers = s.offers ++ more := by
  cases h with
  | offered fix _ => exact ⟨[fix], rfl⟩
  | _ => exact ⟨[], (List.append_nil _).symm⟩

theorem Effect.same_of_quiet (h : Effect s call answer s') (quiet : answer.isQuiet = true) :
    s' = s := by
  cases h with
  | quiet _ => rfl
  | _ => cases quiet

/-! ## Runs -/

/-- Steps that follow one another, from a session to the last one. -/
inductive Run : Session → List Step → Session → Prop
  | nil (s : Session) : Run s [] s
  | cons {s next last : Session} {call : Call} {answer : Answer} {steps : List Step}
      (step : (s.step call).outcome.value = .ok (answer, next)) (rest : Run next steps last) :
      Run s (⟨s, call, answer, next⟩ :: steps) last

/-- The session is reached by requests to a new one. -/
def Reached (s : Session) : Prop := ∃ steps, Run .new steps s

/-- What comes of requests when the first of them is answered. -/
theorem run_cons_of_ok {call : Call} {rest : List Call} {answer : Answer} {answers : List Answer}
    {next : Session} (hstep : (s.step call).outcome.value = .ok (answer, next))
    (hrest : (run rest next).outcome.value = .ok (answers, last)) :
    (run (call :: rest) s).outcome.value = .ok (answer :: answers, last) := by
  rw [run, Attempt.value_bind_of_ok hstep, Attempt.value_bind_of_ok hrest]
  rfl

/-- What a session computes for requests is a run with these requests. -/
theorem run_eq_ok {calls : List Call} {answers : List Answer} :
    (run calls s).outcome.value = .ok (answers, last) ↔
      ∃ steps, Run s steps last ∧ steps.map Step.call = calls ∧ steps.map Step.answer = answers := by
  induction calls generalizing s answers with
  | nil =>
    constructor
    · intro h
      obtain ⟨rfl, rfl⟩ := Prod.mk.inj (Except.ok.inj h)
      exact ⟨[], .nil s, rfl, rfl⟩
    · rintro ⟨steps, hrun, hcalls, rfl⟩
      obtain rfl := List.map_eq_nil_iff.mp hcalls
      cases hrun
      rfl
  | cons call rest ih =>
    rw [run, Attempt.value_bind_eq_ok]
    constructor
    · rintro ⟨⟨answer, next⟩, hstep, h⟩
      obtain ⟨⟨others, final⟩, hrest, h⟩ := Attempt.value_bind_eq_ok.mp h
      obtain ⟨rfl, rfl⟩ := Prod.mk.inj (Except.ok.inj h)
      obtain ⟨steps, hrun, rfl, rfl⟩ := ih.mp hrest
      exact ⟨_, .cons hstep hrun, rfl, rfl⟩
    · rintro ⟨steps, hrun, hcalls, rfl⟩
      cases hrun with
      | nil => cases hcalls
      | cons hstep hrun =>
        obtain ⟨rfl, rfl⟩ := List.cons.inj hcalls
        refine ⟨_, hstep, Attempt.value_bind_eq_ok.mpr ⟨_, ih.mpr ⟨_, hrun, rfl, rfl⟩, ?_⟩⟩
        rfl

theorem Run.append_iff {first second : List Step} :
    Run s (first ++ second) last ↔ ∃ mid, Run s first mid ∧ Run mid second last := by
  induction first generalizing s with
  | nil =>
    constructor
    · intro h
      exact ⟨s, .nil s, h⟩
    · rintro ⟨mid, hfirst, hsecond⟩
      cases hfirst
      exact hsecond
  | cons step first ih =>
    constructor
    · intro h
      cases h with
      | cons hstep hrest =>
        obtain ⟨mid, hfirst, hsecond⟩ := ih.mp hrest
        exact ⟨mid, .cons hstep hfirst, hsecond⟩
    · rintro ⟨mid, hfirst, hsecond⟩
      cases hfirst with
      | cons hstep hrest => exact .cons hstep (ih.mpr ⟨mid, hrest, hsecond⟩)

/-- What a step keeps, a run keeps. -/
theorem Run.preserves {steps : List Step} (h : Run s steps last) (holds : Session → Prop)
    (kept : ∀ step ∈ steps, Effect step.before step.call step.answer step.after →
      holds step.before → holds step.after) (first : holds s) : holds last := by
  induction h with
  | nil => exact first
  | cons hstep _ ih =>
    exact ih (fun step hmem => kept step (List.mem_cons_of_mem _ hmem))
      (kept _ List.mem_cons_self (step_effect hstep) first)

/-- Every step of a run is what the session before it answers. -/
theorem Run.answered {steps : List Step} (h : Run s steps last) {step : Step}
    (hmem : step ∈ steps) :
    (step.before.step step.call).outcome.value = .ok (step.answer, step.after) := by
  induction h with
  | nil => cases hmem
  | cons hstep _ ih =>
    rcases List.mem_cons.mp hmem with rfl | hmem
    · exact hstep
    · exact ih hmem

/-- Every step of a run has an effect of the known sort. -/
theorem Run.effect {steps : List Step} (h : Run s steps last) {step : Step} (hmem : step ∈ steps) :
    Effect step.before step.call step.answer step.after :=
  step_effect (h.answered hmem)

theorem Run.offers {steps : List Step} (h : Run s steps last) :
    ∃ more, last.offers = s.offers ++ more := by
  refine h.preserves (fun t => ∃ more, t.offers = s.offers ++ more) ?_ ⟨[], (List.append_nil _).symm⟩
  rintro step - heffect ⟨first, hfirst⟩
  obtain ⟨more, hmore⟩ := heffect.offers
  exact ⟨first ++ more, by rw [hmore, hfirst, List.append_assoc]⟩

/-! ## Documents along a run -/

/-- All open documents read as nested values. -/
def WellMade (s : Session) : Prop :=
  ∀ doc document, s.service.document? doc = some document → ∃ sub, document.tree.ReadsAs sub

theorem wellMade_new : new.WellMade := fun _ _ h => by cases h

theorem WellMade.apply {service : Service} {doc : Doc} {fix : Fix} {version : Version} {edit : Edit}
    (h : s.WellMade)
    (happly : (s.service.apply doc fix).outcome.value = .ok (some (version, edit), service)) :
    (s.withService service).WellMade := by
  obtain ⟨_, tree, next, -, -, -, -, -, hwrote, rfl⟩ := Service.wrote_of_apply (h doc) happly
  exact Service.Every.withDocument (P := fun t => ∃ sub, t.ReadsAs sub) h hwrote.readsAs

/-- A request keeps all open documents well made, whichever document it is about. -/
theorem Effect.wellMade (h : Effect s call answer s') (made : s.WellMade) : s'.WellMade := by
  have hevery : s.service.Every fun t => ∃ sub, t.ReadsAs sub := made
  cases h with
  | quiet _ | offered _ _ => exact made
  | opened tree sub service readsAs documents =>
    exact (hevery.withDocument ⟨sub, readsAs⟩).congr documents
  | closed doc => exact hevery.close
  | packaged service documents => exact hevery.congr documents
  | applied fix version edit service place apply => exact made.apply apply
  | fixed fix version edit service offer apply => exact made.apply apply

theorem Run.wellMade {steps : List Step} (h : Run s steps last) (made : s.WellMade) :
    last.WellMade :=
  h.preserves WellMade (fun _ _ heffect => heffect.wellMade) made

theorem Reached.wellMade (h : s.Reached) : s.WellMade := by
  obtain ⟨steps, hrun⟩ := h
  exact hrun.wellMade wellMade_new

end Session

/-! ## One document along a run -/

/-- The version and the edit that the host is told when something was written into the document. -/
def Step.told? (doc : Doc) (step : Step) : Option (Version × Edit) :=
  match step.call, step.answer with
  | .apply target _, .applied version edit _ => if target = doc then some (version, edit) else none
  | .fixNow target _ _, .fixed _ version edit => if target = doc then some (version, edit) else none
  | _, _ => none

theorem Step.told?_of_quiet {s s' : Session} {call : Call} {answer : Answer} {doc : Doc}
    (h : answer.isQuiet = true) : (⟨s, call, answer, s'⟩ : Step).told? doc = none := by
  rw [Step.told?]
  split
  · rename_i hanswer
    rw [show answer = _ from hanswer] at h
    cases h
  · rename_i hanswer
    rw [show answer = _ from hanswer] at h
    cases h
  · rfl

/-- The fix that the step applies. -/
def Step.fix? (step : Step) : Option Fix :=
  match step.call with
  | .apply _ slot => step.before.offers[slot]?
  | .fixNow doc name scope => (step.before.service.makePublic doc name scope).value
  | _ => none

/-- The step writes a fix into an open document. -/
structure Step.Writes (step : Step) (doc : Doc) (document : Document) (fix : Fix) (edit : Edit)
    (next : Version) (tree : Tree) : Prop where
  entry : step.told? doc = some (document.version, edit)
  applies : step.fix? = some fix
  applicable : Service.Applicable document fix
  named : (document.tree.childElement? fix.decl .name).isSome
  version : nextVersion document.version = .ok next
  wrote : fix.Wrote document.tree tree edit
  after : step.after.service.document? doc = some ⟨next, tree⟩

namespace Session

/-- A step that applies a fix writes it into the document that it is applied to and no other. -/
theorem writes_of_apply {step : Step} {doc target : Doc} {document : Document} {fix : Fix}
    {version : Version} {edit : Edit}
    (hopen : step.before.service.document? doc = some document)
    (readsAs : ∃ sub, document.tree.ReadsAs sub)
    (apply : (step.before.service.apply target fix).outcome.value =
      .ok (some (version, edit), step.after.service))
    (entry : step.told? doc = if target = doc then some (version, edit) else none)
    (hfix : step.fix? = some fix) :
    (step.told? doc = none ∧ step.after.service.document? doc = some document) ∨
      ∃ fix edit next tree, step.Writes doc document fix edit next tree := by
  by_cases htarget : target = doc
  · subst htarget
    rw [if_pos rfl] at entry
    have only : ∀ document', step.before.service.document? target = some document' →
        ∃ sub, document'.tree.ReadsAs sub := by
      intro document' h'
      rw [hopen] at h'
      exact Option.some.inj h' ▸ readsAs
    obtain ⟨_, tree, next, hdocument, happlicable, hnamed, rfl, hnext, hwrote, hservice⟩ :=
      Service.wrote_of_apply only apply
    obtain rfl := Option.some.inj (hopen.symm.trans hdocument)
    refine .inr ⟨fix, edit, next, tree, entry, hfix, happlicable, hnamed, hnext, hwrote, ?_⟩
    rw [hservice, Service.document?_withDocument, if_pos rfl]
  · rw [if_neg htarget] at entry
    refine .inl ⟨entry, ?_⟩
    rcases Service.apply_cases apply with ⟨hnone, -⟩ | ⟨_, _, tree, next, -, -, -, -, -, hservice⟩
    · cases hnone
    · rw [hservice, Service.document?_withDocument, if_neg (Ne.symm htarget)]
      exact hopen

/-- A document that reads as a nested value, and is neither opened anew nor closed, stays as it is
in a step or has a fix written into it. -/
theorem Effect.document {doc : Doc} {document : Document} (h : Effect s call answer s')
    (kept : (⟨s, call, answer, s'⟩ : Step).resets doc = false)
    (hopen : s.service.document? doc = some document) (readsAs : ∃ sub, document.tree.ReadsAs sub) :
    ((⟨s, call, answer, s'⟩ : Step).told? doc = none ∧
        s'.service.document? doc = some document) ∨
      ∃ fix edit next tree,
        (⟨s, call, answer, s'⟩ : Step).Writes doc document fix edit next tree := by
  cases h with
  | quiet hquiet => exact .inl ⟨Step.told?_of_quiet hquiet, hopen⟩
  | opened tree sub service _ documents =>
    simp only [Step.resets, beq_eq_false_iff_ne] at kept
    refine .inl ⟨rfl, ?_⟩
    rw [withService, Service.document?_congr documents, Service.document?_withDocument,
      if_neg (Ne.symm kept)]
    exact hopen
  | closed other =>
    simp only [Step.resets, beq_eq_false_iff_ne] at kept
    refine .inl ⟨rfl, ?_⟩
    rw [withService, Service.document?_close, if_neg (Ne.symm kept)]
    exact hopen
  | packaged service documents =>
    refine .inl ⟨rfl, ?_⟩
    rw [withService, Service.document?_congr documents]
    exact hopen
  | offered fix _ => exact .inl ⟨rfl, hopen⟩
  | applied fix version edit service place apply =>
    exact writes_of_apply hopen readsAs apply rfl place
  | fixed fix version edit service offer apply =>
    exact writes_of_apply hopen readsAs apply rfl offer

/-- A step that tells the host of an edit to a document wrote a fix into it. -/
theorem Effect.writes_of_entry {doc : Doc} {told : Version} {edit : Edit}
    (h : Effect s call answer s') (made : s.WellMade)
    (hentry : (⟨s, call, answer, s'⟩ : Step).told? doc = some (told, edit)) :
    ∃ document fix next tree, s.service.document? doc = some document ∧
      (⟨s, call, answer, s'⟩ : Step).Writes doc document fix edit next tree := by
  have open_of_apply : ∀ {target fix version edit service}, target = doc →
      (s.service.apply target fix).outcome.value = .ok (some (version, edit), service) →
      ∃ document, s.service.document? doc = some document := by
    intro target fix version edit service htarget apply
    obtain ⟨document, _, _, hdocument, -⟩ := Service.wrote_of_apply (made target) apply
    exact ⟨document, htarget ▸ hdocument⟩
  have happlied : (⟨s, call, answer, s'⟩ : Step).resets doc = false ∧
      ∃ document, s.service.document? doc = some document := by
    cases h with
    | quiet hquiet =>
      rw [Step.told?_of_quiet hquiet] at hentry
      cases hentry
    | opened | closed | packaged | offered => cases hentry
    | applied fix version edit service place apply =>
      obtain ⟨htarget, -⟩ := Option.ite_none_right_eq_some.mp hentry
      exact ⟨rfl, open_of_apply htarget apply⟩
    | fixed fix version edit service offer apply =>
      obtain ⟨htarget, -⟩ := Option.ite_none_right_eq_some.mp hentry
      exact ⟨rfl, open_of_apply htarget apply⟩
  obtain ⟨kept, document, hdocument⟩ := happlied
  rcases h.document kept hdocument (made doc document hdocument) with
    ⟨hnone, -⟩ | ⟨fix, edit', next, tree, hwrites⟩
  · rw [hnone] at hentry
    cases hentry
  · obtain ⟨-, rfl⟩ := Prod.mk.inj (Option.some.inj (hentry.symm.trans hwrites.entry))
    exact ⟨document, fix, next, tree, hdocument, hwrites⟩

/-- What holds of a document when it is open, and after every fix that is written into it, holds as
long as it is neither opened anew nor closed: before every step and in the end. -/
theorem Run.document {doc : Doc} {steps : List Step} (h : Run s steps last)
    (kept : ∀ step ∈ steps, step.resets doc = false) (holds : Document → Prop)
    (readsAs : ∀ document, holds document → ∃ sub, document.tree.ReadsAs sub)
    (writes : ∀ (step : Step) document fix edit next tree,
      step.Writes doc document fix edit next tree →
      holds document → holds ⟨next, tree⟩)
    {document : Document} (hopen : s.service.document? doc = some document)
    (first : holds document) :
    (∃ document', last.service.document? doc = some document' ∧ holds document') ∧
      ∀ step ∈ steps, ∃ document', step.before.service.document? doc = some document' ∧
        holds document' := by
  induction h generalizing document with
  | nil s => exact ⟨⟨document, hopen, first⟩, fun _ hmem => nomatch hmem⟩
  | @cons s next last call answer steps hstep _ ih =>
    -- the induction goes from the front, so the property has to hold of the next document
    have hbefore : ∃ document', s.service.document? doc = some document' ∧ holds document' :=
      ⟨document, hopen, first⟩
    have hafter : ∃ document', next.service.document? doc = some document' ∧ holds document' := by
      rcases (step_effect hstep).document (kept _ List.mem_cons_self) hopen (readsAs _ first) with
        ⟨-, hsame⟩ | ⟨fix, edit, version, tree, hwrites⟩
      · exact ⟨document, hsame, first⟩
      · exact ⟨_, hwrites.after, writes _ _ _ _ _ _ hwrites first⟩
    obtain ⟨document', hopen', hholds'⟩ := hafter
    have hrest := ih (fun step hmem => kept step (List.mem_cons_of_mem _ hmem)) hopen' hholds'
    refine ⟨hrest.1, ?_⟩
    intro step hmem
    rcases List.mem_cons.mp hmem with rfl | hmem
    · exact hbefore
    · exact hrest.2 step hmem

/-! ## A short run -/

/-- What is seen of the end of a run is seen of a state that is reached. -/
theorem exists_of_seen {α : Type} {calls : List Call} {see : List Answer × Session → α} {seen : α}
    (h : (run calls .new).outcome.value.toOption.map see = some seen) :
    ∃ answers s, (run calls .new).outcome.value = .ok (answers, s) ∧ s.Reached ∧
      see (answers, s) = seen := by
  obtain ⟨⟨answers, s⟩, hrun, hseen⟩ := exists_ok_of_seen h
  obtain ⟨steps, hsteps, -⟩ := run_eq_ok.mp hrun
  exact ⟨answers, s, hrun, ⟨steps, hsteps⟩, hseen⟩

/-- A document of the workspace with one private function behind a comment. -/
def sampleText : String :=
  "\x7b\"package\":\x7b\"name\":\"app\",\"origin\":\"workspace\"\x7d," ++
  "\"tree\":\x7b\"kind\":\"FnItem\",\"children\":[" ++
  "\x7b\"token\":\"Comment\",\"text\":\"/*é*/\"\x7d,\x7b\"token\":\"Fn\"\x7d," ++
  "\x7b\"token\":\"Space\",\"text\":\" \"\x7d," ++
  "\x7b\"kind\":\"Name\",\"children\":[\x7b\"token\":\"Ident\",\"text\":\"f\"\x7d]\x7d]\x7d\x7d"

/-- The document is opened, a fix for the function is asked for and applied. -/
def sample : List Call :=
  [.openJson ⟨1⟩ 7 sampleText, .makePublic ⟨1⟩ "f" .pub, .apply ⟨1⟩ 0]

/-- The run ends with the function public and the version counted up. -/
theorem sample_run : ∃ s document, (run sample .new).outcome.value =
      .ok ([.done, .offered 0 ⟨⟨1⟩, "Make `f` public", .pub⟩,
        .applied 7 ⟨.emptyAt ⟨6, 0, 6, 5⟩, "pub "⟩ "/*é*/pub fn f"], s) ∧
    s.service.document? ⟨1⟩ = some document ∧ document.version = 8 := by
  have heval : ((run sample .new).outcome.value.toOption.map fun reached =>
      (reached.1, (reached.2.service.document? ⟨1⟩).map (·.version))) =
      some ([.done, .offered 0 ⟨⟨1⟩, "Make `f` public", .pub⟩,
        .applied 7 ⟨.emptyAt ⟨6, 0, 6, 5⟩, "pub "⟩ "/*é*/pub fn f"], some 8) := by decide +kernel
  obtain ⟨answers, s, hrun, -, hseen⟩ := exists_of_seen heval
  obtain ⟨rfl, hversion⟩ := Prod.mk.inj hseen
  obtain ⟨document, hdocument, hversion⟩ := Option.map_eq_some_iff.mp hversion
  exact ⟨s, document, hrun, hdocument, hversion⟩

theorem sample_steps : ∃ opening offer application last document,
    Run .new [opening, offer, application] last ∧
      (opening.call = .openJson ⟨1⟩ 7 sampleText ∧ opening.answer = .done) ∧
      (offer.call = .makePublic ⟨1⟩ "f" .pub ∧
        offer.answer = .offered 0 ⟨⟨1⟩, "Make `f` public", .pub⟩) ∧
      (application.call = .apply ⟨1⟩ 0 ∧
        application.answer = .applied 7 ⟨.emptyAt ⟨6, 0, 6, 5⟩, "pub "⟩ "/*é*/pub fn f") ∧
      last.service.document? ⟨1⟩ = some document ∧ document.version = 8 := by
  obtain ⟨last, document, hrun, hdocument⟩ := sample_run
  obtain ⟨steps, hsteps, hcalls, hanswers⟩ := run_eq_ok.mp hrun
  obtain ⟨opening, rest, rfl, hopening, hcalls⟩ := List.map_eq_cons_iff.mp hcalls
  obtain ⟨offer, rest, rfl, hoffer, hcalls⟩ := List.map_eq_cons_iff.mp hcalls
  obtain ⟨application, rest, rfl, happlication, hcalls⟩ := List.map_eq_cons_iff.mp hcalls
  obtain rfl := List.map_eq_nil_iff.mp hcalls
  simp only [List.map_cons, List.map_nil, List.cons.injEq, and_true] at hanswers
  exact ⟨opening, offer, application, last, document, hsteps, ⟨hopening, hanswers.1⟩,
    ⟨hoffer, hanswers.2.1⟩, ⟨happlication, hanswers.2.2⟩, hdocument⟩

/-- The JSON text of a declaration with a name and with what else is in it. -/
def declText (kind : ElementKind) (name inner : String) : String :=
  "\x7b\"kind\":\"" ++ kind.label ++ "\",\"children\":[\x7b\"kind\":\"Name\"," ++
  "\"children\":[\x7b\"token\":\"Ident\",\"text\":\"" ++ name ++ "\"\x7d]\x7d" ++ inner ++ "]\x7d"

/-- A source file with a module `m` and a function `f` in it. -/
def nestedText : String :=
  "\x7b\"tree\":\x7b\"kind\":\"SourceFile\",\"children\":[" ++
  declText .modItem "m" ("," ++ declText .fnItem "f" "") ++ "]\x7d\x7d"

/-- The document is opened and put into a package of the workspace. -/
def nested : List Call := [.openJson ⟨1⟩ 7 nestedText, .setPackage ⟨1⟩ ⟨"app", .workspace⟩]

/-- In the state that is reached, fixes are on offer for the module and for the function in it. -/
theorem nested_reached : ∃ (s : Session) (document : Document), s.Reached ∧
    s.service.document? ⟨1⟩ = some document ∧ document.version = 7 ∧
    document.tree.symbolKind? document.tree.root = none ∧
    (s.service.makePublic ⟨1⟩ "m" .pub).value = some ⟨⟨3⟩, "Make `m` public", .pub⟩ ∧
    (s.service.makePublic ⟨1⟩ "m::f" .crateOnly).value =
      some ⟨⟨2⟩, "Make `f` public", .crateOnly⟩ := by
  have heval : ((run nested .new).outcome.value.toOption.map fun reached =>
      ((reached.2.service.document? ⟨1⟩).any fun document =>
          document.version = 7 ∧ document.tree.symbolKind? document.tree.root = none,
        (reached.2.service.makePublic ⟨1⟩ "m" .pub).value,
        (reached.2.service.makePublic ⟨1⟩ "m::f" .crateOnly).value)) =
      some (true, some ⟨⟨3⟩, "Make `m` public", .pub⟩,
        some ⟨⟨2⟩, "Make `f` public", .crateOnly⟩) := by decide +kernel
  obtain ⟨_, s, -, hs, hseen⟩ := exists_of_seen heval
  obtain ⟨hdocument, hfixes⟩ := Prod.mk.inj hseen
  obtain ⟨hmodule, hfunction⟩ := Prod.mk.inj hfixes
  obtain ⟨document, hopen, hdocument⟩ := (Option.any_eq_true _ _).mp hdocument
  obtain ⟨hversion, hroot⟩ := of_decide_eq_true hdocument
  exact ⟨s, document, hs, hopen, hversion, hroot, hmodule, hfunction⟩

end Session

end DeclVisibility
