import DeclVisibility.Proofs.Service.Belonging
import DeclVisibility.Proofs.Service.Sight

/-!
# Documents do not see each other

The requests for one document can be taken out of a run, and asked on their own in a new session.
They are answered as they were in the run (`Session.isolated`), whatever was asked for other
documents in between, as long as no other document uses the names of this document's packages and
this document is given the fixes that were offered for it. A fix is named by its place among the
offers of its session, so the places are counted anew when the other offers are left out
(`Call.among`, `Answer.among`).

The two sessions are kept alike from this document's point of view (`Session.SameFor`) by a request
for it (`SameFor.step_own`), which both answer, and by one for another document
(`SameFor.step_other`), which only the first one answers.
-/

namespace DeclVisibility

open Attempt (Alike)

/-! ## Requests and answers -/

/-- The document that a request is for. -/
def Call.doc : Call → Doc
  | .openJson doc _ _ | .close doc | .setPackage doc _ | .version doc | .text doc | .dump doc
  | .json doc | .find doc _ | .makePublic doc _ _ | .apply doc _ | .fixNow doc _ _ | .outline doc
  | .render doc => doc

/-- The package that a request adds. -/
def Call.package? : Call → Option Package
  | .openJson _ _ content => Exchange.addedPackage? content
  | .setPackage _ package => some package
  | _ => none

/-- The place among the offers that a fix was given. -/
def Answer.slot? : Answer → Option Nat
  | .offered slot _ => some slot
  | _ => none

/-- The request with the fix named by its place among the offers at these places. -/
def Call.among (slots : List Nat) : Call → Call
  | .apply doc slot => .apply doc (slots.idxOf slot)
  | call => call

/-- The answer with the fix taking the next place behind the offers at these places. -/
def Answer.among (slots : List Nat) : Answer → Answer
  | .offered _ fix => .offered slots.length fix
  | answer => answer

theorem Answer.among_of_slot? {answer : Answer} (h : answer.slot? = none) (slots : List Nat) :
    answer.among slots = answer := by
  cases answer with
  | offered slot fix => cases h
  | _ => rfl

namespace Session

/-- The places of the offers that were made for a document. -/
def offersFor (doc : Doc) (talk : List (Call × Answer)) : List Nat :=
  talk.flatMap fun (call, answer) => if call.doc = doc then answer.slot?.toList else []

/-- What is said about one document, with the offers counted for it alone; those before are at the
places `slots`. -/
def talkOf (doc : Doc) (slots : List Nat) : List (Call × Answer) → List (Call × Answer)
  | [] => []
  | (call, answer) :: rest =>
    if call.doc = doc then
      (call.among slots, answer.among slots) :: talkOf doc (slots ++ answer.slot?.toList) rest
    else talkOf doc slots rest

/-- No request for another document adds a package of this name. -/
def Unshared (doc : Doc) (calls : List Call) (name : String) : Prop :=
  ∀ other ∈ calls, other.doc ≠ doc → ∀ package, other.package? = some package →
    package.name ≠ name

/-- Only fixes that were offered for the document before, or at places `slots`, are applied to
it. -/
def AppliesOwn (doc : Doc) (slots : List Nat) (talk : List (Call × Answer)) : Prop :=
  ∀ before slot answer after, talk = before ++ (.apply doc slot, answer) :: after →
    slot ∈ slots ++ offersFor doc before ∨ answer = .noSuchSlot

/-! ## Two sessions that look alike to a document -/

/-- A document sees the same of two sessions, and the offers of the second are those of the first at
these places. -/
structure SameFor (doc : Doc) (own : String → Prop) (slots : List Nat) (s t : Session) : Prop where
  service : s.service.SameFor doc own t.service
  offers : t.offers.map some = slots.map (s.offers[·]?)

/-- A request was answered alike, and the sessions still look alike to the document. -/
structure SameAnswer (doc : Doc) (own : String → Prop) (slots : List Nat)
    (x y : Answer × Session) : Prop where
  answer : y.1 = x.1.among slots
  session : x.2.SameFor doc own (slots ++ x.1.slot?.toList) y.2

variable {doc : Doc} {own : String → Prop} {slots : List Nat} {s s' t : Session}

theorem sameFor_new (doc : Doc) (own : String → Prop) : new.SameFor doc own [] new where
  service := Service.sameFor_new doc own
  offers := rfl

theorem SameFor.length_offers (h : s.SameFor doc own slots t) : t.offers.length = slots.length := by
  simpa using congrArg List.length h.offers

/-- A place that the document knows leads to the offer that it led to. -/
theorem SameFor.offer_idxOf (h : s.SameFor doc own slots t) {slot : Nat}
    (hslot : slot ∈ slots ∨ s.offers[slot]? = none) :
    t.offers[slots.idxOf slot]? = s.offers[slot]? := by
  have hplace := congrArg (·[slots.idxOf slot]?) h.offers
  by_cases hmem : slot ∈ slots
  · simp only [List.getElem?_map, List.getElem?_idxOf hmem, Option.map_some] at hplace
    obtain ⟨fix, hfix, heq⟩ := Option.map_eq_some_iff.mp hplace
    rw [hfix, heq]
  · rw [hslot.resolve_left hmem, List.getElem?_eq_none_iff, h.length_offers,
      List.idxOf_eq_length hmem]

theorem SameFor.withService (h : s.SameFor doc own slots t) {service service' : Service}
    (hservice : service.SameFor doc own service') :
    (s.withService service).SameFor doc own slots (t.withService service') where
  service := hservice
  offers := h.offers

/-- One more offer leaves the others at their places. -/
theorem SameFor.map_offers (h : s.SameFor doc own slots t) (fix : Fix) :
    slots.map ((s.offers ++ [fix])[·]?) = slots.map (s.offers[·]?) := by
  refine List.map_congr_left fun slot hslot => ?_
  have hmem : s.offers[slot]? ∈ t.offers.map some := h.offers ▸ List.mem_map_of_mem hslot
  obtain ⟨held, -, hheld⟩ := List.mem_map.mp hmem
  exact List.getElem?_append_left (List.getElem?_eq_some_iff.mp hheld.symm).1

/-- A question is answered alike, and changes neither session. -/
theorem SameFor.answered (h : s.SameFor doc own slots t) {answer answer' : Answer}
    (same : answer' = answer) (plain : answer.slot? = none) :
    SameAnswer doc own slots (answer, s) (answer', t) where
  answer := same.trans (answer.among_of_slot? plain slots).symm
  session := by
    rw [plain, Option.toList_none, List.append_nil]
    exact h

theorem SameFor.offered (h : s.SameFor doc own slots t) (fix : Fix) :
    SameAnswer doc own slots
      (.offered s.offers.length fix, { s with offers := s.offers ++ [fix] })
      (.offered t.offers.length fix, { t with offers := t.offers ++ [fix] }) where
  answer := congrArg (Answer.offered · fix) h.length_offers
  session := by
    refine ⟨h.service, ?_⟩
    simp only [Answer.slot?, Option.toList_some, List.map_append, h.offers, h.map_offers]
    simp

/-! ## One request -/

/-- A request for the document is answered alike by two sessions that look alike to it. -/
theorem SameFor.step_own (h : s.SameFor doc own slots t) {call : Call} (hdoc : call.doc = doc)
    (hown : ∀ package, call.package? = some package → own package.name)
    (happly : ∀ slot, call = .apply doc slot → slot ∈ slots ∨ s.offers[slot]? = none) :
    Alike (SameAnswer doc own slots) (s.step call) (t.step (call.among slots)) := by
  have hdocument := h.service.document?
  cases call with
  | openJson d version text =>
    obtain rfl : d = doc := hdoc
    refine .bind (h.service.openJson hown) fun opened opened' hopened => ?_
    cases hopened with
    | refused error => exact .pure (h.answered rfl rfl)
    | opened same => exact .pure ((h.withService same).answered rfl rfl)
  | close d =>
    obtain rfl : d = doc := hdoc
    exact .pure ((h.withService h.service.close).answered rfl rfl)
  | setPackage d package =>
    obtain rfl : d = doc := hdoc
    refine .bind (h.service.setPackage (hown package rfl)) fun _ _ same => ?_
    exact .pure ((h.withService same).answered rfl rfl)
  | version d =>
    obtain rfl : d = doc := hdoc
    refine .pure (h.answered (congrArg Answer.version ?_) rfl)
    rw [Service.version?, Service.version?, hdocument]
  | text d =>
    obtain rfl : d = doc := hdoc
    refine .pure (h.answered (congrArg Answer.text ?_) rfl)
    rw [Service.text?, Service.text?, hdocument]
  | dump d =>
    obtain rfl : d = doc := hdoc
    refine .pure (h.answered (congrArg Answer.text ?_) rfl)
    rw [Service.dump?, Service.dump?, hdocument]
  | json d =>
    obtain rfl : d = doc := hdoc
    refine .pure (h.answered (congrArg Answer.text ?_) rfl)
    rw [Service.json?, Service.json?, hdocument]
  | find d name =>
    obtain rfl : d = doc := hdoc
    refine .pure (h.answered (congrArg Answer.found ?_) rfl)
    rw [Service.findDecl?, Service.findDecl?, hdocument]
  | makePublic d name scope =>
    obtain rfl : d = doc := hdoc
    have hoffer := h.service.sameUnder.makePublic name scope
    simp only [Call.among, step, hoffer]
    refine .bind (.same _) fun fix? _ hfix => ?_
    subst hfix
    cases fix? with
    | none => exact .pure (h.answered rfl rfl)
    | some fix => exact .pure (h.offered fix)
  | apply d slot =>
    obtain rfl : d = doc := hdoc
    simp only [Call.among, step, h.offer_idxOf (happly slot rfl)]
    cases s.offers[slot]? with
    | none => exact .pure (h.answered rfl rfl)
    | some fix =>
      refine .bind (h.service.apply fix) fun applied applied' related => ?_
      obtain ⟨_, service⟩ := applied
      obtain ⟨result?, service'⟩ := applied'
      obtain ⟨rfl, same⟩ : result? = _ ∧ service.SameFor d own service' := related
      cases result? with
      | none => exact .pure ((h.withService same).answered rfl rfl)
      | some written =>
        have htext : service'.text? d = service.text? d := by
          rw [Service.text?, Service.text?, same.document?]
        refine .pure ((h.withService same).answered ?_ rfl)
        rw [htext]
  | fixNow d name scope =>
    obtain rfl : d = doc := hdoc
    have hoffer := h.service.sameUnder.makePublic name scope
    simp only [Call.among, step, hoffer]
    refine .bind (.same _) fun fix? _ hfix => ?_
    subst hfix
    cases fix? with
    | none => exact .pure (h.answered rfl rfl)
    | some fix =>
      refine .bind (h.service.apply fix) fun applied applied' related => ?_
      obtain ⟨_, service⟩ := applied
      obtain ⟨result?, service'⟩ := applied'
      obtain ⟨rfl, same⟩ : result? = _ ∧ service.SameFor d own service' := related
      cases result? with
      | none => exact .pure ((h.withService same).answered rfl rfl)
      | some written => exact .pure ((h.withService same).answered rfl rfl)
  | outline d =>
    obtain rfl : d = doc := hdoc
    simp only [Call.among, step, h.service.sameUnder.outline]
    refine .bind (.same _) fun items _ hitems => ?_
    subst hitems
    exact .pure (h.answered rfl rfl)
  | render d =>
    obtain rfl : d = doc := hdoc
    simp only [Call.among, step, h.service.sameUnder.outline]
    refine .bind (.same _) fun items _ hitems => ?_
    subst hitems
    refine .bind (.same _) fun text _ htext => ?_
    subst htext
    exact .pure (h.answered rfl rfl)

/-- A request for another document changes nothing that the document sees. -/
theorem SameFor.step_other (h : s.SameFor doc own slots t) {call : Call} {answer : Answer}
    (hdoc : call.doc ≠ doc)
    (hfree : ∀ package, call.package? = some package → ¬ own package.name)
    (hstep : (s.step call).outcome.value = .ok (answer, s')) : s'.SameFor doc own slots t := by
  cases call with
  | openJson d version text =>
    obtain ⟨opened, hopen, hstep⟩ := Attempt.value_bind_eq_ok.mp hstep
    cases opened with
    | error error =>
      obtain ⟨-, rfl⟩ := Prod.mk.inj (Except.ok.inj hstep)
      exact h
    | ok service =>
      obtain ⟨-, rfl⟩ := Prod.mk.inj (Except.ok.inj hstep)
      exact ⟨h.service.openJson_other hdoc hfree hopen, h.offers⟩
  | close d =>
    obtain ⟨-, rfl⟩ := Prod.mk.inj (Except.ok.inj hstep)
    exact ⟨h.service.close_other hdoc, h.offers⟩
  | setPackage d package =>
    obtain ⟨service, hset, hstep⟩ := Attempt.value_bind_eq_ok.mp hstep
    obtain ⟨-, rfl⟩ := Prod.mk.inj (Except.ok.inj hstep)
    exact ⟨h.service.setPackage_other hdoc (hfree package rfl) hset, h.offers⟩
  | version d | text d | dump d | json d | find d name =>
    obtain ⟨-, rfl⟩ := Prod.mk.inj (Except.ok.inj hstep)
    exact h
  | makePublic d name scope =>
    obtain ⟨fix?, -, hstep⟩ := Attempt.value_bind_eq_ok.mp hstep
    cases fix? with
    | none =>
      obtain ⟨-, rfl⟩ := Prod.mk.inj (Except.ok.inj hstep)
      exact h
    | some fix =>
      obtain ⟨-, rfl⟩ := Prod.mk.inj (Except.ok.inj hstep)
      exact ⟨h.service, h.offers.trans (h.map_offers fix).symm⟩
  | apply d slot =>
    rw [step] at hstep
    split at hstep
    · obtain ⟨-, rfl⟩ := Prod.mk.inj (Except.ok.inj hstep)
      exact h
    · obtain ⟨⟨result?, service⟩, happly, hstep⟩ := Attempt.value_bind_eq_ok.mp hstep
      have hservice := h.service.apply_other hdoc happly
      cases result? with
      | none | some written =>
        obtain ⟨-, rfl⟩ := Prod.mk.inj (Except.ok.inj hstep)
        exact ⟨hservice, h.offers⟩
  | fixNow d name scope =>
    obtain ⟨fix?, -, hstep⟩ := Attempt.value_bind_eq_ok.mp hstep
    cases fix? with
    | none =>
      obtain ⟨-, rfl⟩ := Prod.mk.inj (Except.ok.inj hstep)
      exact h
    | some fix =>
      obtain ⟨⟨result?, service⟩, happly, hstep⟩ := Attempt.value_bind_eq_ok.mp hstep
      have hservice := h.service.apply_other hdoc happly
      cases result? with
      | none | some written =>
        obtain ⟨-, rfl⟩ := Prod.mk.inj (Except.ok.inj hstep)
        exact ⟨hservice, h.offers⟩
  | outline d =>
    obtain ⟨items, -, hstep⟩ := Attempt.value_bind_eq_ok.mp hstep
    obtain ⟨-, rfl⟩ := Prod.mk.inj (Except.ok.inj hstep)
    exact h
  | render d =>
    obtain ⟨items, -, hstep⟩ := Attempt.value_bind_eq_ok.mp hstep
    obtain ⟨text, -, hstep⟩ := Attempt.value_bind_eq_ok.mp hstep
    obtain ⟨-, rfl⟩ := Prod.mk.inj (Except.ok.inj hstep)
    exact h

/-! ## A run -/

theorem offer_of_noSuchSlot {slot : Nat}
    (h : (s.step (.apply doc slot)).outcome.value = .ok (.noSuchSlot, s')) :
    s.offers[slot]? = none := by
  rw [step] at h
  split at h
  · rename_i hslot
    exact hslot
  · obtain ⟨⟨result?, service⟩, -, h⟩ := Attempt.value_bind_eq_ok.mp h
    cases result? with
    | none | some written => cases Except.ok.inj h

theorem offersFor_cons (call : Call) (answer : Answer) (rest : List (Call × Answer)) :
    offersFor doc ((call, answer) :: rest) =
      (if call.doc = doc then answer.slot?.toList else []) ++ offersFor doc rest :=
  List.flatMap_cons

theorem appliesOwn_nil : AppliesOwn doc slots [] := by
  intro before slot answer after h
  cases List.append_eq_nil_iff.mp h.symm |>.2

/-- A fix that is applied first was offered before, and what comes after keeps to the offers made
before and by the first request. -/
theorem appliesOwn_cons {call : Call} {answer : Answer} {rest : List (Call × Answer)} :
    AppliesOwn doc slots ((call, answer) :: rest) ↔
      (∀ slot, call = .apply doc slot → slot ∈ slots ∨ answer = .noSuchSlot) ∧
        AppliesOwn doc (slots ++ if call.doc = doc then answer.slot?.toList else []) rest := by
  constructor
  · intro h
    constructor
    · rintro slot rfl
      simpa [offersFor] using h [] slot answer rest rfl
    · intro before slot answer' after hrest
      have hmem := h ((call, answer) :: before) slot answer' after (congrArg (_ :: ·) hrest)
      rwa [offersFor_cons, ← List.append_assoc] at hmem
  · rintro ⟨hfirst, hrest⟩ before slot answer' after h
    cases before with
    | nil =>
      obtain ⟨⟨rfl, rfl⟩, -⟩ := (List.cons.injEq _ _ _ _ ▸ h : _ ∧ _).imp_left Prod.mk.inj
      simpa [offersFor] using hfirst slot rfl
    | cons entry before =>
      obtain ⟨rfl, hbefore⟩ := List.cons.inj h
      have hmem := hrest before slot answer' after hbefore
      rwa [offersFor_cons, ← List.append_assoc]

theorem SameFor.run {calls : List Call} {answers : List Answer} {last : Session}
    (h : s.SameFor doc own slots t)
    (hown : ∀ call ∈ calls, call.doc = doc → ∀ package, call.package? = some package →
      own package.name)
    (hfree : ∀ call ∈ calls, call.doc ≠ doc → ∀ package, call.package? = some package →
      ¬ own package.name)
    (hrun : (run calls s).outcome.value = .ok (answers, last))
    (happly : AppliesOwn doc slots (calls.zip answers)) :
    ∃ alone, (Session.run ((talkOf doc slots (calls.zip answers)).map Prod.fst) t).outcome.value =
        .ok ((talkOf doc slots (calls.zip answers)).map Prod.snd, alone) ∧
      last.SameFor doc own (slots ++ offersFor doc (calls.zip answers)) alone := by
  induction calls generalizing s t slots answers with
  | nil =>
    obtain ⟨rfl, rfl⟩ := Prod.mk.inj (Except.ok.inj hrun)
    exact ⟨t, rfl, by simpa [offersFor] using h⟩
  | cons call rest ih =>
    obtain ⟨⟨answer, next⟩, hstep, hrun⟩ := Attempt.value_bind_eq_ok.mp hrun
    obtain ⟨⟨answers, last⟩, hrest, hrun⟩ := Attempt.value_bind_eq_ok.mp hrun
    obtain ⟨rfl, rfl⟩ := Prod.mk.inj (Except.ok.inj hrun)
    have hownRest := fun c hc => hown c (List.mem_cons_of_mem call hc)
    have hfreeRest := fun c hc => hfree c (List.mem_cons_of_mem call hc)
    rw [List.zip_cons_cons, appliesOwn_cons] at happly
    obtain ⟨hfirst, happlyRest⟩ := happly
    rw [List.zip_cons_cons, talkOf, offersFor_cons, ← List.append_assoc]
    by_cases hdoc : call.doc = doc
    · have hplace : ∀ slot, call = .apply doc slot → slot ∈ slots ∨ s.offers[slot]? = none := by
        rintro slot rfl
        refine (hfirst slot rfl).imp_right ?_
        rintro rfl
        exact offer_of_noSuchSlot hstep
      obtain ⟨⟨_, next'⟩, hstep', rfl, hnext⟩ :=
        (h.step_own hdoc (hown call List.mem_cons_self hdoc) hplace).exists_ok hstep
      rw [if_pos hdoc] at happlyRest
      rw [if_pos hdoc, if_pos hdoc]
      obtain ⟨alone, hrun', hlast⟩ := ih hnext hownRest hfreeRest hrest happlyRest
      refine ⟨alone, ?_, hlast⟩
      rw [List.map_cons, List.map_cons]
      refine (Attempt.value_bind_of_ok hstep').trans ?_
      exact Attempt.value_bind_of_ok hrun'
    · have hnext := h.step_other hdoc (hfree call List.mem_cons_self hdoc) hstep
      rw [if_neg hdoc, List.append_nil] at happlyRest
      rw [if_neg hdoc, if_neg hdoc, List.append_nil]
      exact ih hnext hownRest hfreeRest hrest happlyRest

/-- The requests for one document are answered as they are in a session of their own, and so is any
further one: no request for another document is told from its absence. No other document may use the
names of this one's packages, and this one is given only the fixes that were offered for it. -/
theorem isolated {calls : List Call} {answers : List Answer} {last : Session}
    (hrun : (Session.run calls .new).outcome.value = .ok (answers, last))
    (hpackages : ∀ call ∈ calls, call.doc = doc → ∀ package, call.package? = some package →
      Unshared doc calls package.name)
    (hfixes : AppliesOwn doc [] (calls.zip answers)) :
    ∃ alone, (Session.run ((talkOf doc [] (calls.zip answers)).map Prod.fst) .new).outcome.value =
        .ok ((talkOf doc [] (calls.zip answers)).map Prod.snd, alone) ∧
      ∀ call : Call, call.doc = doc →
        (∀ package, call.package? = some package → Unshared doc calls package.name) →
        (∀ slot, call = .apply doc slot → slot ∈ offersFor doc (calls.zip answers)) →
        Alike (fun x y => y.1 = x.1.among (offersFor doc (calls.zip answers))) (last.step call)
          (alone.step (call.among (offersFor doc (calls.zip answers)))) := by
  have hfree : ∀ call ∈ calls, call.doc ≠ doc → ∀ package, call.package? = some package →
      ¬ Unshared doc calls package.name := fun call hcall hdoc package hpackage hunshared =>
    hunshared call hcall hdoc package hpackage rfl
  obtain ⟨alone, halone, hlast⟩ :=
    (sameFor_new doc (Unshared doc calls)).run hpackages hfree hrun hfixes
  refine ⟨alone, halone, fun call hdoc hpackage hslot => ?_⟩
  have hstep := hlast.step_own hdoc hpackage fun slot hcall => .inl (hslot slot hcall)
  cases hstep with
  | ok first second related => exact .ok first second related.answer
  | fault first second => exact .fault first second

/-- Two documents are opened, put into packages and offered fixes in turn, and the second offer is
applied to its document when the other one was closed. -/
def mixed : List Call :=
  [.openJson ⟨2⟩ 3 (privateText .fnItem), .openJson ⟨1⟩ 7 (privateText .fnItem),
    .setPackage ⟨2⟩ ⟨"lib", .workspace⟩, .setPackage ⟨1⟩ ⟨"app", .workspace⟩,
    .makePublic ⟨2⟩ "f" .crateOnly, .makePublic ⟨1⟩ "f" .pub, .close ⟨2⟩, .apply ⟨1⟩ 1]

/-- Without the other document the offer is the first. -/
theorem isolated_sample : ∃ answers last alone,
    (Session.run mixed .new).outcome.value = .ok (answers, last) ∧
    (∀ call ∈ mixed, call.doc = ⟨1⟩ → ∀ package, call.package? = some package →
      Unshared ⟨1⟩ mixed package.name) ∧
    AppliesOwn ⟨1⟩ [] (mixed.zip answers) ∧
    (Session.run [.openJson ⟨1⟩ 7 (privateText .fnItem), .setPackage ⟨1⟩ ⟨"app", .workspace⟩,
        .makePublic ⟨1⟩ "f" .pub, .apply ⟨1⟩ 0] .new).outcome.value =
      .ok ([.done, .done, .offered 0 ⟨⟨1⟩, "Make `f` public", .pub⟩,
        .applied 7 ⟨.emptyAt .zero, "pub "⟩ "pub f"], alone) := by
  have heval : (Session.run mixed .new).outcome.value.toOption.map Prod.fst =
      some [.done, .done, .done, .done, .offered 0 ⟨⟨1⟩, "Make `f` public", .crateOnly⟩,
        .offered 1 ⟨⟨1⟩, "Make `f` public", .pub⟩, .done,
        .applied 7 ⟨.emptyAt .zero, "pub "⟩ "pub f"] := by decide +kernel
  obtain ⟨answers, last, hrun, -, hanswers⟩ := exists_of_seen heval
  have htext : Exchange.addedPackage? (privateText .fnItem) = none := by decide +kernel
  have hown : ∀ call ∈ mixed, call.doc = ⟨1⟩ → ∀ package, call.package? = some package →
      package.name = "app" := by
    simp [mixed, Call.doc, Call.package?, htext]
  have hother : ∀ call ∈ mixed, call.doc ≠ ⟨1⟩ → ∀ package, call.package? = some package →
      package.name = "lib" := by
    simp [mixed, Call.doc, Call.package?, htext]
  have hunshared : ∀ call ∈ mixed, call.doc = ⟨1⟩ → ∀ package, call.package? = some package →
      Unshared ⟨1⟩ mixed package.name := by
    intro call hcall hdoc package hpackage other hmem hne held hheld
    rw [hown call hcall hdoc package hpackage, hother other hmem hne held hheld]
    decide
  have hfixes : AppliesOwn ⟨1⟩ [] (mixed.zip answers) := by
    rw [show answers = _ from hanswers]
    simp [mixed, appliesOwn_cons, appliesOwn_nil, Call.doc, Answer.slot?]
  obtain ⟨alone, halone, -⟩ := isolated hrun hunshared hfixes
  refine ⟨answers, last, alone, hrun, hunshared, hfixes, ?_⟩
  rw [show answers = _ from hanswers] at halone
  exact halone

end Session

end DeclVisibility
