import DeclVisibility.Proofs.Service.Runs

/-!
# From an offer to its application

A fix that is offered can be applied at once, and its declaration is as visible as the fix says from
then on: no fix for it is offered or applied again (`Session.offer_works_once`). Between the offer
and the application other fixes may be applied to the document, but none of them changes what the
offer was made on (`Fix.Wrote.suits`), so whenever a fix is applied to the document that it was
offered for, the guard of the offer holds again (`Session.guard_at_application`), the origin of the
document apart, which is not asked for a second time.
-/

namespace DeclVisibility.Session

variable {s last : Session} {doc : Doc}

/-! ## Once and never again -/

/-- An offered fix can be applied in the same state, unless the version is the largest, and makes
the declaration as visible as was asked for. From then on, until the document is opened anew or
closed, no fix for this declaration is offered, whatever the scope and the origin, and none is
applied. -/
theorem offer_works_once (hs : s.Reached) {name : String} {oneCrate : Bool} {fix : Fix}
    (hoffer : (s.service.makePublic doc name (.within oneCrate)).value = some fix)
    (hversion : s.service.version? doc ≠ some Int64.maxValue) :
    ∃ version edit service document,
      (s.service.apply doc fix).outcome.value = .ok (some (version, edit), service) ∧
      service.document? doc = some document ∧
      (document.tree.visibilityOf fix.decl).value =
        (if oneCrate then .restricted .crate else .pub) ∧
      ∀ offers steps last, Run ⟨service, offers⟩ steps last →
        (∀ step ∈ steps, step.resets doc = false) →
        ∃ later, last.service.document? doc = some later ∧
          (∀ name? scope origin?, (later.tree.offerFix fix.decl name? scope origin?).value = none) ∧
          ∀ again : Fix, again.decl = fix.decl →
            (last.service.apply doc again).outcome.value = .ok (none, last.service) := by
  obtain ⟨document, hdocument, -, hoffers, hscope⟩ := Service.makePublic_eq_some hoffer
  obtain ⟨sub, hsub⟩ := hs.wellMade doc document hdocument
  have hnext : nextVersion document.version = .ok (document.version + 1) := by
    rw [nextVersion, if_neg]
    intro hmax
    apply hversion
    rw [Service.version?, hdocument, Option.map_some, hmax]
  obtain ⟨edit, tree, happly, hwrote⟩ := Service.apply_of_applicable hdocument hsub
    (Service.applicable_of_offers hsub hoffers) hoffers.named hnext
  have hvisibility := hwrote.visibility hoffers.isPrivate
  have hnow : (s.service.withDocument doc ⟨document.version + 1, tree⟩).document? doc =
      some ⟨document.version + 1, tree⟩ := by
    rw [Service.document?_withDocument, if_pos rfl]
  refine ⟨document.version, edit, _, _, happly, hnow, ?_, ?_⟩
  · rw [hvisibility, hscope]
    cases oneCrate <;> rfl
  intro offers steps last hrun kept
  -- a visibility that stands in a declaration stays there
  have hwritten : (tree.childElement? fix.decl .vis).isSome := by
    rw [Option.isSome_iff_ne_none]
    intro hnone
    rw [← Forest.isPrivate_visibilityOf, hvisibility] at hnone
    cases hfix : fix.scope <;> rw [hfix] at hnone <;> cases hnone
  obtain ⟨⟨later, hlater, -, hstill⟩, -⟩ := hrun.document kept
    (fun document => (∃ sub, document.tree.ReadsAs sub) ∧
      (document.tree.childElement? fix.decl .vis).isSome)
    (fun _ h => h.1)
    (fun _ _ _ _ _ _ hwrites h => ⟨hwrites.wrote.readsAs, hwrites.wrote.child _ _ h.2⟩)
    hnow ⟨hwrote.readsAs, hwritten⟩
  refine ⟨later, hlater, ?_, ?_⟩
  · intro name? scope origin?
    exact Forest.offerFix_of_written hstill
  · intro again hagain
    exact Service.apply_of_written hlater (hagain ▸ hstill)

theorem offer_works_once_sample : ∃ (s : Session) (fix : Fix) (version : Version) (edit : Edit)
    (service : Service) (document : Document), s.Reached ∧
    (s.service.makePublic ⟨1⟩ "f" .pub).value = some fix ∧
    (s.service.apply ⟨1⟩ fix).outcome.value = .ok (some (version, edit), service) ∧
    service.document? ⟨1⟩ = some document ∧
    (document.tree.visibilityOf fix.decl).value = .pub := by
  obtain ⟨opening, offer, application, last, _, hrun, hopening, hoffer, -⟩ := sample_steps
  have hsplit : Run .new ([opening] ++ [offer, application]) last := hrun
  obtain ⟨s, hfirst, hrest⟩ := Run.append_iff.mp hsplit
  have hreached : s.Reached := ⟨[opening], hfirst⟩
  cases hfirst with
  | @cons _ _ _ call answer _ hstep hnil =>
    cases hnil
    obtain rfl : call = _ := hopening.1
    obtain rfl : answer = _ := hopening.2
    obtain ⟨tree, _, hopen, -⟩ := (step_effect hstep).opened_document
    cases hrest with
    | @cons _ _ _ call' answer' _ hstep' _ =>
      obtain rfl : call' = _ := hoffer.1
      obtain rfl : answer' = _ := hoffer.2
      obtain ⟨hmake, -⟩ := (step_effect hstep').makePublic_of_offered
      have hversion : s.service.version? ⟨1⟩ ≠ some Int64.maxValue := by
        rw [Service.version?, hopen, Option.map_some]
        change some (7 : Version) ≠ some Int64.maxValue
        decide
      have hoffer : (s.service.makePublic ⟨1⟩ "f" (.within false)).value = some _ := hmake
      obtain ⟨version, edit, service, document, happly, hdocument, hvisibility, -⟩ :=
        offer_works_once hreached hoffer hversion
      exact ⟨s, _, version, edit, service, document, hreached, hmake, happly, hdocument, hvisibility⟩

/-! ## The guard at the time of application -/

/-- What holds of a document when a fix is offered for one of its declarations, and lasts. -/
theorem Run.suits {steps : List Step} (h : Run s steps last)
    (kept : ∀ step ∈ steps, step.resets doc = false) {document : Document} {decl : ElementId}
    (hopen : s.service.document? doc = some document) (readsAs : ∃ sub, document.tree.ReadsAs sub)
    (suits : document.tree.Suits decl) :
    ∃ document', last.service.document? doc = some document' ∧ document'.tree.Suits decl := by
  obtain ⟨⟨later, hlater, -, hsuits⟩, -⟩ := h.document kept
    (fun document => (∃ sub, document.tree.ReadsAs sub) ∧ document.tree.Suits decl) (fun _ h => h.1)
    (fun _ _ _ _ _ _ hwrites ⟨⟨_, hsub⟩, hsuits⟩ =>
      ⟨hwrites.wrote.readsAs, hwrites.wrote.suits hsub hsuits⟩) hopen ⟨readsAs, suits⟩
  exact ⟨later, hlater, hsuits⟩

/-- The fix at a place among the offers is the one that was offered there. -/
theorem Run.offered_at {before after : Session} {steps : List Step} {slot : Nat} {name : String}
    {scope : Scope} {offered : Fix}
    (hoffer : Effect before (.makePublic doc name scope) (.offered slot offered) after)
    (h : Run after steps last) : last.offers[slot]? = some offered := by
  obtain ⟨-, -, rfl, hafter⟩ := hoffer.makePublic_of_offered
  obtain ⟨more, hmore⟩ := h.offers
  rw [hmore, hafter, List.append_assoc, List.getElem?_append_right (Nat.le_refl _), Nat.sub_self]
  rfl

/-- Whenever a fix is applied, its declaration is held, reachable, private and named just before. If
the fix was offered for this document since it was opened, the declaration also suits, and the
origin was the workspace when the fix was offered. A fix that is asked for and applied at once finds
the whole guard, the present origin included. -/
theorem guard_at_application {earlier later : List Step} {application : Step} {told : Version}
    {edit : Edit} (hrun : Run .new (earlier ++ application :: later) last)
    (hentry : application.told? doc = some (told, edit)) :
    ∃ fix document, application.fix? = some fix ∧
      application.before.service.document? doc = some document ∧
      document.tree.holds (.element fix.decl) = true ∧
      (document.tree.offsetOf? (.element fix.decl)).isSome ∧
      (document.tree.visibilityOf fix.decl).value.isPrivate = true ∧
      (document.tree.childElement? fix.decl .name).isSome ∧
      (∀ first offer between name scope slot offered, earlier = first ++ offer :: between →
        offer.call = .makePublic doc name scope → offer.answer = .offered slot offered →
        application.call = .apply doc slot → (∀ step ∈ between, step.resets doc = false) →
        fix = offered ∧ document.tree.Suits fix.decl ∧
          offer.before.service.workspace.originOf? doc = some .workspace) ∧
      ∀ name scope, application.call = .fixNow doc name scope →
        document.tree.Offers fix.decl (application.before.service.workspace.originOf? doc) := by
  obtain ⟨_, hearlier, hrest⟩ := Run.append_iff.mp hrun
  cases hrest with
  | @cons mid next _ call answer _ hstep _ =>
    obtain ⟨document, fix, version, tree, hdocument, hwrites⟩ :=
      (step_effect hstep).writes_of_entry (hearlier.wellMade wellMade_new) hentry
    have happlies := hwrites.applies
    refine ⟨fix, document, happlies, hdocument, hwrites.applicable.held,
      hwrites.applicable.reachable, hwrites.applicable.isPrivate, hwrites.named, ?_, ?_⟩
    · intro first offer between name scope slot offered hsplit hcall hanswer hslot kept
      rw [hsplit] at hearlier
      obtain ⟨_, hfirst, hoffer⟩ := Run.append_iff.mp hearlier
      cases hoffer with
      | @cons before after _ call' answer' _ hasked hbetween =>
        obtain rfl : call' = _ := hcall
        obtain rfl : answer' = _ := hanswer
        obtain ⟨hmake, hsame, -, -⟩ := (step_effect hasked).makePublic_of_offered
        obtain ⟨document₀, hopen, -, hoffers, -⟩ := Service.makePublic_eq_some hmake
        have hplace := Run.offered_at (step_effect hasked) hbetween
        rw [Step.fix?, hslot] at happlies
        obtain rfl := Option.some.inj (happlies.symm.trans hplace)
        have hmade := hfirst.wellMade wellMade_new doc document₀ hopen
        rw [← hsame] at hopen
        obtain ⟨document', hdocument', hsuits⟩ :=
          hbetween.suits kept hopen hmade hoffers.toSuits
        obtain rfl := Option.some.inj (hdocument.symm.trans hdocument')
        exact ⟨rfl, hsuits, hoffers.fromWorkspace⟩
    · intro name scope hcall
      rw [Step.fix?, hcall] at happlies
      obtain ⟨document', hdocument', -, hoffers, -⟩ := Service.makePublic_eq_some happlies
      obtain rfl := Option.some.inj (hdocument.symm.trans hdocument')
      exact hoffers

theorem guard_at_application_sample : ∃ (application : Step) (document : Document)
    (decl : ElementId),
    application.call = .apply ⟨1⟩ 0 ∧
      application.before.service.document? ⟨1⟩ = some document ∧ document.tree.Suits decl ∧
      (document.tree.visibilityOf decl).value.isPrivate = true := by
  obtain ⟨opening, offer, application, last, _, hrun, hopening, hoffer, happlication, -⟩ :=
    sample_steps
  have hentry : application.told? ⟨1⟩ = some (7, ⟨.emptyAt ⟨6, 0, 6, 5⟩, "pub "⟩) := by
    rw [Step.told?, happlication.1, happlication.2]
    rfl
  have hsplit : Run .new ([opening, offer] ++ application :: []) last := hrun
  obtain ⟨fix, document, -, hdocument, -, -, hprivate, -, hsince, -⟩ :=
    guard_at_application hsplit hentry
  obtain ⟨-, hsuits, -⟩ := hsince [opening] offer [] _ _ _ _ rfl hoffer.1 hoffer.2 happlication.1
    (fun _ hmem => absurd hmem List.not_mem_nil)
  exact ⟨application, document, fix.decl, happlication.1, hdocument, hsuits, hprivate⟩

/-- The origin is not asked for again: a fix that was offered while the document belonged to the
workspace is applied after the document has moved to a dependency. -/
theorem applied_outside_workspace : ∃ s : Session,
    (run [.openJson ⟨1⟩ 7 sampleText, .makePublic ⟨1⟩ "f" .pub,
        .setPackage ⟨1⟩ ⟨"dep", .dependency⟩] .new).outcome.value =
      .ok ([.done, .offered 0 ⟨⟨1⟩, "Make `f` public", .pub⟩, .done], s) ∧
    (s.step (.apply ⟨1⟩ 0)).outcome.value.toOption.map (·.1) =
      some (.applied 7 ⟨.emptyAt ⟨6, 0, 6, 5⟩, "pub "⟩ "/*é*/pub fn f") ∧
    s.service.workspace.originOf? ⟨1⟩ = some .dependency ∧
    ∀ document, s.service.document? ⟨1⟩ = some document →
      ¬ document.tree.Offers ⟨1⟩ (s.service.workspace.originOf? ⟨1⟩) := by
  have heval : ((run [.openJson ⟨1⟩ 7 sampleText, .makePublic ⟨1⟩ "f" .pub,
      .setPackage ⟨1⟩ ⟨"dep", .dependency⟩] .new).outcome.value.toOption.map fun reached =>
      (reached.1, (reached.2.step (.apply ⟨1⟩ 0)).outcome.value.toOption.map (·.1),
        reached.2.service.workspace.originOf? ⟨1⟩)) =
      some ([.done, .offered 0 ⟨⟨1⟩, "Make `f` public", .pub⟩, .done],
        some (.applied 7 ⟨.emptyAt ⟨6, 0, 6, 5⟩, "pub "⟩ "/*é*/pub fn f"),
        some .dependency) := by decide +kernel
  generalize (run _ .new).outcome.value = reached at heval
  cases reached with
  | error fault => cases heval
  | ok reached =>
    obtain ⟨hanswers, heval⟩ := Prod.mk.inj (Option.some.inj heval)
    obtain ⟨happlied, horigin⟩ := Prod.mk.inj heval
    refine ⟨reached.2, by rw [← hanswers], happlied, horigin, ?_⟩
    intro document _ hoffers
    have hworkspace := hoffers.fromWorkspace
    rw [horigin] at hworkspace
    cases hworkspace

end DeclVisibility.Session
