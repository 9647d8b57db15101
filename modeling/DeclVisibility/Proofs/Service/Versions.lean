import DeclVisibility.Proofs.Service.EditLog
import DeclVisibility.Proofs.Service.Offers

/-!
# How far versions count

A fix that is applied makes the version of its document larger (`Service.Advances`), and the version
tells how many fixes were applied since the document was opened (`Session.version_after_fix`). The
count ends at the largest number of 64 bits, with which a document can be opened like with any
other: what is on offer there meets a fault when it is applied (`Session.last_version_overflows`).
-/

namespace DeclVisibility

namespace Service

variable {s : Service} {doc : Doc} {fix : Fix} {document : Document}

theorem lt_nextVersion {v w : Version} (h : nextVersion v = .ok w) : v < w := by
  rw [Int64.lt_iff_toInt_lt, toInt_nextVersion h]
  exact Int.lt_succ _

/-- Applying the fix to the document, which has the version `present`, makes the version larger, and
the edit is told with the version that the document had; where there is no larger version, it meets
a fault. -/
structure Advances (s : Service) (doc : Doc) (fix : Fix) (present : Version) : Prop where
  version : s.version? doc = some present
  applied : present ≠ Int64.maxValue → ∃ edit after later,
    (s.apply doc fix).outcome.value = .ok (some (present, edit), after) ∧
      after.version? doc = some later ∧ present < later
  overflow : present = Int64.maxValue →
    (s.apply doc fix).outcome.value = .error .versionOverflow

theorem advances_of_applicable {sub : Subtree} (hopen : s.document? doc = some document)
    (readsAs : document.tree.ReadsAs sub) (h : Applicable document fix)
    (named : (document.tree.childElement? fix.decl .name).isSome) :
    s.Advances doc fix document.version := by
  obtain ⟨edit, tree, -, happly⟩ := apply_eq_of_applicable hopen readsAs h named
  refine ⟨by rw [version?, hopen, Option.map_some], fun hne => ?_, fun hmax => ?_⟩
  · have hnext : nextVersion document.version = .ok (document.version + 1) := if_neg hne
    rw [hnext] at happly
    refine ⟨edit, _, document.version + 1, happly, ?_, lt_nextVersion hnext⟩
    rw [version?, document?_withDocument, if_pos rfl, Option.map_some]
  · have hnone : nextVersion document.version = .error .versionOverflow := if_pos hmax
    rw [happly, hnone]
    rfl

/-- What comes of a fix for a declaration that suits is settled by the visibility that is written
there. -/
theorem advances_or_same {sub : Subtree} (hopen : s.document? doc = some document)
    (readsAs : document.tree.ReadsAs sub) (suits : document.tree.Suits fix.decl) :
    ((document.tree.visibilityOf fix.decl).value = .priv → s.Advances doc fix document.version) ∧
      ((document.tree.visibilityOf fix.decl).value ≠ .priv →
        (s.apply doc fix).outcome.value = .ok (none, s)) := by
  have hpriv := document.tree.isPrivate_visibilityOf fix.decl
  constructor
  · intro hprivate
    have happlicable : Applicable document fix :=
      ⟨suits.held, readsAs.offsetOf?_isSome suits.held, by rw [hprivate]; rfl⟩
    exact advances_of_applicable hopen readsAs happlicable suits.named
  · intro hwritten
    apply apply_of_written hopen
    rw [Option.isSome_iff_ne_none]
    intro hnone
    rw [← hpriv, Visibility.isPrivate, beq_iff_eq] at hnone
    exact hwritten hnone

end Service

namespace Session

variable {s asked last : Session} {doc : Doc} {opening : Step} {steps : List Step}
  {version : Version} {text : String}

/-- From the opening of a document on, and until it is opened anew or closed, its version is the one
that it was opened with and as much more as edits were told. -/
theorem Run.counted (hrun : Run s (opening :: steps) last)
    (hcall : opening.call = .openJson doc version text) (hdone : opening.answer = .done)
    (kept : ∀ step ∈ steps, step.resets doc = false) :
    ∃ document, last.service.document? doc = some document ∧
      document.version.toInt = version.toInt + ((log doc steps).length : Int) := by
  cases hrun with
  | @cons _ next _ call answer _ hstep hrest =>
    obtain rfl : call = _ := hcall
    obtain rfl : answer = _ := hdone
    obtain ⟨tree, sub, hopened, hsub⟩ := (step_effect hstep).opened_document
    obtain ⟨present, hpresent, hedited⟩ := hrest.edited kept hopened ⟨sub, hsub⟩
    exact ⟨present, hpresent, hedited.version⟩

/-- A fix that is offered for a document can be applied at once, and later, until the document is
opened anew or closed, as long as no visibility is written in its declaration. The version of the
document is the one that it was opened with and as much more as edits were told; afterwards it is
larger than the one that comes with the edit, except that after the largest version there is only a
fault. -/
theorem version_after_fix (hs : s.Reached) {earlier : List Step}
    (hrun : Run s (opening :: earlier) asked) (hcall : opening.call = .openJson doc version text)
    (hdone : opening.answer = .done) (hearlier : ∀ step ∈ earlier, step.resets doc = false)
    {name : String} {oneCrate : Bool} {fix : Fix}
    (hoffer : (asked.service.makePublic doc name (.within oneCrate)).value = some fix) :
    (∃ present : Version, present.toInt = version.toInt + ((log doc earlier).length : Int) ∧
      asked.service.Advances doc fix present) ∧
    ∀ between last, Run asked between last → (∀ step ∈ between, step.resets doc = false) →
      ∃ document, last.service.document? doc = some document ∧
        document.version.toInt =
          version.toInt + ((log doc (earlier ++ between)).length : Int) ∧
        ((document.tree.visibilityOf fix.decl).value = .priv →
          last.service.Advances doc fix document.version) ∧
        ((document.tree.visibilityOf fix.decl).value ≠ .priv →
          (last.service.apply doc fix).outcome.value = .ok (none, last.service)) := by
  have hmade := hrun.wellMade hs.wellMade
  obtain ⟨document, hopen, -, hoffers, -⟩ := Service.makePublic_eq_some hoffer
  constructor
  · obtain ⟨found, hfound, hcount⟩ := hrun.counted hcall hdone hearlier
    obtain rfl := Option.some.inj (hopen.symm.trans hfound)
    obtain ⟨sub, hsub⟩ := hmade doc document hopen
    exact ⟨document.version, hcount, Service.advances_of_applicable hopen hsub
      (Service.applicable_of_offers hsub hoffers) hoffers.named⟩
  · intro between last hbetween kept
    have hwhole : Run s (opening :: (earlier ++ between)) last :=
      Run.append_iff.mpr ⟨asked, hrun, hbetween⟩
    obtain ⟨later, hlater, hcount⟩ :=
      hwhole.counted hcall hdone (List.forall_mem_append.mpr ⟨hearlier, kept⟩)
    obtain ⟨found, hfound, hsuits⟩ :=
      hbetween.suits kept hopen (hmade doc document hopen) hoffers.toSuits
    obtain rfl := Option.some.inj (hlater.symm.trans hfound)
    obtain ⟨sub, hsub⟩ := hbetween.wellMade hmade doc later hlater
    exact ⟨later, hlater, hcount, Service.advances_or_same hlater hsub hsuits⟩

theorem version_after_fix_sample : ∃ (s : Session) (fix : Fix) (edit : Edit) (after : Service)
    (later : Version), s.Reached ∧ (s.service.makePublic ⟨1⟩ "f" .pub).value = some fix ∧
    (s.service.apply ⟨1⟩ fix).outcome.value = .ok (some (7, edit), after) ∧
    after.version? ⟨1⟩ = some later ∧ 7 < later := by
  obtain ⟨opening, offer, application, last, _, hrun, hopening, hoffer, -⟩ := sample_steps
  have hsplit : Run .new ([opening] ++ [offer, application]) last := hrun
  obtain ⟨s, hfirst, hrest⟩ := Run.append_iff.mp hsplit
  have hreached : s.Reached := ⟨[opening], hfirst⟩
  have hnew : Reached .new := ⟨[], .nil _⟩
  cases hrest with
  | @cons _ _ _ call answer _ hstep _ =>
    obtain rfl : call = _ := hoffer.1
    obtain rfl : answer = _ := hoffer.2
    obtain ⟨hmake, -⟩ := (step_effect hstep).makePublic_of_offered
    have hoffer : (s.service.makePublic ⟨1⟩ "f" (.within false)).value = some _ := hmake
    obtain ⟨⟨present, hpresent, hadvances⟩, -⟩ := version_after_fix hnew hfirst hopening.1
      hopening.2 (fun _ hmem => absurd hmem List.not_mem_nil) hoffer
    obtain rfl : present = 7 := Int64.toInt_inj.mp hpresent
    obtain ⟨edit, after, later, happly, hafter, hlt⟩ := hadvances.applied (by decide)
    exact ⟨s, _, edit, after, later, hreached, hmake, happly, hafter, hlt⟩

/-- A document with nothing but a function in it. -/
def loneText : String := "\x7b\"tree\":" ++ declText .fnItem "f" "" ++ "\x7d"

/-- A document can be opened with the largest version. What is on offer for it meets a fault. -/
theorem last_version_overflows : ∃ s : Session,
    (run [.openJson ⟨1⟩ Int64.maxValue loneText, .setPackage ⟨1⟩ ⟨"app", .workspace⟩,
        .makePublic ⟨1⟩ "f" .pub] .new).outcome.value =
      .ok ([.done, .done, .offered 0 ⟨⟨1⟩, "Make `f` public", .pub⟩], s) ∧
    (s.service.apply ⟨1⟩ ⟨⟨1⟩, "Make `f` public", .pub⟩).outcome.value =
      .error .versionOverflow := by
  have heval : ((run [.openJson ⟨1⟩ Int64.maxValue loneText, .setPackage ⟨1⟩ ⟨"app", .workspace⟩,
      .makePublic ⟨1⟩ "f" .pub] .new).outcome.value.toOption.map fun reached => (reached.1,
        match (reached.2.service.apply ⟨1⟩ ⟨⟨1⟩, "Make `f` public", .pub⟩).outcome.value with
        | .error fault => some fault
        | .ok _ => none)) =
      some ([.done, .done, .offered 0 ⟨⟨1⟩, "Make `f` public", .pub⟩], some .versionOverflow) := by
    decide +kernel
  obtain ⟨answers, s, hrun, -, hseen⟩ := exists_of_seen heval
  obtain ⟨rfl, hfault⟩ := Prod.mk.inj hseen
  refine ⟨s, hrun, ?_⟩
  split at hfault
  · rename_i fault happly
    obtain rfl := Option.some.inj hfault
    exact happly
  · cases hfault

end Session

end DeclVisibility
