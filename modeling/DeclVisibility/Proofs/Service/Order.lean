import DeclVisibility.Proofs.Fix.Places
import DeclVisibility.Proofs.Service.Runs

/-!
# The order of fixes does not matter

Fixes that are on offer in one state, for declarations that differ, can all be applied in any order,
and every order ends with the same text, the same JSON text and the same version
(`Session.order_of_fixes`). The trees themselves differ, since each fix makes nodes of its own. But
a fix leaves the others applicable and their places as they were, so the draft that the tree comes
to is the first one with something put in at every place (`Service.applyAll_of_awaits`), and that
is the same in every order.
-/

namespace DeclVisibility

namespace Service

/-- Applies fixes to a document, one after the other. -/
def applyAll (doc : Doc) : List Fix → Service → Attempt (List (Option (Version × Edit)) × Service)
  | [], s => pure ([], s)
  | fix :: rest, s => do
    let (told?, next) ← s.apply doc fix
    let (others, last) ← applyAll doc rest next
    pure (told? :: others, last)

variable {s : Service} {doc : Doc} {document : Document} {sub : Subtree}

/-- Fixes for different declarations that await a visibility are all applied. What the document
comes to has the draft that it had, with what the fixes write put in at their places. -/
theorem applyAll_of_awaits {fixes : List Fix} (hopen : s.document? doc = some document)
    (readsAs : document.tree.ReadsAs sub)
    (awaits : ∀ fix ∈ fixes, document.tree.Awaits fix.decl)
    (different : (fixes.map Fix.decl).Nodup)
    (room : document.version.toInt + fixes.length ≤ Int64.maxValue.toInt) :
    ∃ told last document' sub', (applyAll doc fixes s).outcome.value = .ok (told, last) ∧
      told.length = fixes.length ∧ (∀ entry ∈ told, entry.isSome) ∧
      last.document? doc = some document' ∧
      document'.version.toInt = document.version.toInt + fixes.length ∧
      document'.tree.ReadsAs sub' ∧
      sub'.draft = sub.draftWith (insetsAt (document.tree.placesOf fixes)) := by
  induction fixes generalizing s document sub with
  | nil =>
    refine ⟨[], s, document, sub, rfl, rfl, fun _ h => (nomatch h), hopen, ?_, readsAs, ?_⟩
    · simp
    · exact (Subtree.draftWith_of_nil fun _ _ => rfl).symm
  | cons fix rest ih =>
    rw [List.map_cons, List.nodup_cons] at different
    rw [List.length_cons, Int.natCast_succ] at room
    have hfix := awaits fix List.mem_cons_self
    obtain ⟨next, hnext, hversion⟩ := exists_nextVersion (v := document.version) (by omega)
    obtain ⟨edit, tree, w, happly, hinserts⟩ := apply_of_awaits hopen readsAs hfix hnext
    have hothers : ∀ other ∈ rest, document.tree.holds (.element other.decl) = true ∧
        other.decl ≠ fix.decl := by
      intro other hother
      refine ⟨(awaits other (List.mem_cons_of_mem _ hother)).held, fun heq => different.1 ?_⟩
      exact heq ▸ List.mem_map_of_mem hother
    -- the others await their visibilities still
    have hawaits : ∀ other ∈ rest, tree.Awaits other.decl := by
      intro other hother
      obtain ⟨held, hne⟩ := hothers other hother
      exact (hinserts.agreeAt readsAs held hne).awaits
        (awaits other (List.mem_cons_of_mem _ hother))
    have hheld : (s.withDocument doc ⟨next, tree⟩).document? doc = some ⟨next, tree⟩ := by
      rw [document?_withDocument, if_pos rfl]
    have hroom : next.toInt + rest.length ≤ Int64.maxValue.toInt := by omega
    obtain ⟨told, last, document', sub', hrest, hlength, hall, hlast, hversion', hsub', hdraft⟩ :=
      ih hheld hinserts.readsAs hawaits different.2 hroom
    refine ⟨some (document.version, edit) :: told, last, document', sub', ?_, ?_, ?_, hlast, ?_,
      hsub', ?_⟩
    · rw [applyAll, Attempt.value_bind_of_ok happly]
      simp only [Attempt.value_bind_of_ok hrest, Attempt.value_pure]
    · rw [List.length_cons, List.length_cons, hlength]
    · intro entry hentry
      rcases List.mem_cons.mp hentry with rfl | hentry
      · rfl
      · exact hall entry hentry
    · rw [hversion', List.length_cons, Int.natCast_succ]
      simp only
      omega
    · rw [hdraft, hinserts.draftWith_publish readsAs hothers]

end Service

namespace Session

/-- Fixes that are on offer in one state for different declarations of a document are all applied,
in whatever order, as long as there are versions left. Every order ends with the same text, the same
JSON text and the same version, which counted up once for each fix. -/
theorem order_of_fixes {s : Session} (hs : s.Reached) {doc : Doc} {document : Document}
    (hopen : s.service.document? doc = some document) {fixes : List Fix}
    (offered : ∀ fix ∈ fixes, ∃ name oneCrate,
      (s.service.makePublic doc name (.within oneCrate)).value = some fix)
    (different : (fixes.map Fix.decl).Nodup)
    (room : document.version.toInt + fixes.length ≤ Int64.maxValue.toInt) :
    ∃ (text json : String) (version : Version),
      version.toInt = document.version.toInt + fixes.length ∧
      ∀ order : List Fix, order.Perm fixes → ∃ told last,
        (Service.applyAll doc order s.service).outcome.value = .ok (told, last) ∧
        told.length = order.length ∧ (∀ entry ∈ told, entry.isSome) ∧
        last.text? doc = some text ∧ last.json? doc = some json ∧
        last.version? doc = some version := by
  obtain ⟨sub, hsub⟩ := hs.wellMade doc document hopen
  have hawaits : ∀ fix ∈ fixes, document.tree.Awaits fix.decl := by
    intro fix hfix
    obtain ⟨name, oneCrate, hoffer⟩ := offered fix hfix
    exact Service.awaits_of_makePublic hopen hoffer
  obtain ⟨-, -, model, whole, -, -, -, -, hversion, hwhole, hdraft⟩ :=
    Service.applyAll_of_awaits hopen hsub hawaits different room
  refine ⟨model.tree.text, model.tree.json, model.version, hversion, ?_⟩
  intro order horder
  obtain ⟨told, last, found, sub', hall, hlength, hsome, hlast, hversion', hsub', hdraft'⟩ :=
    Service.applyAll_of_awaits hopen hsub (fun fix hfix => hawaits fix (horder.mem_iff.mp hfix))
      ((horder.map Fix.decl).nodup_iff.mpr different) (horder.length_eq ▸ room)
  have hplaces : (document.tree.placesOf fixes).Perm (document.tree.placesOf order) :=
    horder.symm.filterMap _
  have hsame : sub'.draft = whole.draft := by
    rw [hdraft', hdraft, insetsAt_perm hplaces (hsub.madeOf.nodup_placesOf different)]
  refine ⟨told, last, hall, hlength, hsome, ?_, ?_, ?_⟩
  · rw [Service.text?, hlast, Option.map_some, hsub'.text, hwhole.text,
      Subtree.text_eq_of_draft hsame]
  · rw [Service.json?, hlast, Option.map_some, hsub'.json, hwhole.json, hsame]
  · have hequal : found.version = model.version := by
      rw [← Int64.toInt_inj, hversion', hversion, horder.length_eq]
    rw [Service.version?, hlast, Option.map_some, hequal]

theorem order_of_fixes_sample : ∃ (s : Session) (document : Document) (outer inner : Fix),
    s.Reached ∧ s.service.document? ⟨1⟩ = some document ∧
    (∀ fix ∈ [outer, inner], ∃ name oneCrate,
      (s.service.makePublic ⟨1⟩ name (.within oneCrate)).value = some fix) ∧
    ([outer, inner].map Fix.decl).Nodup ∧
    document.version.toInt + [outer, inner].length ≤ Int64.maxValue.toInt ∧
    ∃ text, ∀ order : List Fix, order.Perm [outer, inner] → ∃ told last,
      (Service.applyAll ⟨1⟩ order s.service).outcome.value = .ok (told, last) ∧
      last.text? ⟨1⟩ = some text := by
  obtain ⟨s, document, hs, hopen, hversion, -, houter, hinner⟩ := nested_reached
  have hoffered : ∀ fix ∈ [(⟨⟨3⟩, "Make `m` public", .pub⟩ : Fix),
      ⟨⟨2⟩, "Make `f` public", .crateOnly⟩], ∃ name oneCrate,
      (s.service.makePublic ⟨1⟩ name (.within oneCrate)).value = some fix := by
    intro fix hfix
    rw [List.mem_cons, List.mem_singleton] at hfix
    rcases hfix with rfl | rfl
    · exact ⟨"m", false, houter⟩
    · exact ⟨"m::f", true, hinner⟩
  have hroom : document.version.toInt + [(⟨⟨3⟩, "Make `m` public", .pub⟩ : Fix),
      ⟨⟨2⟩, "Make `f` public", .crateOnly⟩].length ≤ Int64.maxValue.toInt := by
    rw [hversion]
    decide
  obtain ⟨text, json, version, -, hall⟩ := order_of_fixes hs hopen hoffered (by decide) hroom
  refine ⟨s, document, _, _, hs, hopen, hoffered, by decide, hroom, text, ?_⟩
  intro order horder
  obtain ⟨told, last, happly, -, -, htext, -⟩ := hall order horder
  exact ⟨told, last, happly, htext⟩

end Session

end DeclVisibility
