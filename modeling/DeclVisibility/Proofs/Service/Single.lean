import DeclVisibility.Proofs.Exchange.Loading
import DeclVisibility.Proofs.Service.Safety
import DeclVisibility.Service.Single

/-!
# One document at a time

What comes of a text that is opened in a service of its own. A declaration that was made public has
its visibility put in at one place of the text, and that is the place that the edit names
(`Single.makePublic_eq_ok`). None of the questions about a text of fewer bytes than the limit meets
a fault (`Single.succeeds_makePublic`, `Single.succeeds_outline`, `Single.succeeds_dump`); about a
longer one, the only fault is a position in the outline that cannot be written.
-/

namespace DeclVisibility.Single

variable {text name : String} {scope : Scope} {doc : Doc} {service : Service}

/-- A text that was opened holds a draft, and the tree that this is loaded as is the document. -/
theorem openText_eq_ok (h : (openText text doc).outcome.value = .ok (.ok service)) :
    ∃ input tree sub, Exchange.readDocument text = .ok input ∧ input.draft.load = .ok (.ok tree) ∧
      tree.ReadsAs sub ∧ service.document? doc = some ⟨1, tree⟩ := by
  obtain ⟨input, events, tree, hread, hevents, htree, hdocuments⟩ := Service.openJson_eq_ok h
  obtain ⟨sub, hsub⟩ := Tree.readsAs_of_ofEvents (Draft.spelled_of_events hevents) htree
  refine ⟨input, tree, sub, hread, ?_, hsub, ?_⟩
  · rw [Draft.load, hevents]
    simp only [htree]
  · rw [Service.document?_congr hdocuments, Service.document?_withDocument, if_pos rfl]

/-- What was made public: the text of the tree with the visibility put in at the place that the edit
names. -/
theorem makePublic_eq_ok {made : MadePublic}
    (h : (makePublic text name scope doc).outcome.value = .ok (.ok (some made))) :
    ∃ input tree before after, Exchange.readDocument text = .ok input ∧
      input.draft.load = .ok (.ok tree) ∧ tree.text = before ++ after ∧
      made.text = before ++ scope.written ++ after ∧
      made.edit = ⟨.emptyAt (.ofString before), scope.written⟩ := by
  rw [makePublic] at h
  obtain ⟨opened, hopen, h⟩ := Attempt.value_bind_eq_ok.mp h
  split at h
  · cases Except.ok.inj h
  · rename_i service
    obtain ⟨input, tree, sub, hread, hload, hsub, hdocument⟩ := openText_eq_ok hopen
    obtain ⟨fix?, hfix, h⟩ := Attempt.value_bind_eq_ok.mp h
    rw [Attempt.value_ofLogged] at hfix
    have hoffer := Except.ok.inj hfix
    split at h
    · cases Except.ok.inj h
    · rename_i fix
      obtain ⟨_, -, -, -, hscope⟩ := Service.makePublic_eq_some hoffer
      obtain ⟨⟨result?, after⟩, happly, h⟩ := Attempt.value_bind_eq_ok.mp h
      simp only at h
      split at h
      · rename_i version edit newText htext
        obtain rfl := Option.some.inj (Except.ok.inj (Except.ok.inj h))
        have readsAs : ∀ document, service.document? doc = some document →
            ∃ sub, document.tree.ReadsAs sub := by
          intro document hfound
          obtain rfl := Option.some.inj (hdocument.symm.trans hfound)
          exact ⟨sub, hsub⟩
        obtain ⟨document, tree', next, hfound, -, -, -, -, hwrote, rfl⟩ :=
          Service.wrote_of_apply readsAs happly
        obtain rfl := Option.some.inj (hdocument.symm.trans hfound)
        obtain ⟨before, behind, hbefore, hedit, hafter⟩ := hwrote.edit
        -- the text that is given is that of the tree with the fix in it
        rw [Service.text?, Service.document?_withDocument, if_pos rfl, Option.map_some] at htext
        obtain rfl := Option.some.inj htext
        subst hscope
        exact ⟨input, tree, before, behind, hread, hload, hbefore, hafter, hedit⟩
      · cases Except.ok.inj h

/-! ## No question meets a fault -/

/-- A text that was opened is one document, nested no deeper than a text can be read. -/
theorem shallow_of_openText (h : (openText text doc).outcome.value = .ok (.ok service)) :
    (Session.new.withService service).Shallow := by
  have hnew : Session.new.Shallow := by
    intro other document hnone
    cases hnone
  exact hnew.openJson h

theorem succeeds_makePublic (text name : String) (scope : Scope) (doc : Doc) :
    (makePublic text name scope doc).Succeeds := by
  refine .bind (Service.succeeds_openJson _ _ _ _) fun opened hopen => ?_
  cases opened with
  | error error => exact .pure _
  | ok service =>
    obtain ⟨input, tree, sub, -, -, hsub, hdocument⟩ := openText_eq_ok hopen
    refine .bind (.ofLogged (Service.clean_makePublic _ _ _ _)) fun fix? _ => ?_
    cases fix? with
    | none => exact .pure _
    | some fix =>
      have hversion : (1 : Version).toInt < Int64.maxValue.toInt := by decide
      refine .bind (Service.succeeds_apply fix ?_) fun result _ => ?_
      · intro document hfound
        obtain rfl := Option.some.inj (hdocument.symm.trans hfound)
        exact ⟨⟨sub, hsub⟩, hversion⟩
      · obtain ⟨result?, after⟩ := result
        simp only
        split <;> exact .pure _

/-- A text of fewer bytes than the limit is a document with room in it. -/
theorem roomy_of_openText (short : text.utf8ByteSize < Position.limit)
    (h : (openText text doc).outcome.value = .ok (.ok service)) :
    (Session.new.withService service).Roomy :=
  Session.roomy_new.openJson short h

/-- The place of an edit can be written. -/
theorem displayable_of_makePublic (short : text.utf8ByteSize < Position.limit) {made : MadePublic}
    (h : (makePublic text name scope doc).outcome.value = .ok (.ok (some made))) :
    made.edit.range.start.Displayable := by
  obtain ⟨input, tree, before, after, hread, hload, hbefore, -, hedit⟩ := makePublic_eq_ok h
  obtain ⟨events, hevents, htree⟩ := Draft.exists_events_of_load hload
  have hsize := Draft.fullSize_of_events hevents htree
  have hbulk := Exchange.bulk_of_readDocument hread
  rw [Tree.fullSize, hbefore, String.utf8ByteSize_append] at hsize
  rw [hedit]
  exact Position.displayable_ofString (by omega)

section Outline
variable (hopen : (openText text doc).outcome.value = .ok (.ok service))
include hopen

theorem margin_le_of_openText :
    ∀ item ∈ (service.outline doc).value, 2 * item.depth ≤ OutlineItem.marginLimit :=
  fun _ hitem => Service.margin_le_of_mem_outline (shallow_of_openText hopen doc) hitem

theorem exists_rows_of_openText (short : text.utf8ByteSize < Position.limit) :
    ∃ lines, renderOutline (service.outline doc).value = .ok lines := by
  obtain ⟨rows, hrows, -⟩ := exists_rows (margin_le_of_openText hopen) fun item hitem =>
    Service.displayable_of_mem_outline (fun document hfound => by
      obtain ⟨sub, hsub⟩ := (shallow_of_openText hopen).wellMade doc document hfound
      exact ⟨sub, hsub, (roomy_of_openText short hopen).short hfound⟩) hitem
  exact ⟨_, hrows⟩

end Outline

theorem succeeds_outline (doc : Doc) (short : text.utf8ByteSize < Position.limit) :
    (outline text doc).Succeeds := by
  refine .bind (Service.succeeds_openJson _ _ _ _) fun opened hopen => ?_
  cases opened with
  | error error => exact .pure _
  | ok service =>
    have hclean : (service.outline doc).Clean :=
      Service.clean_outline ((shallow_of_openText hopen).wellMade doc)
    refine .bind (.ofLogged hclean) fun items hitems => ?_
    obtain rfl := Except.ok.inj ((Attempt.value_ofLogged _).symm.trans hitems)
    exact .bind (.ofExcept (exists_rows_of_openText hopen short)) fun _ _ => .pure _

/-- The outline of a text of any length meets no fault but a position that cannot be written. -/
theorem fault_of_outline {fault : Fault} (h : (outline text doc).outcome.value = .error fault) :
    fault = .positionOverflow := by
  obtain ⟨opened, hopen⟩ : ∃ opened, (openText text doc).outcome.value = .ok opened :=
    (Service.succeeds_openJson _ _ _ _).value
  rw [outline, Attempt.value_bind_of_ok hopen] at h
  cases opened with
  | error error => cases h
  | ok service =>
    simp only [Attempt.value_bind_of_ok (Attempt.value_ofLogged _)] at h
    cases hrows : renderOutline (service.outline doc).value with
    | ok lines =>
      rw [hrows] at h
      cases h
    | error met =>
      rw [hrows] at h
      obtain rfl := Except.error.inj h
      exact fault_of_renderOutline (margin_le_of_openText hopen) hrows

theorem succeeds_dump (text : String) (doc : Doc) : (dump text doc).Succeeds := by
  refine .bind (Service.succeeds_openJson _ _ _ _) fun opened _ => ?_
  cases opened with
  | error error => exact .pure _
  | ok service => exact .pure _

end DeclVisibility.Single
