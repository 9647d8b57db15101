import DeclVisibility.Proofs.Fix.Places
import DeclVisibility.Proofs.Service.Runs
import DeclVisibility.Proofs.Tree.Walk

/-!
# The JSON text of a document reads back

In every state that is reached, the JSON text of an open document can be read as a draft, and the
tree that the draft builds has the kinds, the nesting, the order and the texts of the document's own
(`Session.json_round_trip`). What could stand in the way is the depth: a text can be read only if it
is nested at most 127 levels deep. A document is read with elements nested at most 63 deep, which
just fits, and a fix puts its visibility beside a name and so makes nothing deeper
(`Fix.Inserts.nesting_le`).
-/

namespace DeclVisibility

/-! ## Fixes make nothing deeper -/

/-- Where no draft is put beside children that are all less deep, nothing becomes deeper. -/
theorem Subtree.nesting_draftWith_le {extra : NodeId → List Draft} {s : Subtree} :
    ∀ {p : Option ElementId} {n : Nat},
      (∀ q id kind children, (q, Subtree.element id kind children) ∈ s.placed p →
        ∀ c ∈ children, ∀ d ∈ extra c.id, ∃ e ∈ children, d.nesting ≤ e.draft.nesting) →
      s.draft.nesting ≤ n → (s.draftWith extra).nesting ≤ n := by
  induction s with
  | token leaf =>
    intro p n _ h
    rw [draft_token] at h
    rw [draftWith_token]
    exact h
  | element id kind children ih =>
    intro p n shallow h
    obtain ⟨m, rfl⟩ : ∃ m, n = m + 1 := by
      rw [draft_element, Draft.nesting] at h
      exact ⟨n - 1, by omega⟩
    rw [draft_element, Draft.nesting_element_le, List.forall_mem_map] at h
    rw [draftWith_element, Draft.nesting_element_le]
    intro d hd
    obtain ⟨c, hc, hd⟩ := List.mem_flatMap.mp hd
    rw [List.mem_append, List.mem_singleton] at hd
    rcases hd with hd | rfl
    · obtain ⟨e, he, hle⟩ := shallow p id kind children (self_mem_placed p _) c hc d hd
      exact Nat.le_trans hle (h e he)
    · refine ih c hc (p := some id) ?_ (h c hc)
      intro q cid ckind below hplace
      apply shallow q cid ckind below
      rw [placed_element]
      exact List.mem_cons_of_mem _ (List.mem_flatMap.mpr ⟨c, hc, hplace⟩)

theorem Scope.nesting_drafts_le {scope : Scope} : ∀ d ∈ scope.drafts, d.nesting ≤ 1 := by
  intro d hd
  rw [drafts, List.mem_cons, List.mem_singleton] at hd
  rcases hd with rfl | rfl
  · rw [Draft.nesting_element_le]
    intro token htoken
    obtain ⟨kind, -, rfl⟩ := List.mem_map.mp htoken
    rw [Draft.nesting_token]
  · rw [Draft.nesting_token]
    exact Nat.zero_le 1

/-- The visibility that a fix puts in stands beside the name of the declaration, which is an element
too. -/
theorem Fix.Inserts.nesting_le {fix : Fix} {t t' : Tree} {s : Subtree} {w : Inset}
    (h : fix.Inserts t s w t') (readsAs : t.ReadsAs s) {n : Nat} (hn : s.draft.nesting ≤ n) :
    (s.publish w).draft.nesting ≤ n := by
  have hdraft : (s.publish w).draft =
      s.draftWith fun node => (if node = w.anchor then fix.scope.drafts else []) ++ [] := by
    rw [← Subtree.draftWith_publish h.writes (h.anchor_fresh readsAs) (fun _ _ => rfl)
      (fun _ _ => rfl), Subtree.draftWith_of_nil fun _ _ => rfl]
  rw [hdraft]
  refine Subtree.nesting_draftWith_le (p := none) ?_ hn
  intro q id kind children hplace c hc d hd
  rw [List.append_nil] at hd
  split at hd
  · rename_i hanchor
    -- the anchor hangs in the declaration, so this is where the name is
    have hparent := h.parent? readsAs
    rw [← hanchor, (readsAs.carries.of_placed (Subtree.child_placed hplace hc)).parent?] at hparent
    obtain rfl := Option.some.inj hparent
    have hnamed : (t.childElement? fix.decl .name).isSome := by
      have hsome := Option.isSome_of_eq_some h.anchor
      rwa [Forest.anchor?, Option.isSome_map] at hsome
    obtain ⟨e, he, hkind⟩ :=
      (readsAs.madeOf.childElement?_isSome List.mem_cons_self hplace).mp hnamed
    refine ⟨e, he, Nat.le_trans (Scope.nesting_drafts_le d hd) ?_⟩
    cases e with
    | token leaf => cases hkind
    | element eid ekind below =>
      rw [Subtree.draft_element, Draft.nesting]
      omega
  · cases hd

/-! ## Documents along a run -/

/-- The tree reads as a value in which elements are nested at most 63 deep. -/
def Tree.Shallow (t : Tree) : Prop := ∃ sub, t.ReadsAs sub ∧ sub.draft.nesting ≤ 63

namespace Session

variable {s s' : Session} {call : Call} {answer : Answer}

/-- In all open documents, elements are nested at most 63 deep. -/
def Shallow (s : Session) : Prop :=
  ∀ doc document, s.service.document? doc = some document →
    ∃ sub, document.tree.ReadsAs sub ∧ sub.draft.nesting ≤ 63

theorem Shallow.apply {service : Service} {doc : Doc} {fix : Fix} {version : Version} {edit : Edit}
    (h : s.Shallow)
    (happly : (s.service.apply doc fix).outcome.value = .ok (some (version, edit), service)) :
    (s.withService service).Shallow := by
  cases hopen : s.service.document? doc with
  | none =>
    rw [Service.apply, hopen] at happly
    cases Except.ok.inj happly
  | some document =>
    obtain ⟨sub, hsub, hnesting⟩ := h doc document hopen
    obtain ⟨tree, next, w, hinserts, rfl⟩ := Service.inserts_of_apply hopen hsub happly
    exact Service.Every.withDocument (P := Tree.Shallow) h
      ⟨_, hinserts.readsAs, hinserts.nesting_le hsub hnesting⟩

theorem Shallow.openJson {service : Service} {doc : Doc} {version : Version} {text : String}
    (h : s.Shallow)
    (hopen : (s.service.openJson doc version text).outcome.value = .ok (.ok service)) :
    (s.withService service).Shallow := by
  obtain ⟨input, events, tree, hinput, hevents, htree, hdocuments⟩ := Service.openJson_eq_ok hopen
  obtain ⟨t, sub, ht, hsub, hdraft⟩ := Tree.exists_of_events hevents
  obtain rfl := Except.ok.inj (ht.symm.trans htree)
  have hnesting : sub.draft.nesting ≤ 63 := by
    rw [hdraft]
    exact Draft.nesting_writtenOut_le (Exchange.nesting_of_readDocument hinput)
  exact (Service.Every.withDocument (P := Tree.Shallow) h ⟨sub, hsub, hnesting⟩).congr hdocuments

/-- A request makes no open document deeper than that. -/
theorem shallow_step (h : (s.step call).outcome.value = .ok (answer, s')) (shallow : s.Shallow) :
    s'.Shallow :=
  every_step (P := Tree.Shallow) h shallow (fun _ _ _ _ _ hopen => shallow.openJson hopen)
    fun _ _ _ _ _ happly => shallow.apply happly

theorem Reached.shallow (h : s.Reached) : s.Shallow := by
  obtain ⟨steps, hrun⟩ := h
  exact hrun.preserves Shallow (fun step hmem _ => shallow_step (hrun.answered hmem))
    fun _ _ h => nomatch h

/-! ## The round trip -/

/-- The JSON text of an open document is read as a draft without a fault, and the draft is loaded as
a tree with the same nesting of the same kinds, in the same order and with the same texts. So the
tree has the same text and the same shown form. -/
theorem json_round_trip (hs : s.Reached) {doc : Doc} {document : Document}
    (hopen : s.service.document? doc = some document) :
    ∃ json draft events tree original copy,
      s.service.json? doc = some json ∧ Exchange.readDraft json = .ok draft ∧
      draft.events = .ok events ∧ Tree.ofEvents events = .ok tree ∧
      document.tree.whole? = some original ∧ tree.whole? = some copy ∧
      copy.draft = original.draft ∧ tree.text = document.tree.text ∧
      copy.line = original.line ∧ copy.block = original.block := by
  obtain ⟨original, horiginal, hnesting⟩ := hs.shallow doc document hopen
  obtain ⟨events, hevents⟩ := horiginal.exists_events
  obtain ⟨tree, copy, htree, hcopy, hdraft⟩ := Tree.exists_of_events hevents
  have hsame : copy.draft = original.draft := hdraft.trans original.writtenOut_draft
  refine ⟨_, original.draft, events, tree, original, copy, ?_, Exchange.readDraft_pretty hnesting,
    hevents, htree, horiginal.whole?, hcopy.whole?, hsame, ?_, Subtree.line_eq_of_draft hsame,
    Subtree.block_eq_of_draft hsame⟩
  · rw [Service.json?, hopen, Option.map_some, horiginal.json]
  · rw [hcopy.text, horiginal.text, Subtree.text_eq_of_draft hsame]

theorem json_round_trip_sample : ∃ (s : Session) (document : Document) (json : String)
    (draft : Draft), s.Reached ∧ s.service.document? ⟨1⟩ = some document ∧
    document.version = 8 ∧ s.service.json? ⟨1⟩ = some json ∧
    Exchange.readDraft json = .ok draft := by
  obtain ⟨s, document, hrun, hopen, hversion⟩ := sample_run
  obtain ⟨steps, hsteps, -⟩ := run_eq_ok.mp hrun
  have hs : s.Reached := ⟨steps, hsteps⟩
  obtain ⟨json, draft, -, -, -, -, hjson, hdraft, -⟩ := json_round_trip hs hopen
  exact ⟨s, document, json, draft, hs, hopen, hversion, hjson, hdraft⟩

end Session

end DeclVisibility
