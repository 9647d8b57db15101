import DeclVisibility.Proofs.Fix.Frame
import DeclVisibility.Proofs.Package.Lookup
import DeclVisibility.Service.Basic

/-!
# What a service does to its documents

Each operation of a service, by what it does to the open documents: a document held under a name
replaces what was held there and no other (`Service.document?_withDocument`), packages leave the
documents alone, and applying a fix either leaves the service as it is or writes the fix into one
document, whose version counts up by one (`Service.apply_cases`).
-/

namespace DeclVisibility.Service

variable {s s' : Service} {doc : Doc}

/-! ## Holding documents -/

theorem document?_withoutDocument (s : Service) (doc other : Doc) :
    (s.withoutDocument doc).document? other = if other = doc then none else s.document? other :=
  find?_without s.documents doc other

/-- A document is held under its own name, and the other names lead where they led. -/
theorem document?_withDocument (s : Service) (doc : Doc) (document : Document) (other : Doc) :
    (s.withDocument doc document).document? other =
      if other = doc then some document else s.document? other :=
  find?_with s.documents doc other document

theorem document?_close (s : Service) (doc other : Doc) :
    (s.close doc).document? other = if other = doc then none else s.document? other :=
  document?_withoutDocument s doc other

theorem document?_congr (h : s'.documents = s.documents) (doc : Doc) :
    s'.document? doc = s.document? doc := by
  rw [document?, h, document?]

/-- All open documents have trees with a property. -/
def Every (s : Service) (P : Tree → Prop) : Prop :=
  ∀ doc document, s.document? doc = some document → P document.tree

namespace Every

variable {P : Tree → Prop}

theorem congr (h : s.Every P) (documents : s'.documents = s.documents) : s'.Every P := by
  intro other found hfound
  rw [document?_congr documents] at hfound
  exact h other found hfound

theorem withDocument {document : Document} (h : s.Every P) (hdocument : P document.tree) :
    (s.withDocument doc document).Every P := by
  intro other found hfound
  rw [document?_withDocument] at hfound
  split at hfound
  · obtain rfl := Option.some.inj hfound
    exact hdocument
  · exact h other found hfound

theorem close (h : s.Every P) : (s.close doc).Every P := by
  intro other found hfound
  rw [document?_close] at hfound
  split at hfound
  · cases hfound
  · exact h other found hfound

end Every

theorem documents_setPackage {package : Package}
    (h : (s.setPackage doc package).outcome.value = .ok s') : s'.documents = s.documents := by
  obtain ⟨⟨id, added⟩, -, h⟩ := Attempt.value_bind_eq_ok.mp h
  obtain ⟨workspace, -, h⟩ := Attempt.value_bind_eq_ok.mp h
  obtain rfl := Except.ok.inj h
  rfl

/-! ## Opening -/

/-- A text is taken in if it can be read as a document, with a tree in it that can be opened. -/
theorem openJson_eq_ok_iff {version : Version} {text : String} {opened : Service} :
    (s.openJson doc version text).outcome.value = .ok (.ok opened) ↔
    ∃ input events, Exchange.readDocument text = .ok input ∧ input.draft.events = .ok events ∧
      (s.openInput doc version events input.package?).outcome.value = .ok opened := by
  rw [openJson]
  cases hread : Exchange.readDocument text with
  | error cause => simp
  | ok input =>
    cases hevents : input.draft.events with
    | error misfit => simp [hevents]
    | ok events =>
      simp only [hevents]
      constructor
      · intro h
        obtain ⟨service, hopen, h⟩ := Attempt.value_bind_eq_ok.mp h
        obtain rfl := Except.ok.inj (Except.ok.inj h)
        exact ⟨input, events, rfl, hevents, hopen⟩
      · rintro ⟨_, _, hinput, hevents', hopen⟩
        obtain rfl := Except.ok.inj hinput
        obtain rfl := Except.ok.inj (hevents.symm.trans hevents')
        exact Attempt.value_bind_eq_ok.mpr ⟨opened, hopen, rfl⟩

/-- A text that is taken in is read as a draft, and the tree that the draft builds is held with the
version that the text came with. -/
theorem openJson_eq_ok {version : Version} {text : String} {opened : Service}
    (h : (s.openJson doc version text).outcome.value = .ok (.ok opened)) :
    ∃ input events tree, Exchange.readDocument text = .ok input ∧
      input.draft.events = .ok events ∧ Tree.ofEvents events = .ok tree ∧
      opened.documents = (s.withDocument doc ⟨version, tree⟩).documents := by
  obtain ⟨input, events, hinput, hevents, hopen⟩ := openJson_eq_ok_iff.mp h
  rw [openInput] at hopen
  obtain ⟨tree, htree, hopen⟩ := Attempt.value_bind_eq_ok.mp hopen
  refine ⟨input, events, tree, hinput, hevents, htree, ?_⟩
  cases hpackage : input.package? with
  | none =>
    rw [hpackage] at hopen
    obtain rfl := Except.ok.inj hopen
    rfl
  | some package =>
    rw [hpackage] at hopen
    exact documents_setPackage hopen

/-- A text that is taken in is that of a tree, which is held with the version that it came with. -/
theorem openJson_cases {version : Version} {text : String} {result : Except ReadError Service}
    (h : (s.openJson doc version text).outcome.value = .ok result) :
    (∃ error, result = .error error) ∨
      ∃ tree sub opened, result = .ok opened ∧ Tree.ReadsAs tree sub ∧
        opened.documents = (s.withDocument doc ⟨version, tree⟩).documents := by
  cases result with
  | error error => exact .inl ⟨error, rfl⟩
  | ok opened =>
    obtain ⟨input, events, tree, -, hevents, htree, hdocuments⟩ := openJson_eq_ok h
    obtain ⟨sub, hsub⟩ := Tree.readsAs_of_ofEvents (Draft.spelled_of_events hevents) htree
    exact .inr ⟨tree, sub, opened, rfl, hsub, hdocuments⟩

/-! ## Versions -/

/-- The next version is one more, without wrapping around. -/
theorem toInt_nextVersion {v w : Version} (h : nextVersion v = .ok w) : w.toInt = v.toInt + 1 := by
  rw [nextVersion] at h
  split at h
  · cases h
  · rename_i hne
    obtain rfl := Except.ok.inj h
    have hlt : v.toInt ≠ Int64.maxValue.toInt := fun heq => hne (Int64.toInt_inj.mp heq)
    have hmax : Int64.maxValue.toInt = 2 ^ 63 - 1 := rfl
    have hle := v.toInt_le
    have hge := v.le_toInt
    have hone : (1 : Int64).toInt = 1 := rfl
    -- the sum stays in the range of the 64 bits, so it is not reduced
    rw [Int64.toInt_add, hone]
    apply Int.bmod_eq_of_le <;> omega

/-- A version that is not the largest has a next one. -/
theorem exists_nextVersion {v : Version} (h : v.toInt < Int64.maxValue.toInt) :
    ∃ w, nextVersion v = .ok w ∧ w.toInt = v.toInt + 1 := by
  have hnext : nextVersion v = .ok (v + 1) := by
    rw [nextVersion, if_neg]
    rintro rfl
    exact Int.lt_irrefl _ h
  exact ⟨v + 1, hnext, toInt_nextVersion hnext⟩

/-! ## Fixes -/

/-- A fix that is offered is for a declaration of the document, with the scope asked for. -/
theorem makePublic_eq_some {name : String} {scope : Scope} {fix : Fix}
    (h : (s.makePublic doc name scope).value = some fix) :
    ∃ document, s.document? doc = some document ∧
      document.tree.findDecl? name = some fix.decl ∧
      document.tree.Offers fix.decl (s.workspace.originOf? doc) ∧ fix.scope = scope := by
  rw [makePublic] at h
  split at h
  · cases h
  · rename_i document hdocument
    split at h
    · cases h
    · rename_i decl hdecl
      obtain ⟨hoffers, rfl⟩ := Forest.offerFix_eq_some.mp h
      exact ⟨document, hdocument, hdecl, hoffers, rfl⟩

/-- A fix can be applied to a document that holds its declaration, reachable and private. -/
structure Applicable (document : Document) (fix : Fix) : Prop where
  held : document.tree.holds (.element fix.decl) = true
  reachable : (document.tree.offsetOf? (.element fix.decl)).isSome
  isPrivate : (document.tree.visibilityOf fix.decl).value.isPrivate = true

/-- Applying a fix leaves the service as it is, or it writes the fix into the document. -/
theorem apply_cases {fix : Fix} {result : Option (Version × Edit)}
    (h : (s.apply doc fix).outcome.value = .ok (result, s')) :
    (result = none ∧ s' = s) ∨
      ∃ document edit tree version, s.document? doc = some document ∧ Applicable document fix ∧
        (fix.invoke document.tree).outcome.value = .ok (some (edit, tree)) ∧
        nextVersion document.version = .ok version ∧
        result = some (document.version, edit) ∧ s' = s.withDocument doc ⟨version, tree⟩ := by
  rw [apply] at h
  split at h
  · obtain ⟨rfl, rfl⟩ := Prod.mk.inj (Except.ok.inj h)
    exact .inl ⟨rfl, rfl⟩
  · rename_i document hdocument
    simp only at h
    split at h
    · obtain ⟨_, -, h⟩ := Attempt.value_bind_eq_ok.mp h
      obtain ⟨rfl, rfl⟩ := Prod.mk.inj (Except.ok.inj h)
      exact .inl ⟨rfl, rfl⟩
    · rename_i hreach
      obtain ⟨visibility, hvisibility, h⟩ := Attempt.value_bind_eq_ok.mp h
      rw [Attempt.value_ofLogged] at hvisibility
      obtain rfl := Except.ok.inj hvisibility
      split at h
      · obtain ⟨_, -, h⟩ := Attempt.value_bind_eq_ok.mp h
        obtain ⟨rfl, rfl⟩ := Prod.mk.inj (Except.ok.inj h)
        exact .inl ⟨rfl, rfl⟩
      · rename_i hprivate
        obtain ⟨outcome, hinvoke, h⟩ := Attempt.value_bind_eq_ok.mp h
        split at h
        · obtain ⟨rfl, rfl⟩ := Prod.mk.inj (Except.ok.inj h)
          exact .inl ⟨rfl, rfl⟩
        · rename_i edit tree
          obtain ⟨version, hversion, h⟩ := Attempt.value_bind_eq_ok.mp h
          obtain ⟨rfl, rfl⟩ := Prod.mk.inj (Except.ok.inj h)
          simp only [Bool.or_eq_true, not_or, Bool.not_eq_true, Bool.not_eq_false',
            Option.isNone_eq_false_iff] at hreach
          have happlicable : Applicable document fix :=
            ⟨hreach.1, hreach.2, by simpa using hprivate⟩
          exact .inr ⟨document, edit, tree, version, hdocument, happlicable, hinvoke, hversion, rfl,
            rfl⟩

/-- A fix that is not applied leaves the service as it is. -/
theorem same_of_apply_none {fix : Fix} (h : (s.apply doc fix).outcome.value = .ok (none, s')) :
    s' = s := by
  rcases apply_cases h with ⟨-, hsame⟩ | ⟨_, _, _, _, -, -, -, -, hsome, -⟩
  · exact hsame
  · cases hsome

/-- A fix that was applied to a document that reads as a nested value has been written into it. -/
theorem wrote_of_apply {fix : Fix} {version : Version} {edit : Edit}
    (readsAs : ∀ document, s.document? doc = some document → ∃ sub, document.tree.ReadsAs sub)
    (h : (s.apply doc fix).outcome.value = .ok (some (version, edit), s')) :
    ∃ document tree next, s.document? doc = some document ∧ Applicable document fix ∧
      (document.tree.childElement? fix.decl .name).isSome ∧ version = document.version ∧
      nextVersion document.version = .ok next ∧ fix.Wrote document.tree tree edit ∧
      s' = s.withDocument doc ⟨next, tree⟩ := by
  rcases apply_cases h with ⟨hnone, -⟩ | ⟨document, edit', tree, next, hdocument, happlicable,
    hinvoke, hnext, hresult, rfl⟩
  · cases hnone
  · obtain ⟨rfl, rfl⟩ := Prod.mk.inj (Option.some.inj hresult)
    obtain ⟨sub, hsub⟩ := readsAs document hdocument
    rcases Fix.invoke_cases hsub happlicable.held with ⟨-, hnone⟩ | ⟨hnamed, edit', tree', hsome, hwrote⟩
    · rw [hnone] at hinvoke
      cases hinvoke
    · rw [hsome] at hinvoke
      obtain ⟨rfl, rfl⟩ := Prod.mk.inj (Option.some.inj (Except.ok.inj hinvoke))
      exact ⟨document, tree', next, hdocument, happlicable, hnamed, rfl, hnext, hwrote, rfl⟩

/-- A fix that was applied has put in what it writes. -/
theorem inserts_of_apply {fix : Fix} {version : Version} {edit : Edit} {document : Document}
    {sub : Subtree} (hopen : s.document? doc = some document)
    (readsAs : document.tree.ReadsAs sub)
    (h : (s.apply doc fix).outcome.value = .ok (some (version, edit), s')) :
    ∃ tree next w, fix.Inserts document.tree sub w tree ∧ s' = s.withDocument doc ⟨next, tree⟩ := by
  rcases apply_cases h with ⟨hnone, -⟩ | ⟨found, edit', tree, next, hfound, happlicable, hinvoke, -,
    -, rfl⟩
  · cases hnone
  · obtain rfl := Option.some.inj (hopen.symm.trans hfound)
    rcases Fix.invoke_cases readsAs happlicable.held with ⟨-, hnone⟩ | ⟨hnamed, -⟩
    · rw [hnone] at hinvoke
      cases hinvoke
    · obtain ⟨w, tree', before, after, hinserts, hinvoke', -⟩ :=
        Fix.invoke_of_named fix readsAs hnamed
      rw [hinvoke'] at hinvoke
      obtain ⟨-, rfl⟩ := Prod.mk.inj (Option.some.inj (Except.ok.inj hinvoke))
      exact ⟨tree', next, w, hinserts, rfl⟩

/-- The edit of a fix that was applied is made where the anchor of its declaration started. -/
theorem start_of_apply {fix : Fix} {version : Version} {edit : Edit} {document : Document}
    {sub : Subtree} (hopen : s.document? doc = some document) (readsAs : document.tree.ReadsAs sub)
    (h : (s.apply doc fix).outcome.value = .ok (some (version, edit), s')) :
    ∃ anchor, document.tree.anchor? fix.decl = some anchor ∧
      document.tree.offsetOf? anchor = some edit.range.start := by
  rcases apply_cases h with ⟨hnone, -⟩ | ⟨found, edit', tree, next, hfound, happlicable, hinvoke, -,
    hresult, -⟩
  · cases hnone
  · obtain rfl := Option.some.inj (hopen.symm.trans hfound)
    obtain ⟨-, rfl⟩ := Prod.mk.inj (Option.some.inj hresult)
    rcases Fix.invoke_cases readsAs happlicable.held with ⟨-, hnone⟩ | ⟨hnamed, -⟩
    · rw [hnone] at hinvoke
      cases hinvoke
    · obtain ⟨w, tree', before, after, hinserts, hinvoke', -, -, hoffset⟩ :=
        Fix.invoke_of_named fix readsAs hnamed
      rw [hinvoke'] at hinvoke
      obtain ⟨rfl, -⟩ := Prod.mk.inj (Option.some.inj (Except.ok.inj hinvoke))
      exact ⟨w.anchor, hinserts.anchor, hoffset⟩

/-- What was offered can be applied. -/
theorem applicable_of_offers {document : Document} {sub : Subtree} {fix : Fix}
    {origin? : Option Origin} (readsAs : document.tree.ReadsAs sub)
    (h : document.tree.Offers fix.decl origin?) : Applicable document fix :=
  ⟨h.held, readsAs.offsetOf?_isSome h.held, h.isPrivate⟩

/-- What comes of an applicable fix is held in place of the document, with the next version, if the
version has one. -/
theorem apply_eq_of_invoke {document : Document} {fix : Fix} {edit : Edit} {tree : Tree}
    (hopen : s.document? doc = some document) (h : Applicable document fix)
    (hinvoke : (fix.invoke document.tree).outcome.value = .ok (some (edit, tree))) :
    (s.apply doc fix).outcome.value = (nextVersion document.version).map fun next =>
      (some (document.version, edit), s.withDocument doc ⟨next, tree⟩) := by
  have hreach : ¬ (!document.tree.holds (.element fix.decl) ||
      (document.tree.offsetOf? (.element fix.decl)).isNone) = true := by
    simp [h.held, Option.isNone_eq_false_iff.mpr h.reachable]
  rw [apply, hopen]
  simp only [if_neg hreach, Attempt.value_bind_of_ok (Attempt.value_ofLogged _), h.isPrivate,
    Bool.not_true, Bool.false_eq_true, if_false, Attempt.value_bind_of_ok hinvoke]
  cases hnext : nextVersion document.version with
  | error fault => rfl
  | ok next => rfl

/-- An applicable fix for a declaration with a name is written, and applied unless the version is
the last. -/
theorem apply_eq_of_applicable {document : Document} {sub : Subtree} {fix : Fix}
    (hopen : s.document? doc = some document) (readsAs : document.tree.ReadsAs sub)
    (h : Applicable document fix) (named : (document.tree.childElement? fix.decl .name).isSome) :
    ∃ edit tree, fix.Wrote document.tree tree edit ∧ (s.apply doc fix).outcome.value =
      (nextVersion document.version).map fun next =>
        (some (document.version, edit), s.withDocument doc ⟨next, tree⟩) := by
  rcases Fix.invoke_cases readsAs h.held with ⟨hnone, -⟩ | ⟨-, edit, tree, hinvoke, hwrote⟩
  · rw [hnone] at named
    cases named
  · exact ⟨edit, tree, hwrote, apply_eq_of_invoke hopen h hinvoke⟩

/-- An applicable fix for a declaration with a name is applied, unless the version is the last. -/
theorem apply_of_applicable {document : Document} {sub : Subtree} {fix : Fix} {next : Version}
    (hopen : s.document? doc = some document) (readsAs : document.tree.ReadsAs sub)
    (h : Applicable document fix) (named : (document.tree.childElement? fix.decl .name).isSome)
    (hnext : nextVersion document.version = .ok next) :
    ∃ edit tree, (s.apply doc fix).outcome.value =
        .ok (some (document.version, edit), s.withDocument doc ⟨next, tree⟩) ∧
      fix.Wrote document.tree tree edit := by
  obtain ⟨edit, tree, hwrote, happly⟩ := apply_eq_of_applicable hopen readsAs h named
  rw [hnext] at happly
  exact ⟨edit, tree, happly, hwrote⟩

/-- What is on offer awaits a visibility. -/
theorem awaits_of_makePublic {document : Document} {name : String} {scope : Scope} {fix : Fix}
    (hopen : s.document? doc = some document)
    (h : (s.makePublic doc name scope).value = some fix) : document.tree.Awaits fix.decl := by
  obtain ⟨found, hfound, -, hoffers, -⟩ := makePublic_eq_some h
  obtain rfl := Option.some.inj (hopen.symm.trans hfound)
  exact ⟨(Forest.isPrivate_visibilityOf _ _).mp hoffers.isPrivate, hoffers.named⟩

theorem applicable_of_awaits {document : Document} {sub : Subtree} {fix : Fix}
    (readsAs : document.tree.ReadsAs sub) (h : document.tree.Awaits fix.decl) :
    Applicable document fix :=
  ⟨h.held, readsAs.offsetOf?_isSome h.held,
    (document.tree.isPrivate_visibilityOf fix.decl).mpr h.unwritten⟩

/-- A fix for a declaration that awaits a visibility puts it in. -/
theorem apply_of_awaits {document : Document} {sub : Subtree} {fix : Fix} {next : Version}
    (hopen : s.document? doc = some document) (readsAs : document.tree.ReadsAs sub)
    (h : document.tree.Awaits fix.decl) (hnext : nextVersion document.version = .ok next) :
    ∃ edit tree w, (s.apply doc fix).outcome.value =
        .ok (some (document.version, edit), s.withDocument doc ⟨next, tree⟩) ∧
      fix.Inserts document.tree sub w tree := by
  obtain ⟨w, tree, before, after, hinserts, hinvoke, -⟩ := Fix.invoke_of_named fix readsAs h.named
  have happly := apply_eq_of_invoke hopen (applicable_of_awaits readsAs h) hinvoke
  rw [hnext] at happly
  exact ⟨_, tree, w, happly, hinserts⟩

/-- A fix for a declaration that has a visibility is not applied. -/
theorem apply_of_written {document : Document} {fix : Fix} (hopen : s.document? doc = some document)
    (written : (document.tree.childElement? fix.decl .vis).isSome) :
    (s.apply doc fix).outcome.value = .ok (none, s) := by
  have hpublic : ¬ (document.tree.visibilityOf fix.decl).value.isPrivate = true := by
    rw [Forest.isPrivate_visibilityOf]
    intro hnone
    rw [hnone] at written
    cases written
  rw [apply, hopen]
  simp only
  split
  · exact Attempt.value_bind_of_ok (Attempt.value_ofLogged _)
  · simp only [Attempt.value_bind_of_ok (Attempt.value_ofLogged _), hpublic, Bool.not_false,
      if_true, Attempt.value_pure]

end DeclVisibility.Service
