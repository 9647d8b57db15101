import DeclVisibility.Proofs.Service.Runs

/-!
# The edits are the text

A host applies the edits that it is told to a text of its own. From the opening of a document on,
replaying them in order gives the text that the document has now (`Session.Run.edited`), each edit
is an insertion at a place of the text as it is just before (`Fix.Wrote.inserts`), and the versions
that come with the edits count up from the one that the document was opened with.
-/

namespace DeclVisibility

/-! ## Edits of a text -/

/-- The text with the edit made, if the range of the edit falls between characters. -/
def Edit.applyTo? (edit : Edit) (text : String) : Option String :=
  (Text.cutAt? edit.range.start.index text.toList).bind fun (before, rest) =>
    (Text.cutAt? (edit.range.stop.index - edit.range.start.index) rest).map fun (_, after) =>
      String.ofList before ++ edit.newText ++ String.ofList after

/-- The text with edits made one after the other. -/
def replay : List Edit → String → Option String
  | [], text => some text
  | edit :: rest, text => (edit.applyTo? text).bind (replay rest)

/-- The edit inserts what a scope is written as, between two characters of a text, and its position
is that of the text before. -/
structure Edit.Inserts (edit : Edit) (scope : Scope) (text : String) : Prop where
  empty : edit.range.stop = edit.range.start
  newText : edit.newText = scope.written
  boundary : (⟨edit.range.start.index⟩ : String.Pos.Raw).IsValid text
  position : ∃ before after, text = before ++ after ∧
    before.utf8ByteSize = edit.range.start.index ∧ edit.range.start = .ofString before

variable {t t' : Tree} {fix : Fix} {edit : Edit}

theorem Edit.applyTo?_insertion (before after newText : String) :
    (⟨.emptyAt (.ofString before), newText⟩ : Edit).applyTo? (before ++ after) =
      some (before ++ newText ++ after) := by
  have hcut := Text.cutAt?_append before.toList after.toList
  rw [String.ofList_toList] at hcut
  rw [applyTo?, Range.emptyAt]
  simp only [Position.index_ofString, String.toList_append, hcut, Option.bind_some, Nat.sub_self,
    Text.cutAt?, Option.map_some, String.ofList_toList]

example : (⟨.emptyAt ⟨6, 0, 6, 5⟩, "pub "⟩ : Edit).applyTo? "/*é*/fn f" = some "/*é*/pub fn f" := by
  decide +kernel

-- an index in the middle of a character of two bytes is refused
example : (⟨.emptyAt ⟨3, 0, 3, 3⟩, "pub "⟩ : Edit).applyTo? "/*é*/fn f" = none := by
  decide +kernel

theorem Fix.Wrote.applyTo? (h : fix.Wrote t t' edit) : edit.applyTo? t.text = some t'.text := by
  obtain ⟨before, after, htext, rfl, htext'⟩ := h.edit
  rw [htext, htext', Edit.applyTo?_insertion]

theorem Fix.Wrote.inserts (h : fix.Wrote t t' edit) : edit.Inserts fix.scope t.text := by
  obtain ⟨before, after, htext, rfl, -⟩ := h.edit
  have hindex : before.utf8ByteSize = (Position.ofString before).index :=
    (Position.index_ofString before).symm
  refine ⟨rfl, rfl, ?_, before, after, htext, hindex, rfl⟩
  rw [String.Pos.Raw.isValid_iff_exists_append]
  exact ⟨before, after, htext, String.Pos.Raw.ext hindex.symm⟩

/-! ## Edits along a run -/

namespace Session

/-- What the host is told about a document, in order. -/
def log (doc : Doc) (steps : List Step) : List (Version × Edit) :=
  steps.filterMap (Step.told? doc)

/-- What the entries of a log make of a document. -/
structure Edited (document : Document) (entries : List (Version × Edit)) (document' : Document) :
    Prop where
  versions : entries.map (fun entry => entry.1.toInt) =
    (List.range entries.length).map fun i : Nat => document.version.toInt + i
  version : document'.version.toInt = document.version.toInt + (entries.length : Int)
  text : replay (entries.map (·.2)) document.tree.text = some document'.tree.text

theorem edited_nil (document : Document) : Edited document [] document where
  versions := rfl
  version := by simp
  text := rfl

theorem Edited.cons {step : Step} {doc : Doc} {document document' : Document} {edit : Edit}
    {next : Version} {tree : Tree} {entries : List (Version × Edit)}
    (hwrites : step.Writes doc document fix edit next tree)
    (h : Edited ⟨next, tree⟩ entries document') :
    Edited document ((document.version, edit) :: entries) document' where
  versions := by
    have hnext := Service.toInt_nextVersion hwrites.version
    rw [List.map_cons, h.versions, List.length_cons, List.range_succ_eq_map, List.map_cons,
      List.map_map]
    -- the entries behind the first count from the next version
    congr 1
    · simp
    · apply List.map_congr_left
      intro i _
      simp only [Function.comp_apply, hnext]
      push_cast
      omega
  version := by
    have hnext := Service.toInt_nextVersion hwrites.version
    have hversion := h.version
    simp only at hversion
    rw [List.length_cons, hversion, hnext]
    push_cast
    omega
  text := by
    rw [List.map_cons, replay, hwrites.wrote.applyTo?, Option.bind_some]
    exact h.text

variable {s last : Session} {doc : Doc} {document : Document} {steps : List Step}

/-- Along a run, a document that is neither opened anew nor closed is edited as its log says. -/
theorem Run.edited (h : Run s steps last) (kept : ∀ step ∈ steps, step.resets doc = false)
    (hopen : s.service.document? doc = some document) (readsAs : ∃ sub, document.tree.ReadsAs sub) :
    ∃ document', last.service.document? doc = some document' ∧
      Edited document (log doc steps) document' := by
  induction h generalizing document with
  | nil s => exact ⟨document, hopen, edited_nil document⟩
  | @cons s next last call answer steps hstep _ ih =>
    have hrest := fun step hmem => kept step (List.mem_cons_of_mem _ hmem)
    rcases (step_effect hstep).document (kept _ List.mem_cons_self) hopen readsAs with
      ⟨hnone, hsame⟩ | ⟨fix, edit, version, tree, hwrites⟩
    · obtain ⟨document', hopen', hedited⟩ := ih hrest hsame readsAs
      refine ⟨document', hopen', ?_⟩
      rw [log, List.filterMap_cons_none hnone]
      exact hedited
    · obtain ⟨document', hopen', hedited⟩ := ih hrest hwrites.after hwrites.wrote.readsAs
      refine ⟨document', hopen', ?_⟩
      rw [log, List.filterMap_cons_some hwrites.entry]
      exact hedited.cons hwrites

/-- From the opening of a document on, and until it is opened anew or closed, its text and its
version are what the edits that the host is told make of the first text and version. Each edit
inserts what the scope of the fix is written as into the text just before, and a fix that is not
applied changes nothing. -/
theorem edit_log {opening : Step} {version : Version} {text : String}
    (hrun : Run s (opening :: steps) last) (hcall : opening.call = .openJson doc version text)
    (hdone : opening.answer = .done) (kept : ∀ step ∈ steps, step.resets doc = false) :
    ∃ opened present, opening.after.service.document? doc = some opened ∧
      opened.version = version ∧ last.service.document? doc = some present ∧
      Edited opened (log doc steps) present ∧
      (∀ step ∈ steps, ∀ told edit, step.told? doc = some (told, edit) →
        ∃ fix before, step.fix? = some fix ∧ step.before.service.document? doc = some before ∧
          edit.Inserts fix.scope before.tree.text) ∧
      ∀ step ∈ steps, step.answer ∈ [.noSuchSlot, .notApplied, .notFixed] →
        step.after = step.before := by
  cases hrun with
  | @cons _ next _ call answer _ hstep hrest =>
    obtain rfl : call = _ := hcall
    obtain rfl : answer = _ := hdone
    obtain ⟨tree, sub, hopened, hsub⟩ := (step_effect hstep).opened_document
    obtain ⟨present, hpresent, hedited⟩ := hrest.edited kept hopened ⟨sub, hsub⟩
    refine ⟨_, present, hopened, rfl, hpresent, hedited, ?_, ?_⟩
    · intro step hmem told edit hentry
      obtain ⟨-, hbefore⟩ := hrest.document kept
        (fun document => ∃ sub, document.tree.ReadsAs sub) (fun _ h => h)
        (fun _ _ _ _ _ _ hwrites _ => hwrites.wrote.readsAs) hopened ⟨sub, hsub⟩
      obtain ⟨document, hdocument, hreads⟩ := hbefore step hmem
      rcases (hrest.effect hmem).document (kept step hmem) hdocument hreads with
        ⟨hnone, -⟩ | ⟨fix, edit', version, tree, hwrites⟩
      · rw [show step.told? doc = none from hnone] at hentry
        cases hentry
      · obtain ⟨-, rfl⟩ := Prod.mk.inj (Option.some.inj (hentry.symm.trans hwrites.entry))
        exact ⟨fix, document, hwrites.applies, hdocument, hwrites.wrote.inserts⟩
    · intro step hmem hanswer
      apply (hrest.effect hmem).same_of_quiet
      rw [List.mem_cons, List.mem_cons, List.mem_singleton] at hanswer
      rcases hanswer with h | h | h <;> rw [h] <;> rfl

theorem edit_log_sample : ∃ opened present steps, opened.version = 7 ∧ present.version = 8 ∧
    Edited opened (log ⟨1⟩ steps) present ∧ (log ⟨1⟩ steps).length = 1 := by
  obtain ⟨opening, offer, application, last, document, hrun, hopening, hoffer, happlication, hopen,
    hversion⟩ := sample_steps
  have kept : ∀ step ∈ [offer, application], step.resets ⟨1⟩ = false := by
    intro step hmem
    rcases List.mem_cons.mp hmem with rfl | hmem
    · rw [Step.resets, hoffer.1]
    · rw [Step.resets, List.mem_singleton.mp hmem, happlication.1]
  obtain ⟨opened, present, -, hopened, hpresent, hedited, -, -⟩ :=
    edit_log hrun hopening.1 hopening.2 kept
  obtain rfl := Option.some.inj (hopen.symm.trans hpresent)
  refine ⟨opened, document, _, hopened, hversion, hedited, ?_⟩
  have hcount := hedited.version
  rw [hversion, hopened] at hcount
  have h7 : (7 : Int64).toInt = 7 := rfl
  have h8 : (8 : Int64).toInt = 8 := rfl
  omega

end Session

end DeclVisibility
