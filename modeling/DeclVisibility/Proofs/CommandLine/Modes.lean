import DeclVisibility.Proofs.CommandLine.Jobs
import DeclVisibility.Proofs.CommandLine.Pieces
import DeclVisibility.Proofs.Service.Runs
import DeclVisibility.Proofs.Service.Single
import DeclVisibility.Proofs.Text.Lines

/-!
# The ways to give the result of a fix

The result of a fix can be printed as a text, printed as an edit, or written into a file. The
command lines differ in their last words only, and ask for one fix on one source. So they fail
together and for the same reason, before anything is printed or written, or one and the same
declaration is made public in each of them (`Machine.fix_cases`).

The text that is printed is the text that was read, with the visibility put in at the row and column
that the edit names (`Machine.modes_agree`).
-/

namespace DeclVisibility.CommandLine

/-- The text that the pieces name: standard input if there is a dash, and else that of a file. -/
inductive Piece.Names (pieces : List Piece) (m : Machine) : String → Prop
  | input (dash : Stands pieces "-") : Names pieces m m.input
  | file {name text : String} (noDash : ¬ Stands pieces "-") (named : Stands pieces name)
    (read : m.files.read? name = some text) : Names pieces m text

/-- What is read from the source that the pieces name is the text that they name. -/
theorem Piece.Finds.names {pieces : List Piece} {source : Source} {m : Machine} {text : String}
    (h : Finds pieces source) (hread : (source.read Machine.host m).1 = .ok text) :
    Names pieces m text := by
  cases h with
  | input dash =>
    obtain rfl := Except.ok.inj hread
    exact .input dash
  | file noDash named =>
    rw [Source.read_file] at hread
    split at hread
    · rename_i found hfound
      obtain rfl := Except.ok.inj hread
      exact .file noDash named hfound
    · cases hread

/-- A fix fails whichever way its result is to be given, or a declaration was made public. -/
theorem Action.fix_cases (name : String) (scope : Scope) (text : String) :
    (∃ failure, ∀ asEdit, (Action.fix name scope asEdit).output Single.doc text = .error failure) ∨
    ∃ made, (Single.makePublic text name scope).outcome.value = .ok (.ok (some made)) ∧
      ∀ asEdit, (Action.fix name scope asEdit).output Single.doc text =
        if asEdit then (editText made).mapError .fault else .ok made.text := by
  simp only [Action.output_fix]
  cases hmade : settle (Single.makePublic text name scope) with
  | error failure => exact .inl ⟨failure, fun _ => rfl⟩
  | ok made? =>
    cases made? with
    | none => exact .inl ⟨.noFix name, fun _ => rfl⟩
    | some made => exact .inr ⟨made, settle_eq_ok.mp hmade, fun _ => rfl⟩

/-! ## Running the modes -/

/-- How a mode gives what was made public, on a machine that has read its source. -/
def Mode.give (made : Single.MadePublic) (m : Machine) : Mode → Outcome × Machine
  | text => (.ofResult (.ok made.text), m)
  | edit => (.ofResult ((editText made).mapError .fault), m)
  | file _ target =>
    match m.files.write? target made.text with
    | some files => (.ofResult (.ok ""), { m with files })
    | none => (.ofResult (.error (.file target)), m)

namespace Machine

/-- The command line of a fix in a mode. -/
def fixWords (pieces : List Piece) (mode : Mode) : List String :=
  "fix" :: (pieces.flatMap Piece.words ++ mode.words)

/-- No word of a fix in a mode asks for help. -/
def NoHelp (pieces : List Piece) (mode : Mode) : Prop :=
  ∀ word ∈ pieces.flatMap Piece.words ++ mode.words, isHelpFlag word = false

/-- The modes all fail in the same way, or each gives what was made public of the text that the
pieces name. -/
theorem fix_cases (pieces : List Piece) (m : Machine) :
    (∃ failure m', m'.files = m.files ∧ ∀ mode, NoHelp pieces mode →
      run (fixWords pieces mode) m = (.ofResult (.error failure), m')) ∨
    ∃ text name scope made m', Piece.Names pieces m text ∧ Piece.Asks pieces scope ∧
      (Single.makePublic text name scope).outcome.value = .ok (.ok (some made)) ∧
      m'.files = m.files ∧ ∀ mode, NoHelp pieces mode →
        run (fixWords pieces mode) m = mode.give made m' := by
  have hwords : ∀ {mode}, NoHelp pieces mode → Invocation.ofWords (fixWords pieces mode) =
      .work (Job.ofWords .fix (pieces.flatMap Piece.words ++ mode.words)) :=
    fun noHelp => Invocation.ofWords_task rfl noHelp
  rcases Piece.jobs pieces with ⟨failure, hfailure⟩ | ⟨name, scope, source, hasks, hfinds, hjob⟩
  · refine .inl ⟨failure, m, rfl, fun mode noHelp => run_of_failure m ?_⟩
    rw [hwords noHelp, hfailure]
  · have hsource : ∀ mode : Mode, (mode.job name scope source).source = source := by
      intro mode
      cases mode <;> rfl
    have haction : ∀ mode : Mode, ∃ asEdit,
        (mode.job name scope source).action = .fix name scope asEdit := by
      intro mode
      cases mode <;> exact ⟨_, rfl⟩
    have hrun : ∀ mode, NoHelp pieces mode → run (fixWords pieces mode) m =
        ((.ofResult ((mode.job name scope source).run host Single.doc m).1),
          ((mode.job name scope source).run host Single.doc m).2) := by
      intro mode noHelp
      apply run_of_job
      rw [hwords noHelp, hjob]
    have hfiles := source.files_read m
    cases hread : source.read host m with
    | mk result m' =>
      rw [hread] at hfiles
      cases result with
      | error failure =>
        refine .inl ⟨failure, m', hfiles, fun mode noHelp => ?_⟩
        rw [hrun mode noHelp, Job.run_host, hsource, hread]
      | ok text =>
        rcases Action.fix_cases name scope text with ⟨failure, hfailure⟩ | ⟨made, hmade, houtput⟩
        · refine .inl ⟨failure, m', hfiles, fun mode noHelp => ?_⟩
          obtain ⟨asEdit, hfix⟩ := haction mode
          rw [hrun mode noHelp, Job.run_host, hsource, hread, hfix]
          simp only [hfailure]
        · have hnames := hfinds.names (by rw [hread])
          refine .inr ⟨text, name, scope, made, m', hnames, hasks, hmade, hfiles, ?_⟩
          intro mode noHelp
          rw [hrun mode noHelp, Job.run_host, hsource, hread]
          cases mode with
          | text =>
            simp only [Mode.job, houtput]
            rfl
          | edit =>
            simp only [Mode.job, houtput, if_true, Mode.give]
            cases editText made <;> rfl
          | file long target =>
            simp only [Mode.job, houtput, deliver_file, Mode.give, if_neg Bool.false_ne_true]
            cases m'.files.write? target made.text <;> rfl

end Machine

/-! ## What is printed and written -/

/-- The last line of a printed edit: the row and the column that the text before it ends at, both
counted from 1, and what is put in there. -/
theorem exists_editText_line {made : Single.MadePublic} {before written : String}
    (hedit : made.edit = ⟨.emptyAt (.ofString before), written⟩)
    (hplace : (Position.ofString before).Displayable)
    (hline : '\n' ∉ (Text.quote written).toList) : ∃ printed, editText made = .ok printed ∧
      (Plan.cutLines printed.toList).getLast? =
        some (toString (Text.lineFeeds before + 1) ++ ":" ++
          toString ((Text.lastLine before).utf8ByteSize + 1) ++ " " ++ Text.quote written ++
            "\n").toList := by
  have hdisplay := hplace.display
  rw [Position.row_ofString, Position.column8_ofString] at hdisplay
  have hnoFeed : '\n' ∉ (toString (Text.lineFeeds before + 1) ++ ":" ++
      toString ((Text.lastLine before).utf8ByteSize + 1) ++ " " ++ Text.quote written).toList := by
    rw [String.toList_append, String.toList_append, List.mem_append, List.mem_append, not_or, not_or]
    exact ⟨⟨Position.feed_notMem_display hdisplay, by decide⟩, hline⟩
  have hlast := Plan.getLast?_cutLines made.title.toList hnoFeed
  refine ⟨_, by rw [editText, hedit, Range.emptyAt, hdisplay]; rfl, ?_⟩
  simpa using hlast

theorem feed_notMem_quote_written (scope : Scope) : '\n' ∉ (Text.quote scope.written).toList := by
  cases scope <;> decide +kernel

namespace Machine

/-- What comes of a fix that was found, whose result is printed as a text, printed as an edit, and
written into a file. -/
structure GivesAlike (pieces : List Piece) (target : String) (m : Machine)
    (text edit file : Outcome × Machine) : Prop where
  /-- The text that is printed is that of the tree that was read, with a visibility put in, and the
  last line of the edit tells where and what, as far as rows and columns can be counted. -/
  inserted : ∃ source input tree before after written, Piece.Names pieces m source ∧
    Exchange.readDocument source = .ok input ∧ input.draft.load = .ok (.ok tree) ∧
    (.crateOnly ∈ pieces → written = "pub(crate) ") ∧ (.crateOnly ∉ pieces → written = "pub ") ∧
    tree.text = before ++ after ∧ text.1.text = before ++ written ++ after ∧
    (text.1.text.utf8ByteSize < Position.limit →
      (Plan.cutLines edit.1.text.toList).getLast? =
        some (toString (Text.lineFeeds before + 1) ++ ":" ++
          toString ((Text.lastLine before).utf8ByteSize + 1) ++ " " ++ Text.quote written ++
            "\n").toList)
  textFiles : text.2.files = m.files
  editFiles : edit.2.files = m.files
  fileText : file.1.text = ""
  written : file.2.files.read? target = some text.1.text
  others : ∀ path, m.files.resolve? target ≠ some path →
    file.2.files.get? path = m.files.get? path

/-- A fix whose result is printed as a text, printed as an edit, or written into a file that can be
written ends with the same code and the same failure. If it succeeds, what is printed, and what is
written, is the same text, and the edit makes it out of the text that was read. If it fails, nothing
is printed, and no file is written. Only where the text has as many bytes as the limit, the row and
the column of the edit may not be numbers of 32 bits, and then the edit is not printed. -/
theorem modes_agree (pieces : List Piece) (m : Machine) (long : Bool) (target : String)
    (noHelp : NoHelp pieces .text) (noHelpTarget : isHelpFlag target = false)
    (writable : ∀ text, (m.files.write? target text).isSome) :
    let text := run (fixWords pieces .text) m
    let edit := run (fixWords pieces .edit) m
    let file := run (fixWords pieces (.file long target)) m
    (text.1.text.utf8ByteSize < Position.limit →
      edit.1.code = text.1.code ∧ edit.1.failure? = text.1.failure?) ∧
    (file.1.code = text.1.code ∧ file.1.failure? = text.1.failure?) ∧
    (text.1.code = 0 → GivesAlike pieces target m text edit file) ∧
    (text.1.code ≠ 0 → ∀ ended ∈ [text, edit, file],
      ended.1.text = "" ∧ ended.2.files = m.files) := by
  have noHelpMore : ∀ mode : Mode, (∀ word ∈ mode.words, isHelpFlag word = false) →
      NoHelp pieces mode := by
    intro mode hmode word hword
    rcases List.mem_append.mp hword with hword | hword
    · exact noHelp word (List.mem_append_left _ hword)
    · exact hmode word hword
  have noHelpEdit : NoHelp pieces .edit := noHelpMore _ (by decide)
  have noHelpFile : NoHelp pieces (.file long target) := by
    apply noHelpMore
    intro word hword
    rw [Mode.words, List.mem_cons, List.mem_singleton] at hword
    rcases hword with rfl | rfl
    · cases long <;> decide
    · exact noHelpTarget
  intro text edit file
  rcases fix_cases pieces m with ⟨failure, m', hfiles, hrun⟩ |
    ⟨source, name, scope, made, m', hnames, hasks, hmade, hfiles, hrun⟩
  · rw [show text = _ from hrun _ noHelp, show edit = _ from hrun _ noHelpEdit,
      show file = _ from hrun _ noHelpFile]
    refine ⟨fun _ => ⟨rfl, rfl⟩, ⟨rfl, rfl⟩, (fun hcode => nomatch hcode), ?_⟩
    intro _ ended hended
    simp only [List.mem_cons, List.not_mem_nil, or_false, or_self] at hended
    rw [hended]
    exact ⟨Outcome.text_error failure, hfiles⟩
  · obtain ⟨files, hwrite⟩ := Option.isSome_iff_exists.mp (writable made.text)
    have hfile : Mode.give made m' (.file long target) = (.ofResult (.ok ""), { m' with files }) := by
      rw [Mode.give, hfiles, hwrite]
    rw [show text = _ from hrun _ noHelp, show edit = _ from hrun _ noHelpEdit,
      show file = _ from (hrun _ noHelpFile).trans hfile]
    obtain ⟨input, tree, before, after, hread, hload, hbefore, htext, hedit⟩ :=
      Single.makePublic_eq_ok hmade
    have hprinted : (Outcome.ofResult (.ok made.text)).text.utf8ByteSize < Position.limit →
        ∃ printed, Mode.give made m' .edit = (.ofResult (.ok printed), m') ∧
          (Plan.cutLines printed.toList).getLast? =
            some (toString (Text.lineFeeds before + 1) ++ ":" ++
              toString ((Text.lastLine before).utf8ByteSize + 1) ++ " " ++
                Text.quote scope.written ++ "\n").toList := by
      intro short
      rw [Outcome.text_ok, htext, String.utf8ByteSize_append, String.utf8ByteSize_append] at short
      -- what is written has a byte at least, and it stands behind the text before it
      have hblank : 1 ≤ scope.written.utf8ByteSize := by cases scope <;> decide
      have hplace : (Position.ofString before).Displayable :=
        Position.displayable_ofString (by omega)
      obtain ⟨printed, hedited, hlast⟩ :=
        exists_editText_line hedit hplace (feed_notMem_quote_written scope)
      exact ⟨printed, by rw [Mode.give, hedited]; rfl, hlast⟩
    refine ⟨fun short => ?_, ⟨rfl, rfl⟩, fun _ => ?_, fun hcode => absurd rfl hcode⟩
    · obtain ⟨printed, hedited, -⟩ := hprinted short
      rw [hedited]
      exact ⟨rfl, rfl⟩
    refine ⟨⟨source, input, tree, before, after, scope.written, hnames, hread, hload, ?_, ?_, hbefore,
      ?_, ?_⟩, hfiles, hfiles, Outcome.text_ok "", ?_, ?_⟩
    · intro hmem
      cases hasks with
      | crateOnly _ => decide +kernel
      | pub hnot => exact absurd hmem hnot
    · intro hnot
      cases hasks with
      | crateOnly hmem => exact absurd hmem hnot
      | pub _ => decide +kernel
    · rw [Mode.give, Outcome.text_ok, htext]
    · intro short
      obtain ⟨printed, hedited, hlast⟩ := hprinted short
      rw [hedited, Outcome.text_ok]
      exact hlast
    · rw [Mode.give, Outcome.text_ok]
      exact Files.read?_of_write? hwrite
    · intro path hpath
      exact Files.get?_of_write? hwrite hpath

/-- A machine with one document in a file. -/
def library : Machine := ⟨.ofNames [("lib.json", Session.sampleText)], ""⟩

/-- The words for a fix in it. -/
def libraryFix : List Piece := [.plain "lib.json" (by decide), .name false "f", .crateOnly]

theorem modes_agree_sample : NoHelp libraryFix .text ∧ isHelpFlag "out.rs" = false ∧
    (∀ text, (library.files.write? "out.rs" text).isSome) ∧
    (run (fixWords libraryFix .text) library).1.code = 0 ∧
    (run (fixWords libraryFix .text) library).1.text.utf8ByteSize < Position.limit ∧
    (run (fixWords libraryFix .edit) library).1.code = 0 ∧
    GivesAlike libraryFix "out.rs" library (run (fixWords libraryFix .text) library)
      (run (fixWords libraryFix .edit) library)
      (run (fixWords libraryFix (.file true "out.rs")) library) := by
  have noHelp : NoHelp libraryFix .text := by
    rw [NoHelp]
    decide
  have hresolve : library.files.resolve? "out.rs" = some ["out.rs"] := by decide +kernel
  have hfile : library.files.isDirectory ["out.rs"] = false := by decide +kernel
  have writable : ∀ text, (library.files.write? "out.rs" text).isSome := fun text =>
    Option.isSome_of_eq_some (Files.write?_eq_some.mpr ⟨_, hresolve, hfile, rfl⟩)
  have hcode : (run (fixWords libraryFix .text) library).1.code = 0 := by decide +kernel
  have short : (run (fixWords libraryFix .text) library).1.text.utf8ByteSize < Position.limit := by
    decide +kernel
  obtain ⟨hedit, -, hgives, -⟩ :=
    modes_agree libraryFix library true "out.rs" noHelp (by decide) writable
  exact ⟨noHelp, by decide, writable, hcode, short, (hedit short).1.trans hcode, hgives hcode⟩

end Machine

end DeclVisibility.CommandLine
