import DeclVisibility.Proofs.CommandLine.Files
import DeclVisibility.Proofs.Service.Naming
import DeclVisibility.Proofs.Service.Single

/-!
# Jobs

What a job makes of a text doesn't depend on the name of its document (`Request.run_doc`). The only
fault that it can meet is a position that cannot be written, and that takes a text of as many bytes
as the limit (`Action.fault_of_output`).

A job on a machine reads its source, works on the text, and delivers the result, in this order and
each only if what comes before it succeeds (`Job.run_host`). Reading leaves the files alone, so a
job changes the file that its result goes to or none at all (`Job.changed_run`).
-/

namespace DeclVisibility.CommandLine

/-! ## The work on a text -/

theorem settle_congr {α : Type} {x y : Attempt (Except ReadError α)}
    (h : x.outcome.value = y.outcome.value) : settle x = settle y := by
  rw [settle, settle, h]

theorem settle_eq_ok {α : Type} {x : Attempt (Except ReadError α)} {a : α} :
    settle x = .ok a ↔ x.outcome.value = .ok (.ok a) := by
  rw [settle]
  split <;> simp_all

theorem settle_eq_fault {α : Type} {x : Attempt (Except ReadError α)} {fault : Fault} :
    settle x = .error (.fault fault) ↔ x.outcome.value = .error fault := by
  rw [settle]
  split <;> simp_all

theorem settle_ne_fault {α : Type} {x : Attempt (Except ReadError α)} (h : x.Succeeds)
    (fault : Fault) : settle x ≠ .error (.fault fault) := by
  obtain ⟨result, hresult⟩ := h.value
  rw [settle, hresult]
  cases result with
  | error error => exact fun heq => nomatch heq
  | ok a => exact fun heq => nomatch heq

/-- The result of an action is the same for a document by any name. -/
theorem Action.output_doc (doc doc' : Doc) (action : Action) (text : String) :
    action.output doc text = action.output doc' text := by
  cases action with
  | fix name scope asEdit =>
    rw [output, output, settle_congr (Single.value_makePublic text name scope doc doc')]
  | outline => exact settle_congr (Single.value_outline text doc doc')
  | dump => rw [output, output, settle_congr (Single.value_dump text doc doc')]

theorem bind_ne_error {α β : Type} {x : Except Failure α} {next : α → Except Failure β}
    {failure : Failure} (hx : x ≠ .error failure) (hnext : ∀ a, next a ≠ .error failure) :
    (x >>= next) ≠ .error failure := by
  cases x with
  | error other =>
    intro h
    rw [Except.error.inj h] at hx
    exact hx rfl
  | ok a => exact hnext a

/-- An edit is printed unless its place cannot be written. -/
theorem exists_editText {made : Single.MadePublic} (h : made.edit.range.start.Displayable) :
    ∃ printed, editText made = .ok printed :=
  ⟨_, by rw [editText, h.display]; rfl⟩

theorem fault_of_editText {made : Single.MadePublic} {fault : Fault}
    (h : editText made = .error fault) : fault = .positionOverflow := by
  by_cases hplace : made.edit.range.start.Displayable
  · obtain ⟨printed, hprinted⟩ := exists_editText hplace
    cases hprinted.symm.trans h
  · rw [editText, Position.display_of_not_displayable hplace] at h
    exact (Except.error.inj h).symm

/-- What a fix gives of a declaration that was made public. -/
theorem Action.output_fix (doc : Doc) (name : String) (scope : Scope) (asEdit : Bool)
    (text : String) : (Action.fix name scope asEdit).output doc text =
      match settle (Single.makePublic text name scope doc) with
      | .error failure => .error failure
      | .ok none => .error (.noFix name)
      | .ok (some made) => if asEdit then (editText made).mapError .fault else .ok made.text := by
  rw [output]
  cases settle (Single.makePublic text name scope doc) with
  | error failure => rfl
  | ok made? => cases made? <;> rfl

/-- The only fault that a job can meet is a position that cannot be written, in a text of as many
bytes as the limit. -/
theorem Action.fault_of_output {doc : Doc} {action : Action} {text : String} {fault : Fault}
    (h : action.output doc text = .error (.fault fault)) :
    fault = .positionOverflow ∧ Position.limit ≤ text.utf8ByteSize := by
  cases action with
  | fix name scope asEdit =>
    have hsettle := settle_ne_fault (Single.succeeds_makePublic text name scope doc) fault
    rw [output_fix] at h
    split at h
    · rename_i failure hfailure
      rw [Except.error.inj h] at hfailure
      exact absurd hfailure hsettle
    · cases h
    · rename_i made hmade
      cases asEdit with
      | false => cases h
      | true =>
        rw [if_pos rfl] at h
        cases hedit : editText made with
        | ok printed =>
          rw [hedit] at h
          cases h
        | error met =>
          rw [hedit] at h
          obtain rfl := Failure.fault.inj (Except.error.inj h)
          refine ⟨fault_of_editText hedit, Nat.le_of_not_lt fun short => ?_⟩
          obtain ⟨printed, hprinted⟩ :=
            exists_editText (Single.displayable_of_makePublic short (settle_eq_ok.mp hmade))
          cases hprinted.symm.trans hedit
  | outline =>
    refine ⟨Single.fault_of_outline (settle_eq_fault.mp h), Nat.le_of_not_lt fun short => ?_⟩
    exact settle_ne_fault (Single.succeeds_outline doc short) fault h
  | dump =>
    have hsettle := settle_ne_fault (Single.succeeds_dump text doc) fault
    exact absurd h (bind_ne_error hsettle fun _ h => nomatch h)

theorem Job.run_doc {m : Type → Type} [Monad m] (host : Host m) (doc doc' : Doc) (job : Job) :
    job.run host doc = job.run host doc' := by
  simp only [Job.run, job.action.output_doc doc doc']

/-- A request is answered alike, whatever its document is called. -/
theorem Request.run_doc {m : Type → Type} [Monad m] (host : Host m) (doc doc' : Doc)
    (request : Request) : request.run host doc = request.run host doc' := by
  simp only [Request.run, Job.run_doc host doc doc']

/-! ## Command lines -/

theorem Words.accept_ne_fault (said : Words) (word : String) (fault : Fault) :
    said.accept word ≠ .error (.fault fault) := by
  rw [accept]
  split
  · exact fun h => nomatch h
  · split <;> exact fun h => nomatch h

theorem Words.read_ne_fault (task : Task) (said : Words) (words : List String) (fault : Fault) :
    read task said words ≠ .error (.fault fault) := by
  fun_induction read task said words with
  | case1 => exact fun h => nomatch h
  | case2 => exact fun h => nomatch h
  | case3 _ _ _ _ _ ih => exact ih
  | case4 => exact fun h => nomatch h
  | case5 _ _ _ _ _ ih => exact ih
  | case6 _ _ _ _ ih => exact ih
  | case7 _ _ _ _ ih => exact ih
  | case8 said word _ _ failure haccept =>
    intro h
    rw [Except.error.inj h] at haccept
    exact said.accept_ne_fault word fault haccept
  | case9 _ _ _ _ _ _ ih => exact ih

theorem Job.ofWords_ne_fault (task : Task) (words : List String) (fault : Fault) :
    Job.ofWords task words ≠ .error (.fault fault) := by
  refine bind_ne_error (Words.read_ne_fault task {} words fault) fun said => ?_
  refine bind_ne_error ?_ fun action => bind_ne_error ?_ fun source => fun h => nomatch h
  · cases task with
    | fix =>
      rw [Words.action]
      split <;> exact fun h => nomatch h
    | outline => exact fun h => nomatch h
    | dump => exact fun h => nomatch h
  · rw [Words.source]
    split
    · exact fun h => nomatch h
    · split <;> exact fun h => nomatch h

/-! ## Reading, writing and running -/

theorem Invocation.ofWords_task {task : Task} {word : String} {words : List String}
    (htask : Subcommand.ofWord? word = some (.task task))
    (noHelp : ∀ w ∈ words, isHelpFlag w = false) :
    Invocation.ofWords (word :: words) = .work (Job.ofWords task words) := by
  have hany : words.any isHelpFlag = false := by
    rw [List.any_eq_false]
    intro w hw
    rw [noHelp w hw]
    exact Bool.false_ne_true
  rw [Invocation.ofWords, htask]
  simp only [hany, Bool.false_eq_true, if_false]

variable (m : Machine)

theorem Source.read_file (name : String) : (Source.file name).read Machine.host m =
    match m.files.read? name with
    | some text => (.ok text, m)
    | none => (.error (.file name), m) := by
  cases h : m.files.read? name <;> simp [Source.read, Machine.host, bind, StateT.bind, h] <;> rfl

/-- Reading a source leaves the files alone. -/
theorem Source.files_read (source : Source) : (source.read Machine.host m).2.files = m.files := by
  cases source with
  | input => rfl
  | file name =>
    rw [read_file]
    cases m.files.read? name <;> rfl

theorem deliver_file (name result : String) : deliver Machine.host (some name) result m =
    match m.files.write? name result with
    | some files => (.ok "", { m with files })
    | none => (.error (.file name), m) := by
  cases h : m.files.write? name result <;>
    simp [deliver, Machine.host, bind, StateT.bind, h] <;> rfl

theorem Job.run_host (host : Host (StateM Machine)) (doc : Doc) (job : Job) : job.run host doc m =
    match job.source.read host m with
    | (.error failure, m') => (.error failure, m')
    | (.ok text, m') =>
      match job.action.output doc text with
      | .error failure => (.error failure, m')
      | .ok result => deliver host job.target? result m' := by
  simp only [Job.run, bind, StateT.bind]
  generalize job.source.read host m = taken
  obtain ⟨result, m'⟩ := taken
  cases result with
  | error failure => rfl
  | ok text =>
    simp only
    cases job.action.output doc text <;> rfl

theorem Request.run_host (host : Host (StateM Machine)) (doc : Doc) (request : Request) :
    request.run host doc m =
      match request.job with
      | .error failure => (⟨request.id, .error failure⟩, m)
      | .ok job => (⟨request.id, (job.run host doc m).1⟩, (job.run host doc m).2) := by
  rw [run]
  cases request.job <;> rfl

/-- Delivering changes no file, unless it goes to a file that held another text or none. -/
theorem changed_deliver (sound : m.files.Sound) (target? : Option String) (result : String) :
    (deliver Machine.host target? result m).2.files.changedSince m.files = [] ∨
      ∃ target path, target? = some target ∧ m.files.resolve? target = some path ∧
        m.files.read? target ≠ some result ∧
        (deliver Machine.host target? result m).2.files.changedSince m.files =
          [(Files.nameOf path, result)] := by
  cases target? with
  | none => exact .inl (Files.changedSince_self sound)
  | some target =>
    rw [deliver_file]
    cases hwrite : m.files.write? target result with
    | none => exact .inl (Files.changedSince_self sound)
    | some files =>
      obtain ⟨path, hpath, hchanged⟩ := Files.changedSince_of_write? sound hwrite
      split at hchanged
      · exact .inl hchanged
      · rename_i hother
        exact .inr ⟨target, path, rfl, hpath, hother, hchanged⟩

/-- A job changes the file that its result goes to, or no file. -/
theorem Job.changed_run (sound : m.files.Sound) (doc : Doc) (job : Job) :
    (job.run Machine.host doc m).2.files.changedSince m.files = [] ∨
      ∃ text result target path, (job.source.read Machine.host m).1 = .ok text ∧
        job.action.output doc text = .ok result ∧ job.target? = some target ∧
        m.files.resolve? target = some path ∧
        (job.run Machine.host doc m).2.files.changedSince m.files =
          [(Files.nameOf path, result)] := by
  have hfiles := job.source.files_read m
  rw [run_host]
  cases hread : job.source.read Machine.host m with
  | mk taken m' =>
    rw [hread] at hfiles
    replace hfiles : m'.files = m.files := hfiles
    rw [← hfiles] at sound ⊢
    cases taken with
    | error failure => exact .inl (Files.changedSince_self sound)
    | ok text =>
      simp only
      cases houtput : job.action.output doc text with
      | error failure => exact .inl (Files.changedSince_self sound)
      | ok result =>
        refine (changed_deliver m' sound job.target? result).imp_right ?_
        rintro ⟨target, path, htarget, hpath, -, hchanged⟩
        exact ⟨text, result, target, path, rfl, houtput, htarget, hpath, hchanged⟩

/-! ## The input -/

/-- Whether a job reads the input is written in its command line. -/
theorem Source.input_read (source : Source) :
    (source.read Machine.host m).2.input = if source = .input then "" else m.input := by
  cases source with
  | input => rfl
  | file name =>
    rw [read_file]
    cases m.files.read? name <;> rfl

theorem input_deliver (target? : Option String) (result : String) :
    (deliver Machine.host target? result m).2.input = m.input := by
  cases target? with
  | none => rfl
  | some name =>
    rw [deliver_file]
    cases m.files.write? name result <;> rfl

theorem Job.input_run (doc : Doc) (job : Job) :
    (job.run Machine.host doc m).2.input = if job.source = .input then "" else m.input := by
  have hinput := job.source.input_read m
  rw [run_host]
  cases hread : job.source.read Machine.host m with
  | mk result m' =>
    rw [hread] at hinput
    rw [← hinput]
    cases result with
    | error failure => rfl
    | ok text =>
      simp only
      cases job.action.output doc text with
      | error failure => rfl
      | ok result => exact input_deliver m' job.target? result

/-- What a request leaves of the input. -/
theorem Request.input_run (doc : Doc) (request : Request) :
    (request.run Machine.host doc m).2.input = if request.takesInput then "" else m.input := by
  rw [run_host, takesInput]
  cases request.job with
  | error failure => rfl
  | ok job => simp only [job.input_run, beq_iff_eq]

/-! ## Command lines on a machine -/

theorem Outcome.text_ok (printed : String) : (ofResult (.ok printed)).text = printed :=
  String.append_empty

theorem Outcome.text_error (failure : Failure) : (ofResult (.error failure)).text = "" := rfl

/-- What comes of a command line that is read as a job. -/
theorem Machine.run_of_job {words : List String} {job : Job}
    (h : Invocation.ofWords words = .work (.ok job)) : Machine.run words m =
      ((.ofResult (job.run Machine.host Single.doc m).1), (job.run Machine.host Single.doc m).2) := by
  rw [Machine.run, h]
  rfl

/-- A faulty command line does nothing but fail. -/
theorem Machine.run_of_failure {words : List String} {failure : Failure}
    (h : Invocation.ofWords words = .work (.error failure)) : Machine.run words m =
      ((.ofResult (.error failure)), m) := by
  rw [Machine.run, h]
  rfl

end DeclVisibility.CommandLine
