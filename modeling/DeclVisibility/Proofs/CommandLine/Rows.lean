import DeclVisibility.Proofs.CommandLine.InTurn

/-!
# The rows of a batch

The lines of a batch are taken in one after another, until one of them is blank or refused, or until
a request has read what is left of the input. In every order of the steps, each line that was taken
in has one command among those of the batch, which ends with a row of its id (`Batch.Accounted`). So
when the batch is over, each of these lines is answered by one row (`Batch.rows_of_lines`). A line
that is refused is not answered, nor is any line behind it.
-/

namespace DeclVisibility.CommandLine

/-- A request that is taken in has an id and the words of a task. -/
theorem Request.ofLine_eq_ok {line : String} {request : Request} (h : ofLine line = .ok request) :
    ∃ fields task word words, readRequest line = .ok fields ∧ fields.words = word :: words ∧
      Subcommand.ofWord? word = some (.task task) ∧ request = ⟨fields.id, Job.ofWords task words⟩ := by
  rw [ofLine] at h
  split at h
  · cases h
  · rename_i fields hfields
    split at h
    · cases h
    · rename_i word words hwords
      split at h
      · cases h
      · rename_i task htask
        exact ⟨fields, task, word, words, hfields, hwords, htask, (Except.ok.inj h).symm⟩
      · cases h

/-- What is wrong with the words of a request is no fault. -/
theorem Request.job_ne_fault {line : String} {request : Request} (h : ofLine line = .ok request)
    (fault : Fault) : request.job ≠ .error (.fault fault) := by
  obtain ⟨fields, task, word, words, -, -, -, rfl⟩ := ofLine_eq_ok h
  exact Job.ofWords_ne_fault task words fault

namespace Batch

/-- Whether a line is taken in. -/
def accepted (line : String) : Bool := !Text.isAllBlank line && (Request.ofLine line).isOk

theorem accepted_iff {line : String} : accepted line = true ↔
    Text.isAllBlank line = false ∧ ∃ request, Request.ofLine line = .ok request := by
  rw [accepted, Bool.and_eq_true, Bool.not_eq_true']
  cases Request.ofLine line with
  | error failure => exact ⟨fun h => (nomatch h.2), fun h => nomatch h.2⟩
  | ok request => exact ⟨fun h => ⟨h.1, request, rfl⟩, fun h => ⟨h.1, rfl⟩⟩

/-- What is written on the line of a request. -/
def fieldsOf (line : String) : RequestFields := (readRequest line).toOption.getD {}

/-- The request of a line reads the input. -/
def ReadsInput (line : String) : Prop :=
  ∃ request, Request.ofLine line = .ok request ∧ request.takesInput = true

/-- A command answers a line: whatever happens, it ends with a row of the line's id, and it meets no
fault but a position that cannot be written. -/
def Answers (line : String) (p : Pending Row) : Prop :=
  p.Goes (ReadsInput line) fun row =>
    row.id = (fieldsOf line).id ∧ OverflowsAtMost row.result

theorem answers_of_ofLine {line : String} {request : Request} (h : Request.ofLine line = .ok request)
    (doc : Doc) : Answers line (request.run Pending.host doc) := by
  obtain ⟨fields, task, word, words, hfields, -, -, hrequest⟩ := Request.ofLine_eq_ok h
  have hid : request.id = (fieldsOf line).id := by
    rw [hrequest, fieldsOf, hfields]
    rfl
  exact (Request.goes_run doc (Request.job_ne_fault h)).imp (fun htakes => ⟨request, h, htakes⟩)
    fun row hrow => ⟨hrow.1.trans hid, hrow.2⟩

/-! ## Every line has its command -/

/-- The lines taken in so far are a first part of those of the input, all of them are accepted, and
each has its command. If a request has read the input, nothing is left; else the other lines are. -/
structure Accounted (m : Machine) (taken rest : List String) (b : Batch) : Prop where
  split : Plan.lines m.input = taken ++ rest
  accepted : ∀ line ∈ taken, accepted line = true
  answered : Multiset.Rel Answers (Multiset.ofList taken) b.tasks
  reading : b.ending? = none → Plan.lines b.machine.input = rest ∨
    Plan.lines b.machine.input = [] ∧ ∃ line ∈ taken, ReadsInput line
  ended : ∀ failure?, b.ending? = some failure? → StopsAt rest failure? ∨
    failure? = none ∧ ∃ line ∈ taken, ReadsInput line

variable {m : Machine} {taken rest : List String} {b b' : Batch}

theorem accounted_start (m : Machine) : Accounted m [] (Plan.lines m.input) (start m) where
  split := rfl
  accepted _ h := nomatch h
  answered := .zero
  reading _ := .inl rfl
  ended _ h := nomatch h

theorem Accounted.readLine (h : Accounted m taken rest b) (reading : b.ending? = none) :
    ∃ taken rest, Accounted m taken rest b.readLine := by
  rcases b.readLine_cases with ⟨failure?, input, hstops, hread⟩ |
    ⟨line, others, request, hlines, hblank, hrequest, hread⟩
  · refine ⟨taken, rest, h.split, h.accepted, ?_, ?_, ?_⟩
    · rw [hread]
      exact h.answered
    · rw [hread]
      exact fun hnone => nomatch hnone
    · intro ending hending
      rw [hread] at hending
      obtain rfl := Option.some.inj hending
      rcases h.reading reading with hrest | ⟨hempty, hreads⟩
      · rw [hrest] at hstops
        exact .inl hstops
      · rw [hempty] at hstops
        cases hstops
        exact .inr ⟨rfl, hreads⟩
  · rcases h.reading reading with hrest | ⟨hempty, -⟩
    · have hsplit : Plan.lines m.input = (taken ++ [line]) ++ others := by
        rw [h.split, ← hrest, hlines, List.append_assoc, List.singleton_append]
      have haccepted : Batch.accepted line = true := accepted_iff.mpr ⟨hblank, request, hrequest⟩
      refine ⟨taken ++ [line], others, hsplit, ?_, ?_, ?_, ?_⟩
      · intro other hother
        rcases List.mem_append.mp hother with hother | hother
        · exact h.accepted other hother
        · rw [List.mem_singleton.mp hother, haccepted]
      · have hcons : Multiset.ofList (taken ++ [line]) = line ::ₘ Multiset.ofList taken := by
          rw [Multiset.cons_coe, Multiset.coe_eq_coe]
          exact List.perm_append_singleton line taken
        rw [hread, tasks_takeIn, hcons]
        exact .cons (answers_of_ofLine hrequest _) h.answered
      · rw [hread]
        exact fun _ => .inl (Plan.lines_rest hlines)
      · intro ending hending
        rw [hread, takeIn, reading] at hending
        cases hending
    · rw [hempty] at hlines
      cases hlines

/-- Each step keeps account of the lines. -/
theorem Accounted.step (h : Accounted m taken rest b) (hstep : Step b b') :
    ∃ taken rest, Accounted m taken rest b' := by
  rcases hstep.tasks_cases with ⟨reading, rfl⟩ |
    ⟨hending, p, p', others, hact, htasks, htasks'⟩ | ⟨hending, hmachine, htasks⟩
  · exact h.readLine reading
  · have hanswered := h.answered
    rw [htasks, Multiset.rel_cons_right] at hanswered
    obtain ⟨line, lines, hp, hothers, htaken⟩ := hanswered
    have hline : line ∈ taken := by
      rw [← Multiset.mem_coe, htaken]
      exact Multiset.mem_cons_self line lines
    refine ⟨taken, rest, h.split, h.accepted, ?_, ?_, ?_⟩
    · rw [htasks', htaken]
      exact .cons (hp.act hact) hothers
    · rw [hending]
      intro reading
      rcases Pending.input_act hact with hinput | ⟨hinput, next, rfl⟩
      · rw [hinput]
        exact h.reading reading
      · rw [hinput]
        exact .inr ⟨rfl, line, hline, hp.1⟩
    · rw [hending]
      exact h.ended
  · refine ⟨taken, rest, h.split, h.accepted, ?_, ?_, ?_⟩
    · rw [htasks]
      exact h.answered
    · rw [hending, hmachine]
      exact h.reading
    · rw [hending]
      exact h.ended

/-- In every order of the steps, account is kept of the lines. -/
theorem Run.accounted (h : Run (start m) b) : ∃ taken rest, Accounted m taken rest b := by
  induction h with
  | refl => exact ⟨_, _, accounted_start m⟩
  | tail _ hstep ih =>
    obtain ⟨taken, rest, haccounted⟩ := ih
    exact haccounted.step hstep

/-! ## The rows at the end -/

/-- When a batch is over, its commands are the rows. -/
theorem Over.tasks (h : b.Over) : b.tasks = (Multiset.ofList b.rows).map .done := by
  rw [Batch.tasks, h.2, List.nil_append, Multiset.map_coe]

/-- Things that are matched and have something in common have it in common one by one, in some
order. -/
theorem perm_map_of_rel {α β γ : Type} {f : α → γ} {g : β → γ} {as : List α} {bs : List β}
    (h : Multiset.Rel (fun a b => f a = g b) (Multiset.ofList as) (Multiset.ofList bs)) :
    (bs.map g).Perm (as.map f) := by
  rw [← Multiset.rel_map, Multiset.rel_eq, Multiset.map_coe, Multiset.map_coe,
    Multiset.coe_eq_coe] at h
  exact h.symm

/-- A batch that is over has answered each line that was taken in by one row, which has the id of
its line and holds what was printed or why the command failed; the only fault among the reasons is
a position that cannot be written. These are the lines before one that is blank or refused, unless
one of them has read the input. If a line is refused, the batch fails for its reason. -/
structure LinesAnswered (m : Machine) (b : Batch) (taken rest : List String) : Prop where
  split : Plan.lines m.input = taken ++ rest
  accepted : ∀ line ∈ taken, accepted line = true
  rows : (b.rows.map (·.id)).Perm (taken.map fun line => (fieldsOf line).id)
  faults : ∀ row ∈ b.rows, OverflowsAtMost row.result
  stopped : StopsAt rest b.failure? ∨ b.failure? = none ∧ ∃ line ∈ taken, ReadsInput line

/-- In every order of its steps, a batch goes on until it is over, and then the lines up to the one
that ended reading are answered. Neither a line that is refused nor any behind it is. -/
theorem rows_of_lines (m : Machine) (b : Batch) (hrun : Run (start m) b) :
    (∃ last, Run b last ∧ last.Over) ∧
      (b.Over → ∃ taken rest, LinesAnswered m b taken rest) := by
  refine ⟨exists_over b, fun hover => ?_⟩
  obtain ⟨taken, rest, h⟩ := hrun.accounted
  have hanswered := h.answered
  rw [hover.tasks, Multiset.rel_map_right] at hanswered
  obtain ⟨failure?, hending⟩ := Option.isSome_iff_exists.mp hover.1
  refine ⟨taken, rest, h.split, h.accepted, ?_, ?_, ?_⟩
  · exact perm_map_of_rel (hanswered.mono fun _ _ _ _ hrow => hrow.1.symm)
  · intro row hrow
    obtain ⟨line, -, hline⟩ := Multiset.exists_mem_of_rel_of_mem (Multiset.rel_flip.mpr hanswered)
      (Multiset.mem_coe.mpr hrow)
    exact hline.2
  · rw [Batch.failure?, hending]
    exact h.ended failure? hending

/-- A batch of three requests, of which the second has no words. -/
def threeLines : Machine where
  files := {}
  input := "\x7b\"id\":1,\"args\":[\"outline\",\"c\"]\x7d\n\x7b\"id\":2,\"args\":[]\x7d\n" ++
    "\x7b\"id\":3,\"args\":[\"outline\",\"c\"]\x7d\n"

/-- The first request is answered, and the second ends the batch. -/
theorem rows_of_lines_sample : ∃ b taken rest, Run (start threeLines) b ∧ b.Over ∧
    b.rows.map (·.id.compact) = ["1"] ∧ b.failure? = some .emptyRequest ∧
    LinesAnswered threeLines b taken rest := by
  obtain ⟨b, hrun, hover, houtcome, -⟩ := run_inTurn threeLines
  have hrows : (Machine.run ["batch"] threeLines).1.rows.map (·.id.compact) = ["1"] := by
    decide +kernel
  have hfailure : (Machine.run ["batch"] threeLines).1.failure? = some .emptyRequest := by
    decide +kernel
  rw [← houtcome] at hrows hfailure
  obtain ⟨taken, rest, hanswered⟩ := (rows_of_lines threeLines b hrun).2 hover
  exact ⟨b, taken, rest, hrun, hover, hrows, hfailure, hanswered⟩

/-- A batch whose first line is refused answers nothing, whatever stands on the other lines. -/
theorem rows_of_refused {line : String} (hlines : Plan.lines m.input = line :: rest)
    (hrefused : Batch.accepted line = false) (hrun : Run (start m) b) : b.rows = [] := by
  obtain ⟨taken, others, h⟩ := hrun.accounted
  have htaken : taken = [] := by
    cases taken with
    | nil => rfl
    | cons first more =>
      have hfirst := h.accepted first List.mem_cons_self
      obtain ⟨rfl, -⟩ := List.cons.inj (hlines.symm.trans h.split)
      cases hrefused.symm.trans hfirst
  have hanswered := h.answered
  rw [htaken, Multiset.coe_nil, Multiset.rel_zero_left, tasks, Multiset.coe_eq_zero,
    List.append_eq_nil_iff, List.map_eq_nil_iff] at hanswered
  exact hanswered.2

/-- A batch of two requests, of which the first has no words. -/
def twoLines : Machine where
  files := {}
  input := "\x7b\"id\":1,\"args\":[]\x7d\n\x7b\"id\":2,\"args\":[\"outline\",\"c\"]\x7d\n"

/-- Both lines hold an id and the words of a command line, and neither is answered, in any order. -/
theorem wordless_request_unanswered :
    ((Plan.lines twoLines.input).map fun line =>
      ((fieldsOf line).id.compact, (fieldsOf line).words?)) =
        [("1", some (some [])), ("2", some (some ["outline", "c"]))] ∧
    (∀ line ∈ Plan.lines twoLines.input, Text.isAllBlank line = false) ∧
    ∀ b, Run (start twoLines) b → b.rows = [] := by
  refine ⟨by decide +kernel, by decide +kernel, fun b hrun => ?_⟩
  have hlines : Plan.lines twoLines.input = ["\x7b\"id\":1,\"args\":[]\x7d\n",
      "\x7b\"id\":2,\"args\":[\"outline\",\"c\"]\x7d\n"] := by decide +kernel
  exact rows_of_refused hlines (by decide +kernel) hrun

end Batch

end DeclVisibility.CommandLine
