import DeclVisibility.Proofs.CommandLine.Batch

/-!
# A batch in turn

A batch that answers each request before it reads the next line takes its steps in one of the orders
that a batch can take them in. So what the plan of the input comes to is what comes of a batch that
is over (`Batch.run_inTurn`).
-/

namespace DeclVisibility.CommandLine

/-- The host of a batch in turn: the input is taken already, and what was left of it is at hand. -/
def Machine.hostWith (leftover : String) : Host (StateM Machine) :=
  { Machine.host with readInput := pure leftover }

variable {m : Machine} {text input : String}

theorem Source.read_hostWith {source : Source} (h : source = .input → m.input = text) :
    source.read (Machine.hostWith text) ⟨m.files, input⟩ =
      ((source.read Machine.host m).1, ⟨m.files, input⟩) := by
  cases source with
  | input =>
    rw [← h rfl]
    rfl
  | file name =>
    rw [Source.read_file]
    change (Source.file name).read Machine.host ⟨m.files, input⟩ = _
    rw [Source.read_file]
    cases m.files.read? name <;> rfl

theorem deliver_hostWith (target? : Option String) (result : String) :
    deliver (Machine.hostWith text) target? result ⟨m.files, input⟩ =
      ((deliver Machine.host target? result m).1,
        ⟨(deliver Machine.host target? result m).2.files, input⟩) := by
  cases target? with
  | none => rfl
  | some name =>
    rw [deliver_file]
    change deliver Machine.host (some name) result ⟨m.files, input⟩ = _
    rw [deliver_file]
    cases m.files.write? name result <;> rfl

theorem Job.run_hostWith (doc : Doc) {job : Job} (h : job.source = .input → m.input = text) :
    job.run (Machine.hostWith text) doc ⟨m.files, input⟩ =
      ((job.run Machine.host doc m).1, ⟨(job.run Machine.host doc m).2.files, input⟩) := by
  have hfiles := job.source.files_read m
  rw [Job.run_host, Job.run_host, Source.read_hostWith h]
  cases hread : job.source.read Machine.host m with
  | mk result m' =>
    rw [hread] at hfiles
    cases result with
    | error failure =>
      rw [← hfiles]
    | ok text =>
      simp only
      cases job.action.output doc text with
      | error failure => rw [← hfiles]
      | ok result =>
        simp only [← hfiles]
        exact deliver_hostWith job.target? result

/-- A request is answered alike if what it may read of the input is at hand. -/
theorem Request.run_hostWith (doc : Doc) {request : Request}
    (h : request.takesInput = true → m.input = text) :
    request.run (Machine.hostWith text) doc ⟨m.files, input⟩ =
      ((request.run Machine.host doc m).1, ⟨(request.run Machine.host doc m).2.files, input⟩) := by
  rw [takesInput] at h
  rw [run_host, run_host]
  cases hjob : request.job with
  | error failure => rfl
  | ok job =>
    rw [hjob] at h
    have hsource : job.source = .input → m.input = text := fun hinput => h (beq_iff_eq.mpr hinput)
    simp only [Job.run_hostWith doc hsource]

namespace Batch

/-- A command that is alone at work is run to its end, and its row is printed. -/
theorem run_answer {b : Batch} {p : Pending Row} (running : b.running = [p]) :
    Run b { b with
      machine := (p.runOn Machine.host b.machine).2
      running := []
      rows := b.rows ++ [(p.runOn Machine.host b.machine).1] } := by
  induction p using Pending.wellFounded_next.induction generalizing b with
  | h p ih =>
    cases hact : p.act? b.machine with
    | none =>
      obtain ⟨row, rfl⟩ := Pending.act?_eq_none hact
      exact .single (@Step.print b [] [] row running)
    | some acted =>
      obtain ⟨p', machine⟩ := acted
      have hrest := @ih p' (Pending.next_act hact) { b with machine, running := [p'] } rfl
      simp only [Pending.runOn_act hact] at hrest
      exact .head (@Step.act b [] [] p p' machine running hact) hrest

end Batch

/-- The answers to the requests of a plan, one after another; their documents are numbered. -/
def Plan.answers (plan : Plan) (number : Nat) : StateM Machine (List Row) :=
  (plan.requests.zipIdx number).mapM fun (request, number) =>
    request.run (Machine.hostWith plan.leftover) (Doc.ofNat number)

theorem Machine.run_batch (m : Machine) : Machine.run ["batch"] m =
    (⟨"", ((Plan.ofInput m.input).answers 1 ⟨m.files, ""⟩).1, (Plan.ofInput m.input).failure?⟩,
      ((Plan.ofInput m.input).answers 1 ⟨m.files, ""⟩).2) := rfl

theorem Plan.answers_cons {request : Request} {requests : List Request} {leftover : String}
    {failure? : Option Failure} {number : Nat} {row : Row} {m m' : Machine}
    (h : request.run (Machine.hostWith leftover) (Doc.ofNat number) m = (row, m')) :
    answers ⟨request :: requests, leftover, failure?⟩ number m =
      (row :: (answers ⟨requests, leftover, failure?⟩ (number + 1) m').1,
        (answers ⟨requests, leftover, failure?⟩ (number + 1) m').2) := by
  rw [answers, List.zipIdx_cons, List.mapM_cons]
  simp only [bind, StateT.bind, h]
  rfl

/-- The lines behind that of a request that are left when it is answered. -/
def Request.leaves (request : Request) (rest : List String) : List String :=
  if request.takesInput then [] else rest

/-- The first request of a plan is answered as on the machine that has read its line, and the plan
goes on with the lines that the request leaves. -/
theorem Plan.answers_ofLines {line : String} {rest : List String} {request : Request} {number : Nat}
    {files : Files} {row : Row} {m : Machine} (notBlank : ¬ Text.isAllBlank line = true)
    (hrequest : Request.ofLine line = .ok request)
    (hrun : request.run Machine.host (Doc.ofNat number) ⟨files, String.join rest⟩ = (row, m)) :
    (ofLines (line :: rest)).failure? = (ofLines (request.leaves rest)).failure? ∧
      (ofLines (line :: rest)).answers number ⟨files, ""⟩ =
        (row :: ((ofLines (request.leaves rest)).answers (number + 1) ⟨m.files, ""⟩).1,
          ((ofLines (request.leaves rest)).answers (number + 1) ⟨m.files, ""⟩).2) := by
  have hwith : ∀ text, (request.takesInput = true → String.join rest = text) →
      request.run (Machine.hostWith text) (Doc.ofNat number) ⟨files, ""⟩ =
        (row, ⟨m.files, ""⟩) := by
    intro text htext
    have heq := @Request.run_hostWith ⟨files, String.join rest⟩ text "" (Doc.ofNat number) request htext
    rw [hrun] at heq
    exact heq
  rw [ofLines, if_neg notBlank, hrequest, Request.leaves]
  simp only
  cases htakes : request.takesInput with
  | true =>
    refine ⟨rfl, ?_⟩
    exact answers_cons (hwith _ fun _ => rfl)
  | false =>
    refine ⟨rfl, ?_⟩
    exact answers_cons (hwith _ fun h => absurd (htakes.symm.trans h) Bool.false_ne_true)

namespace Batch

theorem StopsAt.ofLines {lines : List String} {failure? : Option Failure}
    (h : StopsAt lines failure?) : Plan.ofLines lines = { failure? } := by
  cases h with
  | atEnd => rfl
  | blank blank => rw [Plan.ofLines, if_pos blank]
  | refused notBlank refused =>
    rw [Plan.ofLines, if_neg (ne_true_of_eq_false notBlank), refused]

/-- A batch that is over, and that holds what the plan comes to of the lines that another had
left. -/
structure Ended (b last : Batch) : Prop where
  isOver : last.Over
  failure? : last.failure? = (Plan.ofInput b.machine.input).failure?
  rows : last.rows =
    b.rows ++ ((Plan.ofInput b.machine.input).answers (b.taken + 1) ⟨b.machine.files, ""⟩).1
  files : last.machine.files =
    ((Plan.ofInput b.machine.input).answers (b.taken + 1) ⟨b.machine.files, ""⟩).2.files

/-- The next line is read, and its request is answered before anything else is done. -/
theorem run_request {b : Batch} {rest : List String} {request : Request} {row : Row}
    {answered : Machine} (reading : b.ending? = none) (idle : b.running = [])
    (hread : b.readLine = b.takeIn request rest)
    (hrun : request.run Machine.host (Doc.ofNat (b.taken + 1)) ⟨b.machine.files, String.join rest⟩ =
      (row, answered)) :
    Run b { b with
      machine := answered, running := [], rows := b.rows ++ [row], taken := b.taken + 1 } := by
  have hstep : Step b b.readLine := .read reading
  rw [hread] at hstep
  have hworks : (b.takeIn request rest).running =
      [request.run Pending.host (Doc.ofNat (b.taken + 1))] := by
    rw [takeIn, idle, List.nil_append]
  have hmachine : (b.takeIn request rest).machine = ⟨b.machine.files, String.join rest⟩ := rfl
  have hanswer := run_answer hworks
  rw [Request.runOn_run, hmachine, hrun] at hanswer
  exact .head hstep hanswer

/-- A batch that answers each request before it reads on comes to what the plan comes to. -/
theorem exists_ended {b : Batch} (reading : b.ending? = none) (idle : b.running = []) :
    ∃ last, Run b last ∧ Ended b last := by
  induction hlength : (Plan.lines b.machine.input).length using Nat.strong_induction_on
    generalizing b with
  | h n ih =>
    rcases b.readLine_cases with ⟨failure?, input, hstops, hread⟩ |
      ⟨line, rest, request, hlines, hblank, hrequest, hread⟩
    · have hplan : Plan.ofInput b.machine.input = { failure? } := hstops.ofLines
      refine ⟨b.readLine, .single (.read reading), ?_⟩
      rw [hread]
      constructor
      · exact ⟨rfl, idle⟩
      · rw [hplan]
        rfl
      · rw [hplan]
        exact (List.append_nil _).symm
      · rw [hplan]
        rfl
    · cases hrun : request.run Machine.host (Doc.ofNat (b.taken + 1))
          ⟨b.machine.files, String.join rest⟩ with
      | mk row answered =>
        have hinput := request.input_run ⟨b.machine.files, String.join rest⟩ (Doc.ofNat (b.taken + 1))
        rw [hrun] at hinput
        have hleaves : Plan.lines answered.input = request.leaves rest := by
          rw [hinput, Request.leaves]
          split
          · rfl
          · exact Plan.lines_rest hlines
        have hshorter : (request.leaves rest).length < n := by
          rw [← hlength, hlines, List.length_cons, Request.leaves]
          split
          · exact Nat.succ_pos _
          · exact Nat.lt_succ_self _
        have hplan : Plan.ofInput b.machine.input = Plan.ofLines (line :: rest) :=
          congrArg Plan.ofLines hlines
        have hnext : Plan.ofInput answered.input = Plan.ofLines (request.leaves rest) :=
          congrArg Plan.ofLines hleaves
        obtain ⟨hfailure, hanswers⟩ :=
          Plan.answers_ofLines (ne_true_of_eq_false hblank) hrequest hrun
        -- the batch goes on from here with the lines that the request leaves
        obtain ⟨last, hlast, hended⟩ := @ih _ hshorter
          { b with machine := answered, running := [], rows := b.rows ++ [row], taken := b.taken + 1 }
          reading rfl (congrArg List.length hleaves)
        refine ⟨last, (run_request reading idle hread hrun).trans hlast, hended.isOver, ?_, ?_, ?_⟩
        · rw [hended.failure?, hplan, hfailure, hnext]
        · rw [hended.rows, hplan, hanswers, hnext, List.append_assoc]
          rfl
        · rw [hended.files, hplan, hanswers, hnext]

/-- What comes of a batch in turn is what comes of a batch in one of the orders of its steps. -/
theorem run_inTurn (m : Machine) : ∃ b, Run (start m) b ∧ b.Over ∧
    b.outcome = (Machine.run ["batch"] m).1 ∧
    b.machine.files = (Machine.run ["batch"] m).2.files := by
  obtain ⟨b, hrun, hended⟩ := @exists_ended (start m) rfl rfl
  refine ⟨b, hrun, hended.isOver, ?_, ?_⟩
  · rw [Machine.run_batch, outcome, hended.rows, hended.failure?]
    rfl
  · rw [Machine.run_batch, hended.files]
    rfl

end Batch

end DeclVisibility.CommandLine
