import DeclVisibility.Proofs.CommandLine.Jobs

/-!
# Commands held at their next act

A command of a batch works while others do, so it has to be stopped between its acts. A pending
command is the next act, with what comes after each answer to it (`Pending`). Pending commands are a
host, so a job can be held back as it stands (`Pending.host`), and a request that was held back and
is then run to the end on any host is the request run on that host (`Request.runOn_run`).

What a command does to files is read off the acts that it does alone (`Pending.touches`). A request
ends with a row of its own id, and it meets no fault but a position that cannot be written, whatever
answers it gets (`Request.goes_run`).
-/

namespace DeclVisibility.CommandLine

/-- A command at its next act, with what comes after each answer. -/
inductive Pending (α : Type) where
  | done (a : α)
  | readFile (name : String) (next : Option String → Pending α)
  | writeFile (name text : String) (next : Bool → Pending α)
  | readInput (next : String → Pending α)

namespace Pending

variable {α β : Type}

/-- One command after another. -/
def andThen : Pending α → (α → Pending β) → Pending β
  | done a, after => after a
  | readFile name next, after => readFile name fun text? => (next text?).andThen after
  | writeFile name text next, after => writeFile name text fun written => (next written).andThen after
  | readInput next, after => readInput fun text => (next text).andThen after

instance : Monad Pending where
  pure := done
  bind := andThen

/-- The host that holds every act back. -/
def host : Host Pending where
  readFile name := readFile name done
  writeFile name text := writeFile name text done
  readInput := readInput done

/-! ## Running to the end -/

section

variable {m : Type → Type} [Monad m]

/-- Does all the acts on a host. -/
def runOn (host : Host m) : Pending α → m α
  | done a => pure a
  | readFile name next => do
    let text? ← host.readFile name
    (next text?).runOn host
  | writeFile name text next => do
    let written ← host.writeFile name text
    (next written).runOn host
  | readInput next => do
    let text ← host.readInput
    (next text).runOn host

variable [LawfulMonad m] (host : Host m)

theorem runOn_bind (p : Pending α) (after : α → Pending β) :
    (p >>= after).runOn host = p.runOn host >>= fun a => (after a).runOn host := by
  change (p.andThen after).runOn host = _
  induction p with
  | done a => rw [andThen, runOn, pure_bind]
  | readFile name next ih => simp only [andThen, runOn, ih, bind_assoc]
  | writeFile name text next ih => simp only [andThen, runOn, ih, bind_assoc]
  | readInput next ih => simp only [andThen, runOn, ih, bind_assoc]

end

end Pending

section

variable {m : Type → Type} [Monad m] [LawfulMonad m] (host : Host m)

theorem Source.runOn_read (source : Source) :
    (source.read Pending.host).runOn host = source.read host := by
  cases source with
  | input => rfl
  | file name =>
    rw [Source.read, Source.read, Pending.runOn_bind]
    simp only [Pending.host, Pending.runOn, bind_pure]
    congr 1
    funext text?
    cases text? <;> rfl

theorem runOn_deliver (target? : Option String) (result : String) :
    (deliver Pending.host target? result).runOn host = deliver host target? result := by
  cases target? with
  | none => rfl
  | some name =>
    rw [deliver, deliver, Pending.runOn_bind]
    simp only [Pending.host, Pending.runOn, bind_pure]
    congr 1
    funext written
    cases written <;> rfl

theorem Job.runOn_run (doc : Doc) (job : Job) :
    (job.run Pending.host doc).runOn host = job.run host doc := by
  rw [Job.run, Job.run, Pending.runOn_bind, Source.runOn_read]
  congr 1
  funext result
  cases result with
  | error failure => rfl
  | ok text =>
    simp only
    cases job.action.output doc text with
    | error failure => rfl
    | ok result => exact runOn_deliver host job.target? result

theorem Request.runOn_run (doc : Doc) (request : Request) :
    (request.run Pending.host doc).runOn host = request.run host doc := by
  rw [Request.run, Request.run]
  cases request.job with
  | error failure => rfl
  | ok job =>
    rw [Pending.runOn_bind, Job.runOn_run]
    rfl

end

namespace Pending

variable {α β : Type} {p p' : Pending α} {m m' : Machine}

/-! ## Acting on a machine -/

/-- Does the next act on a machine, if there is one. -/
def act? : Pending α → Machine → Option (Pending α × Machine)
  | done _, _ => none
  | readFile name next, m => some (Prod.map next id (Machine.host.readFile name m))
  | writeFile name text next, m => some (Prod.map next id (Machine.host.writeFile name text m))
  | readInput next, m => some (Prod.map next id (Machine.host.readInput m))

/-- What an act can be: a file is read, a file is written or can't be written, or the input is
read. -/
theorem act_cases (h : p.act? m = some (p', m')) :
    (∃ name next, p = .readFile name next ∧ p' = next (m.files.read? name) ∧ m' = m) ∨
    (∃ name text next files, p = .writeFile name text next ∧
      m.files.write? name text = some files ∧ p' = next true ∧ m' = { m with files }) ∨
    (∃ name text next, p = .writeFile name text next ∧ m.files.write? name text = none ∧
      p' = next false ∧ m' = m) ∨
    ∃ next, p = .readInput next ∧ p' = next m.input ∧ m' = { m with input := "" } := by
  cases p with
  | done a => cases h
  | readFile name next =>
    obtain ⟨rfl, rfl⟩ := Prod.mk.inj (Option.some.inj h)
    exact .inl ⟨name, next, rfl, rfl, rfl⟩
  | writeFile name text next =>
    rw [act?, Machine.host] at h
    simp only at h
    split at h
    · rename_i files hfiles
      obtain ⟨rfl, rfl⟩ := Prod.mk.inj (Option.some.inj h)
      exact .inr (.inl ⟨name, text, next, files, rfl, hfiles, rfl, rfl⟩)
    · rename_i hfiles
      obtain ⟨rfl, rfl⟩ := Prod.mk.inj (Option.some.inj h)
      exact .inr (.inr (.inl ⟨name, text, next, rfl, hfiles, rfl, rfl⟩))
  | readInput next =>
    obtain ⟨rfl, rfl⟩ := Prod.mk.inj (Option.some.inj h)
    exact .inr (.inr (.inr ⟨next, rfl, rfl, rfl⟩))

/-- An act leaves the rest of the run to be done. -/
theorem runOn_act (h : p.act? m = some (p', m')) :
    p'.runOn Machine.host m' = p.runOn Machine.host m := by
  rcases act_cases h with ⟨name, next, rfl, rfl, rfl⟩ | ⟨name, text, next, files, rfl, hfiles, rfl, rfl⟩ |
    ⟨name, text, next, rfl, hfiles, rfl, rfl⟩ | ⟨next, rfl, rfl, rfl⟩
  · rfl
  · simp only [runOn, Machine.host, bind, StateT.bind, hfiles]
  · simp only [runOn, Machine.host, bind, StateT.bind, hfiles]
  · rfl

/-- An act leaves the input alone, or takes all of it. -/
theorem input_act (h : p.act? m = some (p', m')) :
    m'.input = m.input ∨ m'.input = "" ∧ ∃ next, p = .readInput next := by
  rcases act_cases h with ⟨_, _, -, -, rfl⟩ | ⟨_, _, _, _, -, -, -, rfl⟩ | ⟨_, _, _, -, -, -, rfl⟩ |
    ⟨next, rfl, -, rfl⟩
  · exact .inl rfl
  · exact .inl rfl
  · exact .inl rfl
  · exact .inr ⟨rfl, next, rfl⟩

/-- A command that is not done has an act. -/
theorem act?_eq_none (h : p.act? m = none) : ∃ a, p = done a := by
  cases p with
  | done a => exact ⟨a, rfl⟩
  | readFile _ _ => cases h
  | writeFile _ _ _ => cases h
  | readInput _ => cases h

/-- One command is what another comes to by its next act, on some answer. -/
inductive Next : Pending α → Pending α → Prop
  | readFile (name : String) (next : Option String → Pending α) (text? : Option String) :
    Next (next text?) (.readFile name next)
  | writeFile (name text : String) (next : Bool → Pending α) (written : Bool) :
    Next (next written) (.writeFile name text next)
  | readInput (next : String → Pending α) (text : String) : Next (next text) (.readInput next)

theorem next_act (h : p.act? m = some (p', m')) : Next p' p := by
  rcases act_cases h with ⟨name, next, rfl, rfl, -⟩ | ⟨name, text, next, files, rfl, -, rfl, -⟩ |
    ⟨name, text, next, rfl, -, rfl, -⟩ | ⟨next, rfl, rfl, -⟩
  · exact .readFile _ _ _
  · exact .writeFile _ _ _ _
  · exact .writeFile _ _ _ _
  · exact .readInput _ _

/-- No command goes on acting for ever. -/
theorem wellFounded_next : WellFounded (Next (α := α)) := by
  refine ⟨fun p => ?_⟩
  induction p with
  | done a => exact ⟨_, fun _ h => nomatch h⟩
  | readFile name next ih =>
    refine ⟨_, fun _ h => ?_⟩
    cases h
    exact ih _
  | writeFile name text next ih =>
    refine ⟨_, fun _ h => ?_⟩
    cases h
    exact ih _
  | readInput next ih =>
    refine ⟨_, fun _ h => ?_⟩
    cases h
    exact ih _

/-! ## Whatever the answers are -/

/-- Whatever answers the command gets, it ends well, and it reads the input only if it may. -/
def Goes (mayRead : Prop) (Good : α → Prop) : Pending α → Prop
  | done a => Good a
  | readFile _ next => ∀ text?, (next text?).Goes mayRead Good
  | writeFile _ _ next => ∀ written, (next written).Goes mayRead Good
  | readInput next => mayRead ∧ ∀ text, (next text).Goes mayRead Good

variable {mayRead : Prop} {Good : α → Prop}

theorem Goes.bind {Good' : β → Prop} {after : α → Pending β} (h : p.Goes mayRead Good)
    (hafter : ∀ a, Good a → (after a).Goes mayRead Good') : (p >>= after).Goes mayRead Good' := by
  change (p.andThen after).Goes mayRead Good'
  induction p with
  | done a => exact hafter a h
  | readFile name next ih => exact fun text? => ih text? (h text?)
  | writeFile name text next ih => exact fun written => ih written (h written)
  | readInput next ih => exact ⟨h.1, fun text => ih text (h.2 text)⟩

theorem Goes.imp {mayRead' : Prop} {Good' : α → Prop} (h : p.Goes mayRead Good)
    (hread : mayRead → mayRead') (hgood : ∀ a, Good a → Good' a) : p.Goes mayRead' Good' := by
  induction p with
  | done a => exact hgood a h
  | readFile name next ih => exact fun text? => ih text? (h text?)
  | writeFile name text next ih => exact fun written => ih written (h written)
  | readInput next ih => exact ⟨hread h.1, fun text => ih text (h.2 text)⟩

theorem Goes.act (h : p.Goes mayRead Good) (hact : p.act? m = some (p', m')) :
    p'.Goes mayRead Good := by
  cases next_act hact with
  | readFile name next text? => exact h text?
  | writeFile name text next written => exact h written
  | readInput next text => exact h.2 text

/-! ## The files of a command -/

/-- What a command does to a file: it writes it, or only reads it. A file that is missing is read in
vain, and that is a touch too. -/
structure Touch where
  path : Path
  written : Bool
  deriving DecidableEq, Repr

/-- What a command does to files that runs alone on a machine. -/
def touches : Pending α → Machine → List Touch
  | done _, _ => []
  | readFile name next, m =>
    (m.files.resolve? name).toList.map (⟨·, false⟩) ++ (next (m.files.read? name)).touches m
  | writeFile name text next, m =>
    match m.files.write? name text with
    | some files =>
      (m.files.resolve? name).toList.map (⟨·, true⟩) ++ (next true).touches { m with files }
    | none => (next false).touches m
  | readInput next, m => (next m.input).touches { m with input := "" }

end Pending

open Pending (Goes)

/-- If a result is a fault, then this is a position that cannot be written. -/
def OverflowsAtMost (result : Except Failure String) : Prop :=
  ∀ fault, result = .error (.fault fault) → fault = .positionOverflow

theorem Source.goes_read (source : Source) :
    (source.read Pending.host).Goes (source = .input) OverflowsAtMost := by
  cases source with
  | input => exact ⟨rfl, fun _ _ h => nomatch h⟩
  | file name =>
    intro text?
    cases text? <;> exact fun _ h => nomatch h

theorem goes_deliver (mayRead : Prop) (target? : Option String) (result : String) :
    (deliver Pending.host target? result).Goes mayRead OverflowsAtMost := by
  cases target? with
  | none => exact fun _ h => nomatch h
  | some name =>
    intro written
    cases written <;> exact fun _ h => nomatch h

theorem Job.goes_run (doc : Doc) (job : Job) :
    (job.run Pending.host doc).Goes (job.source = .input) OverflowsAtMost := by
  refine job.source.goes_read.bind fun result hresult => ?_
  cases result with
  | error failure => exact hresult
  | ok text =>
    simp only
    cases houtput : job.action.output doc text with
    | error failure =>
      intro fault h
      rw [Except.error.inj h] at houtput
      exact (Action.fault_of_output houtput).1
    | ok result => exact goes_deliver _ job.target? result

/-- A request ends with a row of its own id, and it meets no fault but a position that cannot be
written. It reads the input only if its source is the input. -/
theorem Request.goes_run (doc : Doc) {request : Request}
    (hjob : ∀ fault, request.job ≠ .error (.fault fault)) :
    (request.run Pending.host doc).Goes (request.takesInput = true)
      fun row => row.id = request.id ∧ OverflowsAtMost row.result := by
  rw [run, takesInput]
  cases h : request.job with
  | error failure =>
    rw [h] at hjob
    refine ⟨rfl, fun fault heq => absurd ?_ (hjob fault)⟩
    rw [Except.error.inj heq]
  | ok job =>
    simp only [beq_iff_eq]
    exact (job.goes_run doc).bind fun result hresult => ⟨rfl, hresult⟩

end DeclVisibility.CommandLine
