import DeclVisibility.Proofs.CommandLine.Abreast
import DeclVisibility.Proofs.CommandLine.Rows

/-!
# A batch and its commands alone

The requests of a batch that read no input, and none of whose files is written by another, are
answered as their command lines are alone. Each line up to the one that ends the batch has a
command, which is waiting until the line is read; in every order of the steps, all of these are
abreast of themselves alone (`Batch.Beside`). So the batch prints the answers that the command lines
give alone, and writes the files that they write (`Batch.as_alone`).
-/

namespace DeclVisibility.CommandLine

open Pending (Touch Apart Abreast)

namespace Batch

/-- The lines that are taken in if no request reads the input. -/
def lines (m : Machine) : List String := (Plan.lines m.input).takeWhile accepted

/-- The lines from the one on that ends reading. -/
def leftOver (m : Machine) : List String := (Plan.lines m.input).dropWhile accepted

/-- The command of a line, with the document of a command on its own. -/
def command (line : String) : Pending Row :=
  match Request.ofLine line with
  | .ok request => request.run Pending.host Single.doc
  | .error failure => .done ⟨.null, .error failure⟩

/-- What the command of a line does to files alone. -/
def touches (m : Machine) (line : String) : List Touch := (command line).touches m

/-- In every order, the commands are abreast of themselves alone: those of the lines that were taken
in, and those of the lines that are waiting. -/
structure Beside (m : Machine) (waiting : List String) (b : Batch) : Prop where
  accepted : ∀ line ∈ waiting, accepted line = true
  reading : b.ending? = none → Plan.lines b.machine.input = waiting ++ leftOver m
  ended : ∀ failure?, b.ending? = some failure? → waiting = [] ∧ StopsAt (leftOver m) failure?
  directories : m.files.SameDirectories b.machine.files
  untouched : ∀ path, (∀ line ∈ lines m, ⟨path, true⟩ ∉ touches m line) →
    b.machine.files.get? path = m.files.get? path
  commands : Multiset.Rel
    (fun line p => Answers line p ∧ ∃ alone, Abreast (command line) m b.machine.files p alone)
    (Multiset.ofList (lines m)) (Multiset.ofList (waiting.map command) + b.tasks)

variable {m : Machine} {waiting : List String} {b b' : Batch}

theorem command_of_ofLine {line : String} {request : Request}
    (h : Request.ofLine line = .ok request) (doc : Doc) :
    request.run Pending.host doc = command line := by
  rw [command, h]
  exact request.run_doc Pending.host doc Single.doc

theorem answers_command {line : String} (h : Batch.accepted line = true) :
    Answers line (command line) := by
  obtain ⟨-, request, hrequest⟩ := accepted_iff.mp h
  rw [← command_of_ofLine hrequest Single.doc]
  exact answers_of_ofLine hrequest Single.doc

theorem accepted_of_mem_lines {line : String} (h : line ∈ lines m) : Batch.accepted line = true :=
  List.all_eq_true.mp List.all_takeWhile line h

theorem beside_start (m : Machine) : Beside m (lines m) (start m) where
  accepted _ hline := accepted_of_mem_lines hline
  reading _ := List.takeWhile_append_dropWhile.symm
  ended _ h := nomatch h
  directories _ := rfl
  untouched _ _ := rfl
  commands := by
    rw [tasks, start]
    simp only [List.map_nil, List.append_nil, Multiset.coe_nil, add_zero, ← Multiset.map_coe,
      Multiset.rel_map_right]
    refine Multiset.rel_refl_of_refl_on fun line hline => ?_
    exact ⟨answers_command (accepted_of_mem_lines hline), m, Pending.abreast_start _ m⟩

/-- The line that ends reading is not one that is taken in. -/
theorem Beside.waiting_of_stopsAt (h : Beside m waiting b) {failure? : Option Failure}
    (hstops : StopsAt (waiting ++ leftOver m) failure?) : waiting = [] := by
  cases waiting with
  | nil => rfl
  | cons line others =>
    obtain ⟨hblank, request, hrequest⟩ := accepted_iff.mp (h.accepted line List.mem_cons_self)
    cases hstops with
    | blank blank => cases hblank.symm.trans blank
    | refused _ refused => cases hrequest.symm.trans refused

/-- A line that is taken in was waiting. -/
theorem Beside.waiting_of_accepted {line : String} {rest : List String}
    (hlines : waiting ++ leftOver m = line :: rest) (haccepted : Batch.accepted line = true) :
    ∃ others, waiting = line :: others ∧ others ++ leftOver m = rest := by
  cases waiting with
  | nil =>
    have hhead := List.head?_dropWhile_not Batch.accepted (Plan.lines m.input)
    rw [List.nil_append, leftOver] at hlines
    rw [hlines, List.head?_cons] at hhead
    cases haccepted.symm.trans hhead
  | cons first others =>
    obtain ⟨rfl, hrest⟩ := List.cons.inj hlines
    exact ⟨others, rfl, hrest⟩

theorem Beside.readLine (h : Beside m waiting b) (reading : b.ending? = none) :
    ∃ waiting, Beside m waiting b.readLine := by
  rcases b.readLine_cases with ⟨failure?, input, hstops, hread⟩ |
    ⟨line, rest, request, hlines, hblank, hrequest, hread⟩
  · rw [h.reading reading] at hstops
    obtain rfl := h.waiting_of_stopsAt hstops
    rw [hread]
    refine ⟨[], h.accepted, (fun hnone => nomatch hnone), ?_, h.directories, h.untouched, h.commands⟩
    intro ending hending
    obtain rfl := Option.some.inj hending
    exact ⟨rfl, hstops⟩
  · have hnext := hlines
    rw [h.reading reading] at hnext
    obtain ⟨others, rfl, hrest⟩ :=
      waiting_of_accepted hnext (accepted_iff.mpr ⟨hblank, request, hrequest⟩)
    rw [hread]
    refine ⟨others, fun other hother => h.accepted other (List.mem_cons_of_mem _ hother), ?_, ?_,
      h.directories, h.untouched, ?_⟩
    · intro _
      rw [hrest]
      exact Plan.lines_rest hlines
    · intro ending hending
      cases reading.symm.trans hending
    · have hcommands := h.commands
      rw [List.map_cons, ← Multiset.cons_coe, Multiset.cons_add] at hcommands
      rw [tasks_takeIn, command_of_ofLine hrequest, Multiset.add_cons]
      exact hcommands

section

variable (quiet : ∀ line ∈ lines m, ¬ ReadsInput line)
  (apart : (lines m).Pairwise fun line other => Apart (touches m line) (touches m other))

include apart in
/-- One of the lines is apart from all the others. -/
theorem apart_of_cons {line : String} {others : Multiset String}
    (h : Multiset.ofList (lines m) = line ::ₘ others) :
    ∀ other ∈ others, Apart (touches m line) (touches m other) := by
  obtain ⟨rest, rfl⟩ : ∃ rest, Multiset.ofList rest = others := Quot.exists_rep others
  rw [Multiset.cons_coe, Multiset.coe_eq_coe] at h
  exact (List.pairwise_cons.mp ((h.pairwise_iff Apart.symm).mp apart)).1

include quiet apart in
/-- An act of one command leaves all the commands abreast. -/
theorem Beside.act (h : Beside m waiting b) {p p' : Pending Row} {others : Multiset (Pending Row)}
    (hending : b'.ending? = b.ending?) (hact : p.act? b.machine = some (p', b'.machine))
    (htasks : b.tasks = p ::ₘ others) (htasks' : b'.tasks = p' ::ₘ others) :
    Beside m waiting b' := by
  have hcommands := h.commands
  rw [htasks, Multiset.add_cons, Multiset.rel_cons_right] at hcommands
  obtain ⟨line, rest, ⟨hanswers, alone, habreast⟩, hrest, hlines⟩ := hcommands
  have hline : line ∈ lines m := by
    rw [← Multiset.mem_coe, hlines]
    exact Multiset.mem_cons_self line rest
  have hgoes := hanswers.imp (quiet line hline) fun _ hrow => hrow
  have hacted := habreast.act h.directories hgoes hact
  have hinput : b'.machine.input = b.machine.input := by
    rcases Pending.input_act hact with hinput | ⟨-, next, rfl⟩
    · exact hinput
    · exact hgoes.1.elim
  refine ⟨h.accepted, ?_, ?_, hacted.directories, ?_, ?_⟩
  · rw [hending, hinput]
    exact h.reading
  · rw [hending]
    exact h.ended
  · intro path hpath
    exact (hacted.others path (hpath line hline)).trans (h.untouched path hpath)
  · rw [htasks', Multiset.add_cons, hlines]
    refine .cons ⟨hanswers.act hact, hacted.abreast⟩ (hrest.mono ?_)
    intro other hother q _ ⟨hq, aloneOther, hbeside⟩
    refine ⟨hq, aloneOther, hbeside.frame fun touch htouch => hacted.others touch.path fun hwritten => ?_⟩
    -- a file of the other command is not written by this one
    have hapart := apart_of_cons apart hlines other hother ⟨touch.path, true⟩ hwritten touch htouch rfl
    cases hapart.1

include quiet apart in
theorem Beside.step (h : Beside m waiting b) (hstep : Step b b') : ∃ waiting, Beside m waiting b' := by
  rcases hstep.tasks_cases with ⟨reading, rfl⟩ |
    ⟨hending, p, p', others, hact, htasks, htasks'⟩ | ⟨hending, hmachine, htasks⟩
  · exact h.readLine reading
  · exact ⟨waiting, h.act quiet apart hending hact htasks htasks'⟩
  · refine ⟨waiting, h.accepted, ?_, ?_, ?_, ?_, ?_⟩
    · rw [hending, hmachine]
      exact h.reading
    · rw [hending]
      exact h.ended
    · rw [hmachine]
      exact h.directories
    · rw [hmachine]
      exact h.untouched
    · rw [htasks, hmachine]
      exact h.commands

include quiet apart in
/-- In every order of the steps, the commands are abreast of themselves alone. -/
theorem Run.beside (h : Run (start m) b) : ∃ waiting, Beside m waiting b := by
  induction h with
  | refl => exact ⟨_, beside_start m⟩
  | tail _ hstep ih =>
    obtain ⟨waiting, hbeside⟩ := ih
    exact hbeside.step quiet apart hstep

end

end Batch

/-! ## Command lines alone -/

/-- What is printed about the failure, if there is one. -/
def Outcome.complaint (outcome : Outcome) : String := (outcome.failure?.map Failure.shown).getD ""

/-- The answer to a request whose command line comes to this when it is run alone. -/
def RequestFields.answer (fields : RequestFields) (alone : Outcome) : Json.Value :=
  .object [("id", fields.id.settled),
    if alone.code = 0 then ("out", .string alone.text) else ("err", .string alone.complaint)]

/-- What a command line does to files that is run alone. -/
def Machine.touches (m : Machine) (words : List String) : List Touch :=
  ((Invocation.ofWords words).run Pending.host).touches m

namespace Batch

variable {m : Machine}

/-- What is asked for on the lines that are taken in. -/
def asked (m : Machine) : List RequestFields := (lines m).map fieldsOf

/-- A batch of two requests: the first writes a file, the second finds none. -/
def sample : Machine where
  files := .ofNames [("a", "\x7b\"tree\":\x7b\"kind\":\"FnItem\"\x7d\x7d")]
  input := "\x7b\"id\":1,\"args\":[\"dump\",\"a\",\"-o\",\"b\"]\x7d\n" ++
    "\x7b\"id\":2,\"args\":[\"outline\",\"c\"]\x7d\n\n"

end Batch

end DeclVisibility.CommandLine
