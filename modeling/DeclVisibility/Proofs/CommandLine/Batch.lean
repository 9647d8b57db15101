import DeclVisibility.Proofs.CommandLine.Pending
import DeclVisibility.Proofs.Text.Lines
import Mathlib.Logic.Hydra

/-!
# A batch at work

A batch reads on while it answers the requests that it has taken in, and prints a row whenever an
answer is complete. So its steps come in many orders: the next line is read, one of the requests
does its next act, or one that is done has its row printed (`Batch.Step`). A file is read or written
in one act, and so is what is left of the input.

A batch is over when reading has ended and every row is printed. Each step leaves less to read, or
as much to read and less to answer (`Batch.Step.less`), so in every order the batch goes on until it
is over (`Batch.exists_over`).
-/

namespace DeclVisibility.CommandLine

/-- A batch at work. -/
structure Batch where
  machine : Machine
  /-- The requests that are being answered. -/
  running : List (Pending Row) := []
  /-- The rows that were printed. -/
  rows : List Row := []
  /-- How many requests were taken in. -/
  taken : Nat := 0
  /-- How reading has ended, with a failure or without. -/
  ending? : Option (Option Failure) := none

namespace Batch

open scoped List

/-- A batch that has read nothing yet. -/
def start (machine : Machine) : Batch := { machine }

/-- Takes a request in, whose line stands before the rest of the input. -/
def takeIn (b : Batch) (request : Request) (rest : List String) : Batch :=
  { b with
    machine.input := String.join rest
    running := b.running ++ [request.run Pending.host (Doc.ofNat (b.taken + 1))]
    taken := b.taken + 1 }

/-- Reads a line. At the end of the input there is none, and the batch ends as with a blank one. -/
def readLine (b : Batch) : Batch :=
  match Plan.lines b.machine.input with
  | [] => { b with ending? := some none }
  | line :: rest =>
    if Text.isAllBlank line then
      { b with machine.input := String.join rest, ending? := some none }
    else
      match Request.ofLine line with
      | .error failure =>
        { b with machine.input := String.join rest, ending? := some (some failure) }
      | .ok request => b.takeIn request rest

/-- What can come next. -/
inductive Step : Batch → Batch → Prop
  | read {b : Batch} (reading : b.ending? = none) : Step b b.readLine
  | act {b : Batch} {before after : List (Pending Row)} {p p' : Pending Row} {machine : Machine}
    (running : b.running = before ++ p :: after) (act : p.act? b.machine = some (p', machine)) :
    Step b { b with machine, running := before ++ p' :: after }
  | print {b : Batch} {before after : List (Pending Row)} {row : Row}
    (running : b.running = before ++ .done row :: after) :
    Step b { b with running := before ++ after, rows := b.rows ++ [row] }

/-- Steps in some order. -/
abbrev Run : Batch → Batch → Prop := Relation.ReflTransGen Step

/-- Reading has ended, and every request is answered. -/
def Over (b : Batch) : Prop := b.ending?.isSome ∧ b.running = []

/-- Why the batch fails, if it does. -/
def failure? (b : Batch) : Option Failure := b.ending?.join

/-- What comes of the batch, the files written apart. -/
def outcome (b : Batch) : Outcome := { rows := b.rows, failure? := b.failure? }

/-! ## Reading a line -/

/-- How reading ends at the line that comes next, if it does. -/
inductive StopsAt : List String → Option Failure → Prop
  | atEnd : StopsAt [] none
  | blank {line : String} {rest : List String} (blank : Text.isAllBlank line = true) :
    StopsAt (line :: rest) none
  | refused {line : String} {rest : List String} {failure : Failure}
    (notBlank : Text.isAllBlank line = false) (refused : Request.ofLine line = .error failure) :
    StopsAt (line :: rest) (some failure)

/-- A line ends reading, or its request is taken in. -/
theorem readLine_cases (b : Batch) :
    (∃ failure? input, StopsAt (Plan.lines b.machine.input) failure? ∧
      b.readLine = { b with machine.input := input, ending? := some failure? }) ∨
    ∃ line rest request, Plan.lines b.machine.input = line :: rest ∧
      Text.isAllBlank line = false ∧ Request.ofLine line = .ok request ∧
      b.readLine = b.takeIn request rest := by
  rw [readLine]
  cases hlines : Plan.lines b.machine.input with
  | nil => exact .inl ⟨none, b.machine.input, .atEnd, rfl⟩
  | cons line rest =>
    simp only
    cases hblank : Text.isAllBlank line with
    | true => exact .inl ⟨none, String.join rest, .blank hblank, rfl⟩
    | false =>
      rw [if_neg Bool.false_ne_true]
      cases hrequest : Request.ofLine line with
      | error failure => exact .inl ⟨some failure, String.join rest, .refused hblank hrequest, rfl⟩
      | ok request => exact .inr ⟨line, rest, request, rfl, hblank, hrequest, rfl⟩

/-! ## The commands of a batch -/

/-- Wherever a command stands, it is one, and the others are the rest. -/
theorem ofList_middle (p : Pending Row) (before after : List (Pending Row)) :
    Multiset.ofList (before ++ p :: after) = p ::ₘ Multiset.ofList (before ++ after) := by
  rw [Multiset.cons_coe, Multiset.coe_eq_coe]
  exact List.perm_middle

/-- The commands of the requests that were taken in, those whose row is printed too. -/
def tasks (b : Batch) : Multiset (Pending Row) :=
  Multiset.ofList (b.running ++ b.rows.map .done)

theorem tasks_takeIn (b : Batch) (request : Request) (rest : List String) :
    (b.takeIn request rest).tasks =
      request.run Pending.host (Doc.ofNat (b.taken + 1)) ::ₘ b.tasks := by
  rw [tasks, tasks, Multiset.cons_coe, Multiset.coe_eq_coe, takeIn, List.append_assoc]
  exact List.perm_middle

/-- A step reads a line, or one of the commands acts. Printing a row leaves the commands as they
are. -/
theorem Step.tasks_cases {b b' : Batch} (h : Step b b') :
    (b.ending? = none ∧ b' = b.readLine) ∨
    (b'.ending? = b.ending? ∧ ∃ p p' others, p.act? b.machine = some (p', b'.machine) ∧
      b.tasks = p ::ₘ others ∧ b'.tasks = p' ::ₘ others) ∨
    (b'.ending? = b.ending? ∧ b'.machine = b.machine ∧ b'.tasks = b.tasks) := by
  cases h with
  | read reading => exact .inl ⟨reading, rfl⟩
  | @act before after p p' machine running hact =>
    refine .inr (.inl ⟨rfl, p, p', Multiset.ofList (before ++ (after ++ b.rows.map .done)), hact, ?_, ?_⟩)
    · rw [tasks, running, List.append_assoc, List.cons_append, ofList_middle]
    · rw [tasks, List.append_assoc, List.cons_append, ofList_middle]
  | @print before after row running =>
    refine .inr (.inr ⟨rfl, rfl, ?_⟩)
    rw [tasks, tasks, running, Multiset.coe_eq_coe, List.map_append, List.map_singleton,
      ← List.append_assoc]
    -- the row goes from its place among the commands at work to the end
    calc before ++ after ++ b.rows.map .done ++ [.done row]
      _ ~ .done row :: (before ++ after ++ b.rows.map .done) := List.perm_append_singleton _ _
      _ = .done row :: (before ++ (after ++ b.rows.map .done)) := by rw [List.append_assoc]
      _ ~ before ++ .done row :: (after ++ b.rows.map .done) := List.perm_middle.symm
      _ = before ++ .done row :: after ++ b.rows.map .done := by
        rw [List.append_assoc, List.cons_append]

/-! ## Every order comes to an end -/

/-- How many lines may still be read; the end of the input counts as one. -/
def unread (b : Batch) : Nat :=
  if b.ending?.isSome then 0 else (Plan.lines b.machine.input).length + 1

/-- What is left to do: to read, and to answer. -/
def left (b : Batch) : Nat × Multiset (Pending Row) := (b.unread, b.running)

/-- Less is left to read, or as much to read and less to answer. -/
def Less : Nat × Multiset (Pending Row) → Nat × Multiset (Pending Row) → Prop :=
  Prod.Lex (· < ·) (Relation.CutExpand Pending.Next)

theorem unread_readLine {b : Batch} (reading : b.ending? = none) : b.readLine.unread < b.unread := by
  have hunread : b.unread = (Plan.lines b.machine.input).length + 1 := by
    rw [unread, reading]
    rfl
  rcases b.readLine_cases with ⟨failure?, input, -, hread⟩ | ⟨line, rest, request, hlines, -, -, hread⟩
  · rw [hread, hunread]
    exact Nat.succ_pos _
  · have hrest : (b.takeIn request rest).unread = rest.length + 1 := by
      rw [unread, takeIn, reading]
      simp only [Option.isSome_none, Bool.false_eq_true, if_false, Plan.lines_rest hlines]
    rw [hread, hunread, hrest, hlines, List.length_cons]
    omega

/-- An act changes nothing about what is left to read, or it takes all of it. -/
theorem unread_act {b : Batch} {p p' : Pending Row} {machine : Machine}
    (hact : p.act? b.machine = some (p', machine)) (running : List (Pending Row)) :
    { b with machine, running : Batch }.unread ≤ b.unread := by
  rw [unread, unread]
  cases b.ending?.isSome with
  | true => exact Nat.le_refl _
  | false =>
    rcases Pending.input_act hact with hinput | ⟨hinput, -⟩
    · exact Nat.le_of_eq (by rw [hinput])
    · simp only [hinput]
      exact Nat.succ_le_succ (Nat.zero_le _)

theorem Step.less {b b' : Batch} (h : Step b b') : Less b'.left b.left := by
  cases h with
  | read reading => exact .left _ _ (unread_readLine reading)
  | @act before after p p' machine running hact =>
    have hcut : Relation.CutExpand Pending.Next (p' ::ₘ Multiset.ofList (before ++ after))
        (p ::ₘ Multiset.ofList (before ++ after)) := by
      refine ⟨{p'}, p, ?_, ?_⟩
      · intro q hq
        rw [Multiset.mem_singleton.mp hq]
        exact Pending.next_act hact
      · rw [← Multiset.singleton_add, ← Multiset.singleton_add]
        ac_rfl
    rw [← ofList_middle, ← ofList_middle, ← running] at hcut
    rcases (unread_act hact (before ++ p' :: after)).lt_or_eq with hlt | heq
    · exact .left _ _ hlt
    · rw [left, heq]
      exact .right _ hcut
  | @print before after row running =>
    have hcut : Relation.CutExpand Pending.Next (Multiset.ofList (before ++ after))
        (.done row ::ₘ Multiset.ofList (before ++ after)) := by
      refine ⟨0, .done row, fun q hq => absurd hq (Multiset.notMem_zero q), ?_⟩
      rw [← Multiset.singleton_add]
      ac_rfl
    rw [← ofList_middle, ← running] at hcut
    exact .right _ hcut

/-- No batch goes on for ever. -/
theorem wellFounded_step : WellFounded fun b' b => Step b b' := by
  have hless : WellFounded Less :=
    WellFounded.prod_lex wellFounded_lt Pending.wellFounded_next.cutExpand
  exact (InvImage.wf left hless).mono fun _ _ h => h.less

/-- A batch that is not over has a next step. -/
theorem exists_step {b : Batch} (h : ¬ b.Over) : ∃ b', Step b b' := by
  by_cases hreading : b.ending? = none
  · exact ⟨_, .read hreading⟩
  · cases hrunning : b.running with
    | nil => exact absurd ⟨Option.isSome_iff_ne_none.mpr hreading, hrunning⟩ h
    | cons p after =>
      cases hact : p.act? b.machine with
      | none =>
        obtain ⟨row, rfl⟩ := Pending.act?_eq_none hact
        exact ⟨_, @Step.print b [] after row hrunning⟩
      | some acted => exact ⟨_, @Step.act b [] after p acted.1 acted.2 hrunning hact⟩

/-- Whatever has been done so far, the batch goes on until it is over. -/
theorem exists_over (b : Batch) : ∃ b', Run b b' ∧ b'.Over := by
  induction b using wellFounded_step.induction with
  | h b ih =>
    by_cases hover : b.Over
    · exact ⟨b, .refl, hover⟩
    · obtain ⟨next, hstep⟩ := exists_step hover
      obtain ⟨last, hrun, hlast⟩ := ih next hstep
      exact ⟨last, .head hstep hrun, hlast⟩

end Batch

end DeclVisibility.CommandLine
