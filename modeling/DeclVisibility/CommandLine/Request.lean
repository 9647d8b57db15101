import DeclVisibility.CommandLine.Job

/-!
# Requests

A batch reads a request from each line of its input: a JSON record of an `id`, which may be
missing, and the `args` of a command line. A line that is no request ends the batch with a
failure, and so does a request for a subcommand that is not a task. A request whose command line
is faulty is answered like one that fails later.

The `plan` of a batch holds the requests up to the line that ends it. A request that reads
standard input takes all that is left of it, so none comes after it.
-/

namespace DeclVisibility.CommandLine

open Json

/-- One command of a batch. -/
structure Request where
  /-- What the host named the request. -/
  id : Value
  /-- The job, or what is wrong with its command line. -/
  job : Except Failure Job

/-- The answer to a request. -/
structure Row where
  id : Value
  result : Except Failure String

/-! ## Reading a request -/

/-- The members of a request met so far; the arguments may be met as null. -/
structure RequestFields where
  id? : Option Value := none
  words? : Option (Option (List String)) := none

namespace RequestFields

/-- The words of the command line, none if it is missing. -/
def words (fields : RequestFields) : List String := (fields.words?.getD none).getD []

/-- The name of the request, null if it is missing. -/
def id (fields : RequestFields) : Value := fields.id?.getD .null

end RequestFields

/-- The words of a command line, or null. -/
def readWords (depth : Nat) : Read (Option (List String)) :=
  optional (listOf (fun _ => string) depth)

/-- A request written as a list, behind the bracket. -/
def requestList (depth : Nat) : Read RequestFields := fun cs =>
  match field (value depth) true cs with
  | .error cause => .error cause
  | .ok (none, _) => .error .wrongShape
  | .ok (some id, cs) =>
    match field (readWords depth) false cs with
    | .error cause => .error cause
    | .ok (none, _) => .error .wrongShape
    | .ok (some words?, cs) =>
      Read.map (fun () => { id? := some id, words? := some words? }) closeRecord cs

/-- How the value of a member of a request is read. -/
def requestMember (depth : Nat) (fields : RequestFields) (key : String) :
    Except Cause (Read RequestFields) :=
  if key = "id" then
    if fields.id?.isSome then .error .wrongShape
    else .ok (Read.map (fun id => { fields with id? := some id }) (value depth))
  else if key = "args" then
    if fields.words?.isSome then .error .wrongShape
    else .ok (Read.map (fun words? => { fields with words? := some words? }) (readWords depth))
  else .ok (Read.map (fun () => fields) skipValue)

/-- A request written as an object, behind the brace. -/
def requestObject (depth : Nat) : Read RequestFields :=
  object readText (requestMember depth) {}

/-- Reads the members of a request from a line. -/
def readRequest (line : String) : Except Cause RequestFields :=
  whole (record requestList requestObject maxDepth) line

/-- The request that a line holds, or why it ends the batch. -/
def Request.ofLine (line : String) : Except Failure Request :=
  match readRequest line with
  | .error _ => .error (.unreadableRequest line)
  | .ok fields =>
    match fields.words with
    | [] => .error .emptyRequest
    | word :: words =>
      match Subcommand.ofWord? word with
      | none => .error (.unknownSubcommand word)
      | some (.task task) => .ok { id := fields.id, job := Job.ofWords task words }
      | some _ => .error (.notInBatch word)

/-! ## The plan of a batch -/

/-- Whether the request reads standard input. -/
def Request.takesInput (request : Request) : Bool :=
  match request.job with
  | .ok job => job.source == .input
  | .error _ => false

/-- What a batch does. -/
structure Plan where
  /-- The requests that it answers. -/
  requests : List Request := []
  /-- What is left of standard input for the last request, if that reads it. -/
  leftover : String := ""
  /-- Why the batch fails after them, if it does. -/
  failure? : Option Failure := none

namespace Plan

/-- The plan with one more request before the others. -/
def before (request : Request) (plan : Plan) : Plan :=
  { plan with requests := request :: plan.requests }

/-- The plan of a batch whose input has these lines. -/
def ofLines : List String → Plan
  | [] => {}
  | line :: rest =>
    if Text.isAllBlank line then {}
    else
      match Request.ofLine line with
      | .error failure => { failure? := some failure }
      | .ok request =>
        if request.takesInput then { requests := [request], leftover := String.join rest }
        else (ofLines rest).before request

/-- The characters of a text cut after each line break. -/
def cutLines : List Char → List (List Char)
  | [] => []
  | c :: cs =>
    if c = '\n' then [c] :: cutLines cs
    else
      match cutLines cs with
      | [] => [[c]]
      | line :: rest => (c :: line) :: rest

/-- The plan of a batch with this input. -/
def ofInput (text : String) : Plan := ofLines ((cutLines text.toList).map String.ofList)

theorem flatten_cutLines (cs : List Char) : (cutLines cs).flatten = cs := by
  induction cs with
  | nil => rfl
  | cons c cs ih =>
    unfold cutLines
    split
    · simp [ih]
    · split <;> rename_i h <;> rw [h] at ih <;> simp_all

end Plan

/-! ## Answering a request -/

/-- Runs the job of a request, if its command line is good. -/
def Request.run {m : Type → Type} [Monad m] (host : Host m) (doc : Doc) (request : Request) :
    m Row := do
  match request.job with
  | .error failure => pure ⟨request.id, .error failure⟩
  | .ok job => do
    let result ← job.run host doc
    pure ⟨request.id, result⟩

/-- The answer as a JSON value: what the job printed, or what is printed about its failure. -/
def Row.json (row : Row) : Value :=
  .object [("id", row.id.settled),
    match row.result with
    | .ok printed => ("out", .string printed)
    | .error failure => ("err", .string failure.shown)]

/-- The line that answers a request. -/
def Row.line (row : Row) : String := row.json.compact ++ "\n"

end DeclVisibility.CommandLine
