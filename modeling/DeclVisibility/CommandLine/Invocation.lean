import DeclVisibility.CommandLine.Page
import DeclVisibility.CommandLine.Request

/-!
# Invocations

What a whole command line asks for (`Invocation.ofWords`), and what comes of it
(`Invocation.run`). A request for help is met before anything else in the command line is looked
at.
-/

namespace DeclVisibility.CommandLine

/-- What a command line asks for. -/
inductive Invocation where
  /-- A page is printed. -/
  | page (text : String)
  /-- A page is printed, and the program fails. -/
  | confused (text : String) (failure : Failure)
  /-- A job is run, if its command line is good. -/
  | work (job : Except Failure Job)
  /-- The requests of standard input are answered. -/
  | batch
  deriving Repr

/-- Reads a command line. -/
def Invocation.ofWords : List String → Invocation
  | [] => .page overviewPage
  | word :: words =>
    match Subcommand.ofWord? word with
    | none => .confused overviewPage (.unknownSubcommand word)
    | some .help => .page overviewPage
    | some .version => .page versionPage
    | some .batch => if words.any isHelpFlag then .page batchPage else .batch
    | some (.task task) =>
      if words.any isHelpFlag then .page task.page else .work (Job.ofWords task words)

/-- What comes of a command line, the files written apart. -/
structure Outcome where
  /-- What is printed, the answers to requests apart. -/
  printed : String := ""
  /-- The answers to requests. -/
  rows : List Row := []
  failure? : Option Failure := none

namespace Outcome

/-- The code that the program ends with. -/
def code (outcome : Outcome) : Nat := if outcome.failure?.isSome then 1 else 0

/-- All that is printed on standard output. -/
def text (outcome : Outcome) : String :=
  outcome.printed ++ String.join (outcome.rows.map Row.line)

/-- What comes of a job. -/
def ofResult : Except Failure String → Outcome
  | .ok printed => { printed }
  | .error failure => { failure? := some failure }

end Outcome

/-- Does what a command line asks for. Each request of a batch has a document of its own. -/
def Invocation.run {m : Type → Type} [Monad m] (host : Host m) : Invocation → m Outcome
  | .page text => pure { printed := text }
  | .confused text failure => pure { printed := text, failure? := some failure }
  | .work job => do
    match job with
    | .error failure => pure (.ofResult (.error failure))
    | .ok job => do
      let result ← job.run host Single.doc
      pure (.ofResult result)
  | .batch => do
    let text ← host.readInput
    let plan := Plan.ofInput text
    let host := { host with readInput := pure plan.leftover }
    let rows ← (plan.requests.zipIdx 1).mapM fun (request, number) =>
      request.run host (Doc.ofNat number)
    pure { rows, failure? := plan.failure? }

end DeclVisibility.CommandLine
