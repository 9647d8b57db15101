import DeclVisibility.CommandLine.Failure
import DeclVisibility.CommandLine.Subcommand
import DeclVisibility.Service.Single

/-!
# Jobs

A job is a task with all that its command line says: where the text comes from, what to do with
it, and where the result goes. Reading a command line (`Job.ofWords`) and doing the work
(`Action.output`) need nothing from outside; `Job.run` adds the reading and writing, which a `Host`
provides. A job that fails writes nothing.
-/

namespace DeclVisibility.CommandLine

/-- Where the text of a document comes from. -/
inductive Source where
  /-- Standard input. -/
  | input
  | file (name : String)
  deriving DecidableEq, Repr

/-- What is done with the text of a document. -/
inductive Action where
  /-- Makes the declaration public that a name leads to; gives the text, or the edit if asked. -/
  | fix (name : String) (scope : Scope) (asEdit : Bool)
  /-- Lists the declarations. -/
  | outline
  /-- Gives the text and the tree. -/
  | dump
  deriving DecidableEq, Repr

/-- A task on a document. -/
structure Job where
  action : Action
  source : Source
  /-- The file that the result goes to; else it is printed. -/
  target? : Option String
  deriving DecidableEq, Repr

/-! ## Reading the command line of a task -/

/-- What the words of a command line have said so far. The last name, and the last file to write,
are the ones that count. -/
structure Words where
  /-- Standard input is to be read, whatever files are named. -/
  fromInput : Bool := false
  file? : Option String := none
  name? : Option String := none
  scope : Scope := .pub
  asEdit : Bool := false
  target? : Option String := none
  deriving DecidableEq, Repr

namespace Words

/-- Takes a word that is no switch: a dash for standard input, or the only file to read. -/
def accept (said : Words) (word : String) : Except Failure Words :=
  if word = "-" then .ok { said with fromInput := true }
  else if said.file?.isSome then .error .secondSource
  else .ok { said with file? := some word }

/-- Takes the words of a command line, from left to right. -/
def read (task : Task) : Words → List String → Except Failure Words
  | said, [] => .ok said
  | said, word :: rest =>
    match task.switch? word with
    | some .name =>
      match rest with
      | [] => .error .nameCutShort
      | name :: rest => read task { said with name? := some name } rest
    | some .target =>
      match rest with
      | [] => .error .targetCutShort
      | target :: rest => read task { said with target? := some target } rest
    | some .crateOnly => read task { said with scope := .crateOnly } rest
    | some .edit => read task { said with asEdit := true } rest
    | none =>
      match said.accept word with
      | .error failure => .error failure
      | .ok said => read task said rest

/-- Where the text comes from. -/
def source (said : Words) : Except Failure Source :=
  if said.fromInput then .ok .input
  else
    match said.file? with
    | some name => .ok (.file name)
    | none => .error .noSource

/-- What is done with the text. -/
def action (said : Words) : Task → Except Failure Action
  | .fix =>
    match said.name? with
    | some name => .ok (.fix name said.scope said.asEdit)
    | none => .error .noName
  | .outline => .ok .outline
  | .dump => .ok .dump

end Words

/-- Reads the command line of a task. -/
def Job.ofWords (task : Task) (words : List String) : Except Failure Job := do
  let said ← Words.read task {} words
  let action ← said.action task
  let source ← said.source
  pure { action, source, target? := said.target? }

/-! ## Doing the work -/

/-- The value of a question to the service about a text; the reports are dropped. -/
def settle {α : Type} (x : Attempt (Except ReadError α)) : Except Failure α :=
  match x.outcome.value with
  | .error fault => .error (.fault fault)
  | .ok (.error error) => .error (.document error)
  | .ok (.ok a) => .ok a

/-- How an edit is printed: the title of the fix, then the position and the new text. -/
def editText (made : Single.MadePublic) : Except Fault String := do
  let place ← made.edit.range.start.display
  return made.title ++ "\n" ++ place ++ " " ++ Text.quote made.edit.newText ++ "\n"

/-- The result of an action on the text of a document. -/
def Action.output (doc : Doc) : Action → String → Except Failure String
  | .fix name scope asEdit, text => do
    match ← settle (Single.makePublic text name scope doc) with
    | none => .error (.noFix name)
    | some made => if asEdit then (editText made).mapError .fault else pure made.text
  | .outline, text => settle (Single.outline text doc)
  | .dump, text => do
    let shown ← settle (Single.dump text doc)
    pure (shown.text ++ "\n\n" ++ shown.tree ++ "\n")

/-! ## Reading and writing -/

/-- What a job needs from the world around it. -/
structure Host (m : Type → Type) where
  /-- The text of a file, if it can be read. -/
  readFile : String → m (Option String)
  /-- Puts a text into a file, and tells whether that was possible. -/
  writeFile : String → String → m Bool
  /-- All that is left of standard input. -/
  readInput : m String

section

variable {m : Type → Type} [Monad m]

/-- Reads the text that a source names. -/
def Source.read (host : Host m) : Source → m (Except Failure String)
  | .input => do
    let text ← host.readInput
    pure (.ok text)
  | .file name => do
    match ← host.readFile name with
    | some text => pure (.ok text)
    | none => pure (.error (.file name))

/-- Puts a result where it goes, and gives what is left to print. -/
def deliver (host : Host m) (target? : Option String) (result : String) :
    m (Except Failure String) :=
  match target? with
  | none => pure (.ok result)
  | some name => do
    if ← host.writeFile name result then pure (.ok "") else pure (.error (.file name))

/-- Runs a job, and gives what it prints. -/
def Job.run (host : Host m) (doc : Doc) (job : Job) : m (Except Failure String) := do
  match ← job.source.read host with
  | .error failure => pure (.error failure)
  | .ok text =>
    match job.action.output doc text with
    | .error failure => pure (.error failure)
    | .ok result => deliver host job.target? result

end

end DeclVisibility.CommandLine
