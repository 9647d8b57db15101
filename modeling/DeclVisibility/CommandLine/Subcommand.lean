import DeclVisibility.Fix.Basic

/-!
# Subcommands

The first word of a command line names a subcommand. Three of them work on one document and are
called tasks; a batch runs many tasks; the others print a page.
-/

namespace DeclVisibility.CommandLine

/-- What can be done with a document. -/
inductive Task where
  /-- Makes a declaration public. -/
  | fix
  /-- Lists the declarations. -/
  | outline
  /-- Shows the tree. -/
  | dump
  deriving DecidableEq, Repr

/-- What a command line asks for. -/
inductive Subcommand where
  | task (task : Task)
  | batch
  | help
  | version
  deriving DecidableEq, Repr

/-- Whether a word asks for help, wherever it stands. -/
def isHelpFlag (word : String) : Bool :=
  word == "-h" || word == "-help" || word == "--help"

/-- The subcommand that a word names. -/
def Subcommand.ofWord? (word : String) : Option Subcommand :=
  if word = "fix" then some (.task .fix)
  else if word = "outline" then some (.task .outline)
  else if word = "dump" then some (.task .dump)
  else if word = "batch" then some .batch
  else if word = "help" ∨ isHelpFlag word then some .help
  else if word = "version" ∨ word = "-V" ∨ word = "--version" then some .version
  else none

/-! ## Switches -/

/-- A word of a command line that is not the name of a file. -/
inductive Switch where
  /-- The next word is the name of a declaration. -/
  | name
  /-- The declaration is to be visible in its own crate only. -/
  | crateOnly
  /-- The edit is to be printed in place of the text. -/
  | edit
  /-- The next word is the name of the file to write. -/
  | target
  deriving DecidableEq, Repr

/-- The switch that a word stands for. -/
def Switch.ofWord? (word : String) : Option Switch :=
  if word = "-n" ∨ word = "--name" then some .name
  else if word = "--crate" then some .crateOnly
  else if word = "--edit" then some .edit
  else if word = "-o" ∨ word = "--out" then some .target
  else none

/-- The switches that a task has. To a task that does not have it, a switch is the name of a
file. -/
def Task.switches : Task → List Switch
  | .fix => [.name, .crateOnly, .edit, .target]
  | .outline => []
  | .dump => [.target]

/-- The switch that a word stands for in the command line of a task. -/
def Task.switch? (task : Task) (word : String) : Option Switch :=
  (Switch.ofWord? word).filter fun switch => task.switches.contains switch

end DeclVisibility.CommandLine
