import DeclVisibility.CommandLine.Invocation

/-!
# A machine held in memory

A machine holds the files of a directory and what is left of standard input. It is a host, so a
command line can be run on it and leaves a machine behind.

A file has a path in the directory. A name leads to a path part by part: a part that is empty or a
dot stays, two dots lead back, and each part is met in a directory. A directory is there as long
as it holds a file; no name leads out of the top one.
-/

namespace DeclVisibility.CommandLine

/-- The parts that lead to a file, its own name last. -/
abbrev Path : Type := List String

/-- The files of a directory. -/
structure Files where
  /-- At most one entry for each path. -/
  entries : List (Path × String) := []
  deriving DecidableEq, Repr

namespace Files

/-- How many bytes a part of a name may have. -/
def partLimit : Nat := 255

/-- How many bytes a whole name may have. -/
def nameLimit : Nat := 4095

/-- Whether a path is the directory itself, or one with a file below it. -/
def isDirectory (files : Files) (path : Path) : Bool :=
  path.isEmpty || files.entries.any fun entry => path.isPrefixOf entry.1 && path != entry.1

/-- Goes on from a path by one part of a name. -/
def enter? (files : Files) (here : Path) (part : String) : Option Path :=
  if !files.isDirectory here then none
  else if part = "" ∨ part = "." then some here
  else if part = ".." then if here.isEmpty then none else some here.dropLast
  else if partLimit < part.utf8ByteSize ∨ part.toList.contains '\x00' then none
  else some (here ++ [part])

/-- The parts of a name between its slashes. -/
def parts : List Char → List (List Char)
  | [] => [[]]
  | c :: cs =>
    if c = '/' then [] :: parts cs
    else
      match parts cs with
      | [] => [[c]]
      | part :: rest => (c :: part) :: rest

/-- The path that a name leads to. -/
def resolve? (files : Files) (name : String) : Option Path :=
  if name.toList.head?.all (· == '/') ∨ nameLimit < name.utf8ByteSize then none
  else ((parts name.toList).map String.ofList).foldlM files.enter? []

/-- The text of the file at a path. -/
def get? (files : Files) (path : Path) : Option String :=
  (files.entries.find? fun entry => entry.1 == path).map (·.2)

/-- Overwrites the file at a path, or adds it. -/
def put (files : Files) (path : Path) (text : String) : Files :=
  if (files.get? path).isSome then
    ⟨files.entries.map fun entry => if entry.1 = path then (path, text) else entry⟩
  else ⟨files.entries ++ [(path, text)]⟩

/-- Reads the file that a name leads to. -/
def read? (files : Files) (name : String) : Option String :=
  (files.resolve? name).bind files.get?

/-- Writes the file that a name leads to; a directory is not written. -/
def write? (files : Files) (name text : String) : Option Files :=
  match files.resolve? name with
  | none => none
  | some path => if files.isDirectory path then none else some (files.put path text)

/-- Files by their names, which are taken as they are. -/
def ofNames (files : List (String × String)) : Files :=
  ⟨files.map fun (name, text) => ((parts name.toList).map String.ofList, text)⟩

/-- The name of a path. -/
def nameOf (path : Path) : String := "/".intercalate path

/-- The files that are not the same in another state of the directory, by their names. -/
def changedSince (files before : Files) : List (String × String) :=
  (files.entries.filter fun entry => before.get? entry.1 != some entry.2).map
    fun entry => (nameOf entry.1, entry.2)

end Files

/-- The files of a directory, and what is left of standard input. -/
structure Machine where
  files : Files
  input : String
  deriving DecidableEq, Repr

namespace Machine

/-- A machine as the host of a job. -/
def host : Host (StateM Machine) where
  readFile name := fun m => (m.files.read? name, m)
  writeFile name text := fun m =>
    match m.files.write? name text with
    | some files => (true, { m with files })
    | none => (false, m)
  readInput := fun m => (m.input, { m with input := "" })

/-- Runs a command line on a machine. -/
def run (words : List String) (m : Machine) : Outcome × Machine :=
  (Invocation.ofWords words).run host m

end Machine

end DeclVisibility.CommandLine
