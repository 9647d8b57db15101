/-!
# Documents and origins

A document is whatever a tree came from, such as a file or an editor's tab. It is named by a
number of 32 bits; a larger number is cut to its low bits (`Doc.ofNat`). In messages a document
stands by its path if one is known, else by its number.

Where the package of a document comes from decides whether its code may be edited: only the user's
own workspace may. An origin has a lower-case name in the exchanged form and a label in messages.
-/

namespace DeclVisibility

/-- The name of a document. -/
structure Doc where
  num : UInt32
  deriving DecidableEq, Repr

namespace Doc

/-- The document named by the low 32 bits of a number. -/
def ofNat (n : Nat) : Doc := ⟨UInt32.ofNat n⟩

/-- The number of the document. -/
def toNat (doc : Doc) : Nat := doc.num.toNat

/-- The document in a message, by its path if there is one. -/
def label (doc : Doc) (path? : Option String) : String :=
  match path? with
  | some path => path
  | none => "doc#" ++ toString doc.toNat

end Doc

/-- Where a package comes from. -/
inductive Origin where
  /-- The user's own project, which may be edited. -/
  | workspace
  /-- A package that the project depends on. -/
  | dependency
  /-- The standard library. -/
  | stdlib
  deriving DecidableEq, Repr

namespace Origin

/-- All origins. -/
def all : List Origin := [workspace, dependency, stdlib]

/-- The exchanged name. -/
def name : Origin → String
  | workspace => "workspace"
  | dependency => "dependency"
  | stdlib => "stdlib"

/-- The origin with this exchanged name. -/
def ofName? (s : String) : Option Origin := all.find? fun o => o.name == s

/-- The origin in a message. -/
def label : Origin → String
  | workspace => "Workspace"
  | dependency => "Dependency"
  | stdlib => "Stdlib"

/-- Reading a name back gives the origin that it names. -/
theorem ofName?_name (o : Origin) : ofName? o.name = some o := by cases o <;> decide

end Origin

end DeclVisibility
