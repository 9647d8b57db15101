import DeclVisibility.Report
import DeclVisibility.Table

/-!
# Packages and what belongs to them

A workspace knows packages by name and which document belongs to which package. Adding a package
again keeps its number and takes over the new origin, for all documents that belong to it. A
document belongs to at most one package, the one it was put into last.
-/

namespace DeclVisibility

/-- A package as its host describes it. -/
structure Package where
  name : String
  origin : Origin
  deriving DecidableEq, Repr

/-- The number of a package in a workspace. -/
structure PackageId where
  num : Nat
  deriving DecidableEq, Repr

/-- The packages, and which document belongs to which. -/
structure Workspace where
  packages : Table Package := .empty
  /-- At most one entry for each document. -/
  members : List (Doc × PackageId) := []
  deriving Repr

namespace Workspace

/-- No package. -/
def empty : Workspace := {}

/-- The number of the package with this name. -/
def findPackage? (w : Workspace) (name : String) : Option PackageId :=
  (w.packages.findKey? fun package => package.name == name).map PackageId.mk

/-- What is held of a package. -/
def package? (w : Workspace) (id : PackageId) : Option Package := w.packages.get? id.num

/-- Adds a package, or takes over its origin if there is one of its name. -/
def addPackage (w : Workspace) (package : Package) : Logged (PackageId × Workspace) :=
  match w.findPackage? package.name with
  | none => pure (⟨w.packages.size⟩, { w with packages := w.packages.push package })
  | some id =>
    match w.package? id with
    | none => pure (id, w)
    | some held =>
      if held.origin = package.origin then pure (id, w)
      else do
        Logged.report (.originChanged package.name held.origin package.origin)
        pure (id, { w with packages := w.packages.set id.num { held with origin := package.origin } })

/-- Takes a document out of its package. -/
def detach (w : Workspace) (doc : Doc) : Workspace :=
  { w with members := w.members.filter fun entry => entry.1 != doc }

/-- Puts a document into a package that was added. -/
def attach (w : Workspace) (doc : Doc) (id : PackageId) : Except Fault Workspace :=
  if w.packages.has id.num then
    .ok { w with members := (doc, id) :: (w.detach doc).members }
  else .error .unknownPackage

/-- The number of the package that a document belongs to. -/
def packageIdOf? (w : Workspace) (doc : Doc) : Option PackageId :=
  (w.members.find? fun entry => entry.1 == doc).map (·.2)

/-- The package that a document belongs to. -/
def packageOf? (w : Workspace) (doc : Doc) : Option Package :=
  (w.packageIdOf? doc).bind w.package?

/-- The origin of the package that a document belongs to. -/
def originOf? (w : Workspace) (doc : Doc) : Option Origin := (w.packageOf? doc).map (·.origin)

end Workspace

end DeclVisibility
