import DeclVisibility.Exchange.Document
import DeclVisibility.Outline

/-!
# The service

A service holds open documents, each with a version and a tree, and the packages that they belong
to. It offers fixes for declarations by name, applies them, and lists what a document declares.
A question about a document that is not open has an answer too: nothing.

Applying a fix checks again that the document holds the declaration and that it is still private,
since the fix may be old or come from another document.
-/

namespace DeclVisibility

/-- The version of a document, which counts its edits. -/
abbrev Version : Type := Int64

/-- The version after one more edit; the largest version has none. -/
def nextVersion (v : Version) : Except Fault Version :=
  if v = Int64.maxValue then .error .versionOverflow else .ok (v + 1)

/-- An open document. -/
structure Document where
  version : Version
  tree : Tree
  deriving Repr

/-- Why the text of a document is refused. -/
inductive ReadError where
  /-- It cannot be read as a document. -/
  | json (cause : Json.Cause)
  /-- It can, but what it holds is no tree. -/
  | tree (misfit : Misfit)
  deriving DecidableEq, Repr

/-- Open documents and the packages that they belong to. -/
structure Service where
  /-- At most one entry for each document. -/
  documents : List (Doc × Document) := []
  workspace : Workspace := .empty
  deriving Repr

namespace Service

/-- No document and no package. -/
def new : Service := {}

/-- The open document of this name. -/
def document? (s : Service) (doc : Doc) : Option Document :=
  (s.documents.find? fun entry => entry.1 == doc).map (·.2)

/-- Forgets a document, its package apart. -/
def withoutDocument (s : Service) (doc : Doc) : Service :=
  { s with documents := s.documents.filter fun entry => entry.1 != doc }

/-- Holds a document, in place of what was held under its name. -/
def withDocument (s : Service) (doc : Doc) (document : Document) : Service :=
  { s with documents := (doc, document) :: (s.withoutDocument doc).documents }

/-! ## Opening and closing -/

/-- Puts a document into a package, which is added if it is new. -/
def setPackage (s : Service) (doc : Doc) (package : Package) : Attempt Service := do
  let (id, workspace) ← Attempt.ofLogged (s.workspace.addPackage package)
  let workspace ← Attempt.ofExcept (workspace.attach doc id)
  pure { s with workspace }

/-- Closes a document and takes it out of its package. -/
def close (s : Service) (doc : Doc) : Service :=
  { s.withoutDocument doc with workspace := s.workspace.detach doc }

/-- Opens a document from what its host handed in. A document handed in without a package stays
where it was. -/
def openInput (s : Service) (doc : Doc) (version : Version) (events : List Event)
    (package? : Option Package) : Attempt Service := do
  let tree ← Attempt.ofExcept (Tree.ofEvents events)
  let opened := s.withDocument doc { version, tree }
  match package? with
  | none => pure opened
  | some package => opened.setPackage doc package

/-- Opens a document from its JSON text. A text that is refused changes nothing. -/
def openJson (s : Service) (doc : Doc) (version : Version) (text : String) :
    Attempt (Except ReadError Service) :=
  match Exchange.readDocument text with
  | .error cause => pure (.error (.json cause))
  | .ok input =>
    match input.draft.events with
    | .error misfit => pure (.error (.tree misfit))
    | .ok events => do
      let opened ← s.openInput doc version events input.package?
      pure (.ok opened)

/-! ## Questions -/

/-- The version of a document. -/
def version? (s : Service) (doc : Doc) : Option Version := (s.document? doc).map (·.version)

/-- The text of a document. -/
def text? (s : Service) (doc : Doc) : Option String := (s.document? doc).map (·.tree.text)

/-- The tree of a document, shown with a node per line. -/
def dump? (s : Service) (doc : Doc) : Option String :=
  ((s.document? doc).bind (·.tree.whole?)).map Subtree.block

/-- The tree of a document as a JSON text. -/
def json? (s : Service) (doc : Doc) : Option String := (s.document? doc).map (·.tree.json)

/-- The first declaration of a document that a name leads to. -/
def findDecl? (s : Service) (doc : Doc) (name : String) : Option ElementId :=
  (s.document? doc).bind fun document => document.tree.findDecl? name

/-- The outline of a document; of a document that is not open, it is empty. -/
def outline (s : Service) (doc : Doc) : Logged (List OutlineItem) :=
  match s.document? doc with
  | some document => document.tree.outline (s.workspace.originOf? doc)
  | none => pure []

/-! ## Fixes -/

/-- Offers a fix for the first declaration that a name leads to. -/
def makePublic (s : Service) (doc : Doc) (name : String) (scope : Scope) :
    Logged (Option Fix) :=
  match s.document? doc with
  | none => pure none
  | some document =>
    match document.tree.findDecl? name with
    | none => pure none
    | some decl =>
      document.tree.offerFix decl (document.tree.symbolName? decl) scope
        (s.workspace.originOf? doc)

/-- Applies a fix to a document. Gives the version that the edit is to be made to, and the edit; the
version counts up by one. -/
def apply (s : Service) (doc : Doc) (fix : Fix) : Attempt (Option (Version × Edit) × Service) :=
  match s.document? doc with
  | none => pure (none, s)
  | some document => do
    let tree := document.tree
    if !tree.holds (.element fix.decl) || (tree.offsetOf? (.element fix.decl)).isNone then
      Attempt.ofLogged (Logged.report (.foreignFix fix.title doc))
      pure (none, s)
    else
      let visibility ← Attempt.ofLogged (tree.visibilityOf fix.decl)
      if !visibility.isPrivate then
        Attempt.ofLogged (Logged.report (.spentFix fix.title))
        pure (none, s)
      else
        match ← fix.invoke tree with
        | none => pure (none, s)
        | some (edit, tree) =>
          let version ← Attempt.ofExcept (nextVersion document.version)
          pure (some (document.version, edit), s.withDocument doc { version, tree })

end Service

end DeclVisibility
