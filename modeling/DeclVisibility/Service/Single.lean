import DeclVisibility.Service.Basic

/-!
# One document at a time

What a command line asks for: the text of one document in, one result out. Each of these opens the
document in a new service and puts one question to it. The name of the document is the caller's to
choose; a command on its own has only one (`Single.doc`).
-/

namespace DeclVisibility.Single

/-- The document of a command on its own. -/
def doc : Doc := Doc.ofNat 1

/-- A declaration made public. -/
structure MadePublic where
  title : String
  edit : Edit
  /-- The text after the edit. -/
  text : String
  deriving DecidableEq, Repr

/-- The tree of a document as shown, and its text. -/
structure SyntaxDump where
  tree : String
  text : String
  deriving DecidableEq, Repr

/-- Opens a text in a new service. -/
def openText (text : String) (doc : Doc := doc) : Attempt (Except ReadError Service) :=
  Service.new.openJson doc 1 text

/-- Makes the declaration public that a name leads to, if a fix is on offer for it. -/
def makePublic (text name : String) (scope : Scope) (doc : Doc := doc) :
    Attempt (Except ReadError (Option MadePublic)) := do
  match ← openText text doc with
  | .error error => pure (.error error)
  | .ok service =>
    match ← Attempt.ofLogged (service.makePublic doc name scope) with
    | none => pure (.ok none)
    | some fix =>
      let (result?, service) ← service.apply doc fix
      match result?, service.text? doc with
      | some (_, edit), some text => pure (.ok (some ⟨fix.title, edit, text⟩))
      | _, _ => pure (.ok none)

/-- The outline of a document, written out. -/
def outline (text : String) (doc : Doc := doc) : Attempt (Except ReadError String) := do
  match ← openText text doc with
  | .error error => pure (.error error)
  | .ok service =>
    let items ← Attempt.ofLogged (service.outline doc)
    let lines ← Attempt.ofExcept (renderOutline items)
    pure (.ok lines)

/-- The tree and the text of a document. -/
def dump (text : String) (doc : Doc := doc) : Attempt (Except ReadError SyntaxDump) := do
  match ← openText text doc with
  | .error error => pure (.error error)
  | .ok service =>
    pure (.ok ⟨(service.dump? doc).getD "", (service.text? doc).getD ""⟩)

end DeclVisibility.Single
