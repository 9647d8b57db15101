import DeclVisibility.Service.Basic

/-!
# Sessions

A session is a service together with the fixes that it has offered, in the order of the offers. A
`Call` is one request to it as a value, so a list of calls is a whole run of a service
(`Session.run`); a fix to apply is named by its place among the offers.
-/

namespace DeclVisibility

/-- A request to a service. -/
inductive Call where
  | openJson (doc : Doc) (version : Version) (text : String)
  | close (doc : Doc)
  | setPackage (doc : Doc) (package : Package)
  | version (doc : Doc)
  | text (doc : Doc)
  | dump (doc : Doc)
  | json (doc : Doc)
  | find (doc : Doc) (name : String)
  /-- Asks for a fix, which takes the next place among the offers if there is one. -/
  | makePublic (doc : Doc) (name : String) (scope : Scope)
  /-- Applies the fix at a place among the offers. -/
  | apply (doc : Doc) (slot : Nat)
  /-- Asks for a fix and applies it at once, without a place among the offers. -/
  | fixNow (doc : Doc) (name : String) (scope : Scope)
  | outline (doc : Doc)
  | render (doc : Doc)
  deriving DecidableEq, Repr

/-- What a session answers. -/
inductive Answer where
  | done
  | refused (error : ReadError)
  /-- A fix was asked for by a place that no offer has. -/
  | noSuchSlot
  | version (version? : Option Version)
  | text (text? : Option String)
  | found (decl? : Option ElementId)
  | offered (slot : Nat) (fix : Fix)
  | notOffered
  /-- The version and the edit of a fix, and the text after it. -/
  | applied (version : Version) (edit : Edit) (text : String)
  | notApplied
  | fixed (title : String) (version : Version) (edit : Edit)
  | notFixed
  | outline (items : List OutlineItem)
  | rendered (text : String)
  deriving DecidableEq, Repr

/-- A service and the fixes that it has offered. -/
structure Session where
  service : Service := .new
  /-- The fixes offered, in the order of the offers. -/
  offers : List Fix := []
  deriving Repr

namespace Session

/-- A session with a new service. -/
def new : Session := {}

/-- The session with its service changed. -/
def withService (s : Session) (service : Service) : Session := { s with service }

/-- Answers one request. -/
def step (s : Session) : Call → Attempt (Answer × Session)
  | .openJson doc version text => do
    match ← s.service.openJson doc version text with
    | .error error => pure (.refused error, s)
    | .ok service => pure (.done, s.withService service)
  | .close doc => pure (.done, s.withService (s.service.close doc))
  | .setPackage doc package => do
    let service ← s.service.setPackage doc package
    pure (.done, s.withService service)
  | .version doc => pure (.version (s.service.version? doc), s)
  | .text doc => pure (.text (s.service.text? doc), s)
  | .dump doc => pure (.text (s.service.dump? doc), s)
  | .json doc => pure (.text (s.service.json? doc), s)
  | .find doc name => pure (.found (s.service.findDecl? doc name), s)
  | .makePublic doc name scope => do
    match ← Attempt.ofLogged (s.service.makePublic doc name scope) with
    | none => pure (.notOffered, s)
    | some fix => pure (.offered s.offers.length fix, { s with offers := s.offers ++ [fix] })
  | .apply doc slot =>
    match s.offers[slot]? with
    | none => pure (.noSuchSlot, s)
    | some fix => do
      let (result?, service) ← s.service.apply doc fix
      match result? with
      | none => pure (.notApplied, s.withService service)
      | some (version, edit) =>
        pure (.applied version edit ((service.text? doc).getD ""), s.withService service)
  | .fixNow doc name scope => do
    match ← Attempt.ofLogged (s.service.makePublic doc name scope) with
    | none => pure (.notFixed, s)
    | some fix =>
      let (result?, service) ← s.service.apply doc fix
      match result? with
      | none => pure (.notFixed, s.withService service)
      | some (version, edit) => pure (.fixed fix.title version edit, s.withService service)
  | .outline doc => do
    let items ← Attempt.ofLogged (s.service.outline doc)
    pure (.outline items, s)
  | .render doc => do
    let items ← Attempt.ofLogged (s.service.outline doc)
    let text ← Attempt.ofExcept (renderOutline items)
    pure (.rendered text, s)

/-- Answers requests one after the other, up to the first fault. -/
def run : List Call → Session → Attempt (List Answer × Session)
  | [], s => pure ([], s)
  | call :: rest, s => do
    let (answer, next) ← s.step call
    let (answers, last) ← run rest next
    pure (answer :: answers, last)

end Session

end DeclVisibility
