import DeclVisibility.Exchange.Draft
import DeclVisibility.Package

/-!
# Documents and packages as JSON

A document is exchanged as a record of a `package`, which may be missing or null, and a `tree`; a
package as a record of a `name` and an `origin`. A record is an object, or a list of its fields in
this order. In an object, members of other names are read over and none of these may stand twice.

Where a text has more than one fault, the first one met in reading counts. The shape of a tree is
judged when the whole of it has been read.
-/

namespace DeclVisibility.Exchange

open Json

/-- What a host hands in for a document. -/
structure DocumentInput where
  package? : Option Package
  draft : Draft
  deriving Repr

/-! ## Packages -/

/-- The name of an origin, the quote being read. -/
def originName : Read Origin := fun cs =>
  match readText cs with
  | .error cause => .error cause
  | .ok (name, rest) =>
    match Origin.ofName? name with
    | some origin => .ok (origin, rest)
    | none => .error .wrongShape

/-- Null. -/
def null : Read Unit := fun cs =>
  match skipGap cs with
  | 'n' :: rest => word ['u', 'l', 'l'] rest
  | cs => misshapen cs

/-- The name of an origin as the key of an object. A key that is no string breaks the grammar,
whatever it is. -/
def originKey : Read Origin := fun cs =>
  match skipGap cs with
  | [] => .error .cutShort
  | c :: rest => if c = '"' then originName rest else .error .malformed

/-- An origin written as an object, the brace being read: its name as the only key, with null as
the value. -/
def originObject : Read Origin := fun cs =>
  match originKey cs with
  | .error cause => .error cause
  | .ok (origin, cs) =>
    match colon cs with
    | .error cause => .error cause
    | .ok ((), cs) =>
      match null cs with
      | .error cause => .error cause
      | .ok ((), cs) =>
        match skipGap cs with
        | [] => .error .cutShort
        | c :: rest => if c = '\x7d' then .ok (origin, rest) else .error .malformed

/-- An origin. -/
def origin (depth : Nat) : Read Origin := fun cs =>
  match skipGap cs with
  | [] => .error .cutShort
  | '"' :: rest => originName rest
  | '\x7b' :: rest => if depth = 0 then .error .malformed else originObject rest
  | _ => .error .malformed

/-- A package written as a list, behind the bracket. -/
def packageList (depth : Nat) : Read Package := fun cs =>
  match field string true cs with
  | .error cause => .error cause
  | .ok (none, _) => .error .wrongShape
  | .ok (some name, cs) =>
    match field (origin depth) false cs with
    | .error cause => .error cause
    | .ok (none, _) => .error .wrongShape
    | .ok (some origin, cs) => Read.map (fun () => ⟨name, origin⟩) closeRecord cs

/-- The fields of a package met so far. -/
structure PackageFields where
  name? : Option String := none
  origin? : Option Origin := none

/-- How the value of a member of a package is read. -/
def packageMember (depth : Nat) (fields : PackageFields) (key : String) :
    Except Cause (Read PackageFields) :=
  if key = "name" then
    if fields.name?.isSome then .error .wrongShape
    else .ok (Read.map (fun name => { fields with name? := some name }) string)
  else if key = "origin" then
    if fields.origin?.isSome then .error .wrongShape
    else .ok (Read.map (fun origin => { fields with origin? := some origin }) (origin depth))
  else .ok (Read.map (fun () => fields) skipValue)

/-- A package written as an object, behind the brace. -/
def packageObject (depth : Nat) : Read Package := fun cs =>
  match object readText (packageMember depth) {} cs with
  | .error cause => .error cause
  | .ok (fields, rest) =>
    match fields.name?, fields.origin? with
    | some name, some origin => .ok (⟨name, origin⟩, rest)
    | _, _ => .error .wrongShape

/-- A package. -/
def package : Nat → Read Package := record packageList packageObject

/-- Reads a text that holds a package. -/
def readPackage (text : String) : Except Cause Package := whole (package maxDepth) text

/-! ## Documents -/

/-- A document written as a list, behind the bracket. -/
def documentList (depth : Nat) : Read DocumentInput := fun cs =>
  match field (optional (package depth)) true cs with
  | .error cause => .error cause
  | .ok (none, _) => .error .wrongShape
  | .ok (some package?, cs) =>
    match field (draft depth) false cs with
    | .error cause => .error cause
    | .ok (none, _) => .error .wrongShape
    | .ok (some draft, cs) => Read.map (fun () => ⟨package?, draft⟩) closeRecord cs

/-- The fields of a document met so far; a package may be met as null. -/
structure DocumentFields where
  package? : Option (Option Package) := none
  draft? : Option Draft := none

/-- How the value of a member of a document is read. -/
def documentMember (depth : Nat) (fields : DocumentFields) (key : String) :
    Except Cause (Read DocumentFields) :=
  if key = "package" then
    if fields.package?.isSome then .error .wrongShape
    else
      .ok (Read.map (fun package? => { fields with package? := some package? })
        (optional (package depth)))
  else if key = "tree" then
    if fields.draft?.isSome then .error .wrongShape
    else .ok (Read.map (fun draft => { fields with draft? := some draft }) (draft depth))
  else .ok (Read.map (fun () => fields) skipValue)

/-- A document written as an object, behind the brace. -/
def documentObject (depth : Nat) : Read DocumentInput := fun cs =>
  match object readText (documentMember depth) {} cs with
  | .error cause => .error cause
  | .ok (fields, rest) =>
    match fields.draft? with
    | some draft => .ok (⟨fields.package?.getD none, draft⟩, rest)
    | none => .error .wrongShape

/-- A document. -/
def document : Nat → Read DocumentInput := record documentList documentObject

/-- Reads a text that holds a document. -/
def readDocument (text : String) : Except Cause DocumentInput :=
  whole (document maxDepth) text

end DeclVisibility.Exchange
