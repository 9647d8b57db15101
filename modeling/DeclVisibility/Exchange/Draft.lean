import DeclVisibility.Json.Printer
import DeclVisibility.Json.Reader
import DeclVisibility.Tree.Draft

/-!
# Drafts as JSON

A token is an object with a `token`, the name of its kind, and a `text`, which may be missing or
null; an element is an object with a `kind` and `children`, a list of nodes, which may be missing.
Other members are ignored, but none of these may stand twice. What can be read as a token is one,
whatever else it holds. A name may also be written as an object whose only key is the name, with
null as its value.
-/

namespace DeclVisibility

namespace Exchange

open Json

/-- Reads a name of a fixed set. -/
def choice? {α : Type} (ofName? : String → Option α) : Value → Option α
  | .string name => ofName? name
  | .object [(name, .null)] => ofName? name
  | _ => none

/-- The values of all members with a key. -/
def valuesOf (key : String) (members : List (String × Value)) : List Value :=
  (members.filter fun entry => entry.1 == key).map (·.2)

/-- Reads an optional text. -/
def text? : Value → Option (Option String)
  | .null => some none
  | .string s => some (some s)
  | _ => none

/-- Reads the members of an object as those of a token. -/
def tokenOf? (members : List (String × Value)) : Option Draft :=
  match valuesOf "token" members with
  | [kind] =>
    match choice? TokenKind.ofLabel? kind with
    | none => none
    | some kind =>
      match valuesOf "text" members with
      | [] => some (.token kind none)
      | [text] => (text? text).map (.token kind)
      | _ => none
  | _ => none

mutual
/-- Reads a value as a node. -/
def draftOf? : Value → Option Draft
  | .object members =>
    match tokenOf? members with
    | some token => some token
    | none =>
      match valuesOf "kind" members with
      | [kind] =>
        match choice? ElementKind.ofLabel? kind, childLists members with
        | some kind, [] => some (.element kind [])
        | some kind, [some children] => some (.element kind children)
        | _, _ => none
      | _ => none
  | _ => none
/-- Reads the values of all members with the key `children` as lists of nodes. -/
def childLists : List (String × Value) → List (Option (List Draft))
  | [] => []
  | (key, value) :: rest =>
    if key = "children" then draftsOf? value :: childLists rest else childLists rest
/-- Reads a value as a list of nodes. -/
def draftsOf? : Value → Option (List Draft)
  | .array items => draftsOfEach? items
  | _ => none
/-- Reads every value as a node. -/
def draftsOfEach? : List Value → Option (List Draft)
  | [] => some []
  | item :: rest =>
    match draftOf? item, draftsOfEach? rest with
    | some child, some others => some (child :: others)
    | _, _ => none
end

/-- Reads a node nested at most `depth` levels deep. -/
def draft (depth : Nat) : Read Draft := fun cs =>
  match value depth cs with
  | .error cause => .error cause
  | .ok (v, rest) =>
    match draftOf? v with
    | some d => .ok (d, rest)
    | none => .error .wrongShape

/-- Reads a text that holds a node. -/
def readDraft (text : String) : Except Cause Draft := whole (draft maxDepth) text

mutual
/-- The JSON value of a draft. -/
def valueOf : Draft → Value
  | .token kind (some text) =>
    .object [("token", .string kind.label), ("text", .string text)]
  | .token kind none => .object [("token", .string kind.label)]
  | .element kind children =>
    .object [("kind", .string kind.label), ("children", .array (valuesOfAll children))]
/-- The JSON values of drafts that stand side by side. -/
def valuesOfAll : List Draft → List Value
  | [] => []
  | child :: rest => valueOf child :: valuesOfAll rest
end

end Exchange

/-- The tree as a JSON text, an entry per line and with all texts written out. -/
def Tree.json (t : Tree) : String :=
  match t.whole? with
  | some whole => (Exchange.valueOf whole.draft).pretty
  | none => ""

end DeclVisibility
