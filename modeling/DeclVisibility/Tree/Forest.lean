import DeclVisibility.Table
import DeclVisibility.Tree.Subtree

/-!
# Forests

A forest holds every node that was ever made, whether or not it hangs below anything. Each link is
kept twice: an element lists its children, and a node names its parent. Nodes are only added and
put into elements, never removed.

A number that was never given out reads as a node without kind, parent and children. The nested
view of a node (`Forest.subtree?`) follows the child lists; the depth of a nesting without a cycle
is bounded by the number of elements, which is how long the view follows them.
-/

namespace DeclVisibility

/-- What a forest holds of a token. -/
structure Token where
  kind : TokenKind
  text : String
  parent : Option ElementId := none
  deriving DecidableEq, Repr

/-- What a forest holds of an element. -/
structure Element where
  kind : ElementKind
  children : List NodeId := []
  parent : Option ElementId := none
  deriving DecidableEq, Repr

/-- All nodes ever made, attached or not. -/
structure Forest where
  tokens : Table Token := .empty
  elements : Table Element := .empty
  deriving Repr

namespace Forest

/-! ## Looking up nodes -/

/-- The forest without a node. -/
def empty : Forest := {}

/-- What is held of a token. -/
def token? (f : Forest) (id : TokenId) : Option Token := f.tokens.get? id.num

/-- What is held of an element. -/
def element? (f : Forest) (id : ElementId) : Option Element := f.elements.get? id.num

/-- Whether the number of a node was given out. -/
def holds (f : Forest) : NodeId → Bool
  | .token id => f.tokens.has id.num
  | .element id => f.elements.has id.num

/-- The kind of an element. -/
def elementKind? (f : Forest) (id : ElementId) : Option ElementKind :=
  (f.element? id).map (·.kind)

/-- The kind of a node. -/
def kind? (f : Forest) : NodeId → Option NodeKind
  | .token id => (f.token? id).map fun token => .token token.kind
  | .element id => (f.elementKind? id).map .element

/-- The element that a node hangs in. -/
def parent? (f : Forest) : NodeId → Option ElementId
  | .token id => (f.token? id).bind (·.parent)
  | .element id => (f.element? id).bind (·.parent)

/-- The children of an element, in text order. -/
def children (f : Forest) (id : ElementId) : List NodeId :=
  match f.element? id with
  | some element => element.children
  | none => []

/-- The children that are elements. -/
def elementChildren (f : Forest) (id : ElementId) : List ElementId :=
  (f.children id).filterMap NodeId.element?

/-- The children that are elements of a kind. -/
def childElements (f : Forest) (id : ElementId) (kind : ElementKind) : List ElementId :=
  (f.elementChildren id).filter fun child => f.elementKind? child = some kind

/-- The first child that is an element of a kind. -/
def childElement? (f : Forest) (id : ElementId) (kind : ElementKind) : Option ElementId :=
  (f.elementChildren id).find? fun child => f.elementKind? child = some kind

/-- The children that are tokens, as held. -/
def tokenChildren (f : Forest) (id : ElementId) : List Token :=
  ((f.children id).filterMap NodeId.token?).filterMap f.token?

/-! ## The nested view -/

/-- The node and what is below it, following the child lists for `fuel` levels. -/
def unfold (f : Forest) : Nat → NodeId → Option Subtree
  | _, .token id => (f.token? id).map fun token => .token ⟨id, token.kind, token.text⟩
  | 0, .element _ => none
  | fuel + 1, .element id =>
    (f.element? id).map fun element =>
      .element id element.kind (element.children.filterMap (f.unfold fuel))

/-- The node and all that is below it. -/
def subtree? (f : Forest) (node : NodeId) : Option Subtree :=
  f.unfold (f.elements.size + 1) node

/-- The text of a node. -/
def nodeText (f : Forest) (node : NodeId) : String :=
  match f.subtree? node with
  | some s => s.text
  | none => ""

/-- The text of an element without spaces and comments. -/
def nonTriviaText (f : Forest) (id : ElementId) : String :=
  match f.subtree? (.element id) with
  | some s => s.nonTriviaText
  | none => ""

/-! ## Adding nodes -/

/-- Records a parent in a node. -/
def setParent (f : Forest) (node : NodeId) (parent : ElementId) : Forest :=
  match node with
  | .token id => { f with tokens := f.tokens.modify id.num fun t => { t with parent := parent } }
  | .element id =>
    { f with elements := f.elements.modify id.num fun e => { e with parent := parent } }

/-- Overwrites the child list of an element. -/
def setChildren (f : Forest) (id : ElementId) (children : List NodeId) : Forest :=
  { f with elements := f.elements.modify id.num fun e => { e with children := children } }

/-- Adds a token that hangs nowhere. -/
def addToken (f : Forest) (kind : TokenKind) (text : String) : TokenId × Forest :=
  (⟨f.tokens.size⟩, { f with tokens := f.tokens.push { kind, text } })

/-- Adds an element without children that hangs nowhere. -/
def addBareElement (f : Forest) (kind : ElementKind) : ElementId × Forest :=
  (⟨f.elements.size⟩, { f with elements := f.elements.push { kind } })

/-- Records a parent in nodes, one after the other; each must hang nowhere when its turn comes. -/
def adopt (parent : ElementId) : List NodeId → Forest → Except Fault Forest
  | [], f => .ok f
  | node :: rest, f =>
    match f.parent? node with
    | some _ => .error (.alreadyAttached node)
    | none => adopt parent rest (f.setParent node parent)

/-- Adds an element that takes in nodes as its children; they must hang nowhere. -/
def addElement (f : Forest) (kind : ElementKind) (children : List NodeId) :
    Except Fault (ElementId × Forest) :=
  let (id, bare) := f.addBareElement kind
  match adopt id children bare with
  | .error fault => .error fault
  | .ok adopted => .ok (id, adopted.setChildren id children)

/-- The list with a new entry directly before the first occurrence of an anchor. -/
def listWithBefore (new anchor : NodeId) : List NodeId → Option (List NodeId)
  | [] => none
  | node :: rest =>
    if node = anchor then some (new :: node :: rest)
    else (listWithBefore new anchor rest).map (node :: ·)

/-- Puts a node that hangs nowhere into an element, directly before one of its children. -/
def insertBefore (f : Forest) (parent : ElementId) (new anchor : NodeId) : Except Fault Forest :=
  match f.parent? new with
  | some _ => .error (.alreadyAttached new)
  | none =>
    match listWithBefore new anchor (f.children parent) with
    | none => .error (.notAChild anchor parent)
    | some children => .ok ((f.setChildren parent children).setParent new parent)

end Forest

end DeclVisibility
