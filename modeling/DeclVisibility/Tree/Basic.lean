import DeclVisibility.Tree.Forest

/-!
# Trees

A tree is a forest with a root. Beside the text of the whole, this module holds the walks along the
links: to the siblings of a node, to the nearest sibling that carries meaning, over the elements
below an element (`Forest.descendants`), and from a node to its position.

A sibling is found through the parent's child list, so a parent that does not list the node is
noticed and reported. The walks follow links, so each is given as many steps as there are nodes
for it to meet.
-/

namespace DeclVisibility

/-- A forest with a root. -/
structure Tree extends Forest where
  root : ElementId
  deriving Repr

namespace Forest

/-! ## Siblings -/

/-- The parent of a node and the place of the node among its children. -/
def placeInParent? (f : Forest) (node : NodeId) : Logged (Option (ElementId × Nat)) :=
  match f.parent? node with
  | none => pure none
  | some parent =>
    match (f.children parent).idxOf? node with
    | some index => pure (some (parent, index))
    | none => do
      Logged.report (.brokenLink node parent)
      pure none

/-- The child before a node in its parent. -/
def prevSibling (f : Forest) (node : NodeId) : Logged (Option NodeId) := do
  match ← f.placeInParent? node with
  | some (parent, index + 1) => pure (f.children parent)[index]?
  | _ => pure none

/-- The child after a node in its parent. -/
def nextSibling (f : Forest) (node : NodeId) : Logged (Option NodeId) := do
  match ← f.placeInParent? node with
  | some (parent, index) => pure (f.children parent)[index + 1]?
  | none => pure none

/-- Whether a node is a space or a comment. -/
def isTrivia (f : Forest) (node : NodeId) : Bool :=
  match f.kind? node with
  | some kind => kind.isTrivia
  | none => false

/-- The number of children of a node's parent. -/
def siblingCount (f : Forest) (node : NodeId) : Nat :=
  match f.parent? node with
  | some parent => (f.children parent).length
  | none => 0

/-- From a node on, the first one that is no trivia, going back over at most `fuel` siblings. -/
def backOverTrivia (f : Forest) : Nat → NodeId → Logged (Option NodeId)
  | 0, _ => pure none
  | fuel + 1, node =>
    if f.isTrivia node then do
      match ← f.prevSibling node with
      | none => pure none
      | some before => f.backOverTrivia fuel before
    else pure (some node)

/-- The nearest sibling before a node that is neither a space nor a comment. -/
def prevMeaningful (f : Forest) (node : NodeId) : Logged (Option NodeId) := do
  match ← f.prevSibling node with
  | none => pure none
  | some before => f.backOverTrivia (f.siblingCount node) before

/-! ## Elements below an element -/

/-- Visits the elements on a stack, whose top comes first: each is put out and replaced by its
child elements. -/
def visit (f : Forest) : Nat → List ElementId → List ElementId
  | 0, _ => []
  | _ + 1, [] => []
  | fuel + 1, id :: rest => id :: f.visit fuel (f.elementChildren id ++ rest)

/-- An element and all elements below it, each before those below it. -/
def descendants (f : Forest) (id : ElementId) : List ElementId := f.visit f.elements.size [id]

end Forest

namespace Tree

/-- The text of the whole tree. -/
def text (t : Tree) : String := t.nodeText (.element t.root)

/-- The tree as one nested value. -/
def whole? (t : Tree) : Option Subtree := t.subtree? (.element t.root)

/-- The position at which a node starts, if it can be reached from the root. -/
def offsetOf? (t : Tree) (node : NodeId) : Option Position :=
  t.whole?.bind fun whole => (whole.seek node .zero).position?

/-- The tree with another forest around the same root. -/
def withForest (t : Tree) (f : Forest) : Tree := { t with toForest := f }

end Tree

end DeclVisibility
