import DeclVisibility.Tree.Basic

/-!
# Building trees

A tree is built from the events of a walk over it: an element starts, a token is met, an element
finishes. Tokens are numbered when they are met and elements when they finish, so an element has a
larger number than all elements below it and the root has the largest. The events must be those of
one balanced element with every token inside it; anything else is a fault.
-/

namespace DeclVisibility

/-- A step of a walk over a tree. -/
inductive Event where
  | start (kind : ElementKind)
  | token (kind : TokenKind) (text : String)
  | finish
  deriving DecidableEq, Repr

/-- A tree in the making. -/
structure Builder where
  /-- The tokens met and the elements finished so far. -/
  forest : Forest := .empty
  /-- The elements that have not finished, innermost first, with their children so far. -/
  opened : List (ElementKind × List NodeId) := []
  /-- The outermost element, once it has finished. -/
  root : Option ElementId := none
  deriving Repr

namespace Builder

/-- Nothing built yet. -/
def new : Builder := {}

/-- Starts an element inside the innermost open one. -/
def start (b : Builder) (kind : ElementKind) : Except Fault Builder :=
  match b.root with
  | some _ => .error .rootFinished
  | none => .ok { b with opened := (kind, []) :: b.opened }

/-- Adds a token to the innermost open element. -/
def token (b : Builder) (kind : TokenKind) (text : String) : Except Fault Builder :=
  match b.opened with
  | [] => .error (.tokenOutside kind)
  | (parent, children) :: outer =>
    let (id, forest) := b.forest.addToken kind text
    .ok { b with forest, opened := (parent, children ++ [.token id]) :: outer }

/-- Adds an element with children, recording it as their parent. -/
def close (f : Forest) (kind : ElementKind) (children : List NodeId) : ElementId × Forest :=
  let (id, bare) := f.addBareElement kind
  (id, (children.foldl (fun g child => g.setParent child id) bare).setChildren id children)

/-- Finishes the innermost open element. -/
def finish (b : Builder) : Except Fault Builder :=
  match b.opened with
  | [] => .error .finishWithoutStart
  | (kind, children) :: outer =>
    let (id, forest) := close b.forest kind children
    match outer with
    | [] => .ok { forest, opened := [], root := some id }
    | (parent, siblings) :: further =>
      .ok { b with forest, opened := (parent, siblings ++ [.element id]) :: further }

/-- Takes in one event. -/
def step (b : Builder) : Event → Except Fault Builder
  | .start kind => b.start kind
  | .token kind text => b.token kind text
  | .finish => b.finish

/-- Takes in events, up to the first fault. -/
def run : List Event → Builder → Except Fault Builder
  | [], b => .ok b
  | event :: rest, b =>
    match b.step event with
    | .error fault => .error fault
    | .ok next => run rest next

/-- The finished tree. -/
def build (b : Builder) : Except Fault Tree :=
  match b.opened with
  | _ :: _ => .error (.unfinished b.opened.length)
  | [] =>
    match b.root with
    | none => .error .emptyTree
    | some root => .ok { b.forest with root }

end Builder

/-- The tree that a walk with these events goes over. -/
def Tree.ofEvents (events : List Event) : Except Fault Tree :=
  match Builder.run events .new with
  | .error fault => .error fault
  | .ok built => built.build

end DeclVisibility
