import DeclVisibility.Fix.Basic
import DeclVisibility.Symbol
import DeclVisibility.Text.Bounded

/-!
# Outlines

The outline of a tree lists every declaration below its root once, in text order, with how deep it
is nested in other symbols, where it starts, how it is shown, and whether a fix is on offer for it
(`Tree.outline`). `renderOutline` writes an outline with a line for each item, set in by its depth
as far as a margin can go, and with its position as long as that can be written.
-/

namespace DeclVisibility

/-- What an outline tells about a declaration. -/
structure OutlineItem where
  /-- The name, empty if there is none. -/
  name : String
  /-- How many symbols are around the declaration. -/
  depth : Nat
  pos : Position
  visibility : Visibility
  presentation : Presentation
  /-- The texts of a method's parameters. -/
  declarations : List String
  /-- Whether the declaration can be made public. -/
  fixable : Bool
  deriving DecidableEq, Repr

/-- An item with the declaration that it tells about. -/
structure OutlineEntry where
  decl : ElementId
  item : OutlineItem
  deriving DecidableEq, Repr

namespace Tree

/-- How a declaration of a sort is shown in an outline. An implementation carries no mark. -/
def presentationOf (t : Tree) (decl : ElementId) (kind : SymbolKind) (visibility : Visibility) :
    Logged Presentation :=
  match t.method? decl with
  | some m => t.methodPresentation m true
  | none =>
    pure { kind, isStatic := false,
           mark? := if kind = .impl then none else some (Mark.of visibility) }

/-- The texts of the parameters of a declaration, if it is a method. -/
def parameterTexts (t : Tree) (decl : ElementId) : List String :=
  match t.method? decl with
  | some m => (t.methodDeclarations m).map fun param => Text.trim (t.nodeText (.element param))
  | none => []

/-- The entry of a declaration of a sort, at a position. -/
def outlineEntry (t : Tree) (origin? : Option Origin) (decl : ElementId) (kind : SymbolKind)
    (depth : Nat) (pos : Position) : Logged OutlineEntry := do
  let visibility ← t.visibilityOf decl
  let presentation ← t.presentationOf decl kind visibility
  let fix? ← t.offerFix decl none .pub origin?
  pure {
    decl
    item := {
      name := (t.symbolName? decl).getD ""
      depth, pos, visibility, presentation
      declarations := t.parameterTexts decl
      fixable := fix?.isSome } }

mutual
/-- The entries of a node of the tree and of what is below it, inside `depth` symbols. -/
def collect (t : Tree) (origin? : Option Origin) (depth : Nat) :
    Subtree → Logged (List OutlineEntry)
  | .token _ => pure []
  | .element decl kind children =>
    match SymbolKind.ofElementKind? kind with
    | none => collectAll t origin? depth children
    | some symbol =>
      match t.offsetOf? (.element decl) with
      | none => do
        Logged.report (.unreachableDeclaration decl)
        pure []
      | some pos => do
        let entry ← t.outlineEntry origin? decl symbol depth pos
        let inner ← collectAll t origin? (depth + 1) children
        pure (entry :: inner)
/-- The entries of nodes that stand side by side. -/
def collectAll (t : Tree) (origin? : Option Origin) (depth : Nat) :
    List Subtree → Logged (List OutlineEntry)
  | [] => pure []
  | child :: rest => do
    let first ← collect t origin? depth child
    let others ← collectAll t origin? depth rest
    pure (first ++ others)
end

/-- The entries of all declarations below the root. -/
def outlineEntries (t : Tree) (origin? : Option Origin) : Logged (List OutlineEntry) :=
  match t.whole? with
  | some (.element _ _ children) => t.collectAll origin? 0 children
  | _ => pure []

/-- The outline of the tree, for code of an origin. -/
def outline (t : Tree) (origin? : Option Origin) : Logged (List OutlineItem) := do
  let entries ← t.outlineEntries origin?
  pure (entries.map (·.item))

end Tree

namespace OutlineItem

/-- The marks of an item, in their order. -/
def marks (item : OutlineItem) : List String :=
  (if item.presentation.isStatic then ["static"] else []) ++
    (match item.presentation.mark? with
    | some .pub => ["public"]
    | some .priv => ["private"]
    | none => []) ++
    (if item.fixable then ["fixable"] else [])

/-- The widest margin that a line can have. -/
def marginLimit : Nat := 65535

/-- The width of an item's margin: two blanks for each level. It has to be a number of 64 bits, and
one within the limit. -/
def margin (item : OutlineItem) : Except Fault Nat :=
  let width := 2 * item.depth
  if 0x10000000000000000 ≤ width then .error .depthOverflow
  else if marginLimit < width then .error .marginTooWide
  else .ok width

/-- What stands on the line of an item: the sort and the name, the parameters of a method, the
position, and the marks in brackets. -/
def body (item : OutlineItem) : Except Fault String := do
  let place ← item.pos.display
  return item.presentation.kind.word ++ " " ++ item.name ++
    (if item.presentation.kind = .method then "(" ++ ", ".intercalate item.declarations ++ ")"
    else "") ++
    "  " ++ place ++
    (if item.marks.isEmpty then "" else "  [" ++ " ".intercalate item.marks ++ "]")

/-- The line of an item, behind its margin. -/
def render (item : OutlineItem) : Except Fault String := do
  let width ← item.margin
  let body ← item.body
  return String.ofList (List.replicate width ' ') ++ body ++ "\n"

end OutlineItem

/-- The written form of an outline, a line for each item, unless one of them has no margin or stands
at a position that cannot be written. -/
def renderOutline : List OutlineItem → Except Fault String
  | [] => .ok ""
  | item :: rest =>
    match item.render with
    | .error fault => .error fault
    | .ok line =>
      match renderOutline rest with
      | .error fault => .error fault
      | .ok lines => .ok (line ++ lines)

end DeclVisibility
