import DeclVisibility.Text.Position
import DeclVisibility.Text.Quoted
import DeclVisibility.Tree.Node

/-!
# Subtrees

A node together with all that is below it, as one nested value. Everything that is read off the
whole of a tree is a structural recursion here: its tokens in text order (`Subtree.leaves`), its
text, its text without trivia, the position at which a node below it starts (`Subtree.seek`), and
its two shown forms. A token of fixed spelling is shown by its kind and any other by its text in
quotes; an element is shown by its kind and the list of its children, on one line
(`Subtree.line`) or with a child per line (`Subtree.block`).
-/

namespace DeclVisibility

/-- A token of a subtree. -/
structure Leaf where
  id : TokenId
  kind : TokenKind
  text : String
  deriving DecidableEq, Repr

/-- A node and all that is below it. -/
inductive Subtree where
  | token (leaf : Leaf)
  | element (id : ElementId) (kind : ElementKind) (children : List Subtree)
  deriving Repr

namespace Subtree

/-- The name of the node at the top. -/
def id : Subtree → NodeId
  | token leaf => .token leaf.id
  | element id _ _ => .element id

/-! ## Texts -/

mutual
/-- The tokens, in text order. -/
def leaves : Subtree → List Leaf
  | token leaf => [leaf]
  | element _ _ children => leavesOfAll children
/-- The tokens of subtrees that stand side by side. -/
def leavesOfAll : List Subtree → List Leaf
  | [] => []
  | child :: rest => child.leaves ++ leavesOfAll rest
end

/-- The text of a run of tokens. -/
def textOfLeaves (leaves : List Leaf) : String := String.join (leaves.map (·.text))

/-- The text of the subtree. -/
def text (s : Subtree) : String := textOfLeaves s.leaves

/-- The text of the subtree without spaces and comments. -/
def nonTriviaText (s : Subtree) : String :=
  textOfLeaves (s.leaves.filter fun leaf => !leaf.kind.isTrivia)

/-! ## Positions -/

/-- How far a walk over a subtree got in search of a node. -/
inductive Search where
  /-- The node starts here. -/
  | found (start : Position)
  /-- The node is not in what was walked over, which ends here. -/
  | passed (stop : Position)
  deriving DecidableEq, Repr

/-- The position of the node, if the walk found it. -/
def Search.position? : Search → Option Position
  | .found start => some start
  | .passed _ => none

mutual
/-- Walks over the subtree in text order from a position on, up to the start of a node. -/
def seek (target : NodeId) (pos : Position) : Subtree → Search
  | token leaf =>
    if NodeId.token leaf.id = target then .found pos
    else .passed (pos + Position.ofString leaf.text)
  | element id _ children =>
    if NodeId.element id = target then .found pos else seekAll target pos children
/-- Walks over subtrees that stand side by side. -/
def seekAll (target : NodeId) (pos : Position) : List Subtree → Search
  | [] => .passed pos
  | child :: rest =>
    match child.seek target pos with
    | .found start => .found start
    | .passed stop => seekAll target stop rest
end

/-! ## Shown forms -/

/-- A token as shown: free text in quotes, fixed text by the name of its kind. -/
def shownLeaf (leaf : Leaf) : List Char :=
  match leaf.kind.spelling? with
  | some _ => leaf.kind.label.toList
  | none => Text.quoteChars leaf.text.toList

mutual
/-- The characters of the shown form on one line. -/
def lineChars : Subtree → List Char
  | token leaf => shownLeaf leaf
  | element _ kind children =>
    kind.label.toList ++ [' ', '['] ++ [',', ' '].intercalate (linesOfAll children) ++ [']']
/-- The shown forms of subtrees that stand side by side. -/
def linesOfAll : List Subtree → List (List Char)
  | [] => []
  | child :: rest => child.lineChars :: linesOfAll rest
end

/-- The shown form on one line. -/
def line (s : Subtree) : String := String.ofList s.lineChars

/-- Four blanks for each level of nesting. -/
def indent (depth : Nat) : List Char := List.replicate (4 * depth) ' '

mutual
/-- The characters of the shown form with a child per line, for a subtree whose own line is
indented by `depth` levels. -/
def blockChars (depth : Nat) : Subtree → List Char
  | token leaf => shownLeaf leaf
  | element _ kind children =>
    kind.label.toList ++
      (if children.isEmpty then [' ', '[', ']']
      else [' ', '[', '\n'] ++ blocksOfAll (depth + 1) children ++ indent depth ++ [']'])
/-- The lines of subtrees that stand side by side. -/
def blocksOfAll (depth : Nat) : List Subtree → List Char
  | [] => []
  | child :: rest =>
    indent depth ++ child.blockChars depth ++ [',', '\n'] ++ blocksOfAll depth rest
end

/-- The shown form with a child per line. -/
def block (s : Subtree) : String := String.ofList (s.blockChars 0)

end Subtree

end DeclVisibility
