import DeclVisibility.Tree.Builder

/-!
# Drafts

A draft is a tree as it is exchanged: without numbers and links, and with the text of a token left
out where its kind fixes the spelling. A draft can be loaded if it is an element and every token in
it is spelled as its kind demands (`Draft.events`); otherwise the first misfit in text order is
named. In the other direction every subtree has a draft, with all texts written out.
-/

namespace DeclVisibility

/-- The exchanged form of a node. -/
inductive Draft where
  | token (kind : TokenKind) (text? : Option String)
  | element (kind : ElementKind) (children : List Draft)
  deriving Repr

/-- Why a draft is no tree. -/
inductive Misfit where
  /-- The root is a token. -/
  | tokenRoot (kind : TokenKind)
  /-- A token whose kind leaves the text free has none. -/
  | textMissing (kind : TokenKind)
  /-- A token whose kind fixes the text has another one. -/
  | misspelled (kind : TokenKind) (spelling given : String)
  deriving DecidableEq, Repr

/-- The wording of a misfit. -/
def Misfit.message : Misfit → String
  | tokenRoot kind => "root must be an element, not token " ++ kind.label
  | textMissing kind => "token " ++ kind.label ++ " requires text"
  | misspelled kind spelling given =>
    "token " ++ kind.label ++ " must be spelled " ++ Text.quote spelling ++ ", not " ++
      Text.quote given

namespace Draft

/-- The text of a token: the one given, which must be the fixed spelling if there is one. -/
def tokenText (kind : TokenKind) (text? : Option String) : Except Misfit String :=
  match text?, kind.spelling? with
  | some text, some spelling =>
    if text = spelling then .ok text else .error (.misspelled kind spelling text)
  | some text, none => .ok text
  | none, some spelling => .ok spelling
  | none, none => .error (.textMissing kind)

mutual
/-- The events of a walk over the node, or its first misfit in text order. -/
def walk : Draft → Except Misfit (List Event)
  | token kind text? =>
    match tokenText kind text? with
    | .error misfit => .error misfit
    | .ok text => .ok [.token kind text]
  | element kind children =>
    match walkAll children with
    | .error misfit => .error misfit
    | .ok inner => .ok (.start kind :: inner ++ [.finish])
/-- The events of walks over nodes that stand side by side. -/
def walkAll : List Draft → Except Misfit (List Event)
  | [] => .ok []
  | child :: rest =>
    match child.walk with
    | .error misfit => .error misfit
    | .ok first =>
      match walkAll rest with
      | .error misfit => .error misfit
      | .ok others => .ok (first ++ others)
end

/-- The events of a walk over the draft of a whole tree, or the first misfit. -/
def events : Draft → Except Misfit (List Event)
  | token kind _ => .error (.tokenRoot kind)
  | element kind children => (element kind children).walk

end Draft

namespace Subtree

mutual
/-- The draft of a subtree. -/
def draft : Subtree → Draft
  | token leaf => .token leaf.kind (some leaf.text)
  | element _ kind children => .element kind (draftAll children)
/-- The drafts of subtrees that stand side by side. -/
def draftAll : List Subtree → List Draft
  | [] => []
  | child :: rest => child.draft :: draftAll rest
end

end Subtree

end DeclVisibility
