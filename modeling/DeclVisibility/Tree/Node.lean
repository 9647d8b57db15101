import DeclVisibility.Kind.Token
import DeclVisibility.Kind.Element

/-!
# Names of nodes

A node is a token or an element. Tokens and elements are numbered apart, each from zero, so a node
is named by its sort and its number. `NodeId.label` is the written form of such a name.
-/

namespace DeclVisibility

/-- The number of a token. -/
structure TokenId where
  num : Nat
  deriving DecidableEq, Repr

/-- The number of an element. -/
structure ElementId where
  num : Nat
  deriving DecidableEq, Repr

/-- The name of a node. -/
inductive NodeId where
  | token (id : TokenId)
  | element (id : ElementId)
  deriving DecidableEq, Repr

/-- The kind of a node. -/
inductive NodeKind where
  | token (kind : TokenKind)
  | element (kind : ElementKind)
  deriving DecidableEq, Repr

namespace NodeId

/-- The element that the name stands for, unless it is a token. -/
def element? : NodeId → Option ElementId
  | token _ => none
  | element id => some id

/-- The token that the name stands for, unless it is an element. -/
def token? : NodeId → Option TokenId
  | token id => some id
  | element _ => none

/-- The written form of the name. -/
def label : NodeId → String
  | token id => "token#" ++ toString id.num
  | element id => "element#" ++ toString id.num

end NodeId

namespace NodeKind

/-- Whether nodes of this kind carry no meaning; elements always do. -/
def isTrivia : NodeKind → Bool
  | token kind => kind.isTrivia
  | element _ => false

/-- The name of the kind. -/
def label : NodeKind → String
  | token kind => kind.label
  | element kind => kind.label

end NodeKind

end DeclVisibility
