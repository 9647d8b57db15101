import DeclVisibility.Tree.Forest

/-!
# Written visibility

How visible a declaration is written to be, read off the tokens of its first visibility element
(`Forest.visibilityOf`), and the two visibilities that can be written into a tree
(`Forest.addVisibility`). A declaration without such an element is private. What stands after the
opening parenthesis, if there is one, tells the restrictions apart; spaces and comments count for
nothing anywhere.
-/

namespace DeclVisibility

/-- What a restricted visibility is restricted to. -/
inductive Restriction where
  | crate
  | super
  | selfMod
  | inPath (path : String)
  deriving DecidableEq, Repr

/-- How visible a declaration is written to be. -/
inductive Visibility where
  /-- Nothing is written. -/
  | priv
  /-- Something is written in parentheses; even the module alone counts as a restriction. -/
  | restricted (restriction : Restriction)
  | pub
  deriving DecidableEq, Repr

/-- Whether nothing is written. -/
def Visibility.isPrivate (v : Visibility) : Bool := v == .priv

/-- The visibilities that can be written into a tree. -/
inductive Scope where
  | pub
  | crateOnly
  deriving DecidableEq, Repr

namespace Scope

/-- The scope to write for a declaration that is, or is not, to stay within its crate. -/
def within (oneCrate : Bool) : Scope := if oneCrate then .crateOnly else .pub

/-- Whether the scope stays within one crate. -/
def withinOneCrate (scope : Scope) : Bool := scope == .crateOnly

/-- The fixed tokens that write the scope. -/
def kinds : Scope → List TokenKind
  | pub => [.keyword .pubKw]
  | crateOnly => [.keyword .pubKw, .punct .leftParen, .keyword .crateKw, .punct .rightParen]

/-- The visibility that the scope reads as. -/
def visibility : Scope → Visibility
  | pub => .pub
  | crateOnly => .restricted .crate

end Scope

/-! ## Reading -/

/-- Reads the tokens after the opening parenthesis of a written visibility. -/
def Restriction.ofTokens : List Token → Logged Visibility
  | [] => pure .pub
  | first :: rest =>
    match first.kind with
    | .keyword .crateKw => pure (.restricted .crate)
    | .keyword .superKw => pure (.restricted .super)
    | .keyword .selfKw => pure (.restricted .selfMod)
    | .keyword .inKw =>
      let path := rest.takeWhile fun token => token.kind != .punct .rightParen
      pure (.restricted (.inPath (String.join (path.map (·.text)))))
    | kind => do
      Logged.report (.unknownRestriction kind)
      pure (.restricted (.inPath ""))

/-- Reads the tokens of a visibility element. -/
def Visibility.ofTokens (tokens : List Token) : Logged Visibility :=
  let meaningful := tokens.filter fun token => !token.kind.isTrivia
  let fromParen := meaningful.dropWhile fun token => token.kind != .punct .leftParen
  Restriction.ofTokens (fromParen.drop 1)

/-- How visible a declaration is written to be. -/
def Forest.visibilityOf (f : Forest) (decl : ElementId) : Logged Visibility :=
  match f.childElement? decl .vis with
  | none => pure .priv
  | some vis => Visibility.ofTokens (f.tokenChildren vis)

/-! ## Writing -/

/-- Adds tokens of fixed spelling, which hang nowhere. -/
def Forest.addFixedTokens : List TokenKind → Forest → List NodeId × Forest
  | [], f => ([], f)
  | kind :: rest, f =>
    let (id, added) := f.addToken kind (kind.spelling?.getD "")
    let (ids, all) := addFixedTokens rest added
    (.token id :: ids, all)

/-- Adds a visibility element that writes a scope; it hangs nowhere. -/
def Forest.addVisibility (f : Forest) (scope : Scope) : Except Fault (ElementId × Forest) :=
  let (tokens, added) := Forest.addFixedTokens scope.kinds f
  added.addElement .vis tokens

/-- Adds a single blank, which hangs nowhere. -/
def Forest.addSpace (f : Forest) : TokenId × Forest := f.addToken .space " "

end DeclVisibility
