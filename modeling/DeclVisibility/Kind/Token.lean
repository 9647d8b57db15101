/-!
# Kinds of tokens

A token is a keyword, a punctuation mark, or one of six kinds whose text is free. Keywords and
punctuation marks have a fixed spelling (`TokenKind.spelling?`); spaces and comments are trivia,
which carries no meaning. Every kind has a label, by which trees are exchanged and shown, and
`TokenKind.ofLabel?` reads labels back (`ofLabel?_label`).
-/

namespace DeclVisibility

/-- The keywords that a tree tells apart. -/
inductive Keyword where
  | asyncKw | constKw | crateKw | enumKw | externKw | fnKw | forKw | implKw | inKw | modKw
  | mutKw | pubKw | selfKw | staticKw | structKw | superKw | traitKw | typeKw | unsafeKw | useKw
  deriving DecidableEq, Repr

/-- The punctuation marks that a tree tells apart. -/
inductive Punct where
  | ampersand | bang | colon | colonColon | comma | dot | equal | hash
  | leftAngle | leftBrace | leftBracket | leftParen
  | rightAngle | rightBrace | rightBracket | rightParen
  | slimArrow | semi | star
  deriving DecidableEq, Repr

namespace Keyword

/-- All keywords. -/
def all : List Keyword :=
  [asyncKw, constKw, crateKw, enumKw, externKw, fnKw, forKw, implKw, inKw, modKw,
    mutKw, pubKw, selfKw, staticKw, structKw, superKw, traitKw, typeKw, unsafeKw, useKw]

/-- The word as it stands in a text. -/
def spelling : Keyword → String
  | asyncKw => "async" | constKw => "const" | crateKw => "crate" | enumKw => "enum"
  | externKw => "extern" | fnKw => "fn" | forKw => "for" | implKw => "impl" | inKw => "in"
  | modKw => "mod" | mutKw => "mut" | pubKw => "pub" | selfKw => "self" | staticKw => "static"
  | structKw => "struct" | superKw => "super" | traitKw => "trait" | typeKw => "type"
  | unsafeKw => "unsafe" | useKw => "use"

/-- The name of the kind. -/
def label : Keyword → String
  | asyncKw => "Async" | constKw => "Const" | crateKw => "Crate" | enumKw => "Enum"
  | externKw => "Extern" | fnKw => "Fn" | forKw => "For" | implKw => "Impl" | inKw => "In"
  | modKw => "Mod" | mutKw => "Mut" | pubKw => "Pub" | selfKw => "SelfLower"
  | staticKw => "Static" | structKw => "Struct" | superKw => "Super" | traitKw => "Trait"
  | typeKw => "Type" | unsafeKw => "Unsafe" | useKw => "Use"

end Keyword

namespace Punct

/-- All punctuation marks. -/
def all : List Punct :=
  [ampersand, bang, colon, colonColon, comma, dot, equal, hash, leftAngle, leftBrace,
    leftBracket, leftParen, rightAngle, rightBrace, rightBracket, rightParen, slimArrow, semi,
    star]

/-- The mark as it stands in a text. -/
def spelling : Punct → String
  | ampersand => "&" | bang => "!" | colon => ":" | colonColon => "::" | comma => ","
  | dot => "." | equal => "=" | hash => "#" | leftAngle => "<" | leftBrace => "\x7b"
  | leftBracket => "[" | leftParen => "(" | rightAngle => ">" | rightBrace => "\x7d"
  | rightBracket => "]" | rightParen => ")" | slimArrow => "->" | semi => ";" | star => "*"

/-- The name of the kind. -/
def label : Punct → String
  | ampersand => "And" | bang => "Bang" | colon => "Colon" | colonColon => "ColonColon"
  | comma => "Comma" | dot => "Dot" | equal => "Equal" | hash => "Hash"
  | leftAngle => "LeftAngle" | leftBrace => "LeftBrace" | leftBracket => "LeftBracket"
  | leftParen => "LeftParen" | rightAngle => "RightAngle" | rightBrace => "RightBrace"
  | rightBracket => "RightBracket" | rightParen => "RightParen" | slimArrow => "RightSlimArrow"
  | semi => "Semi" | star => "Star"

end Punct

/-- The kind of a token. -/
inductive TokenKind where
  | space
  | comment
  | ident
  | number
  | str
  /-- A token that whoever made the tree left unclassified, such as the inside of an attribute. -/
  | other
  | keyword (word : Keyword)
  | punct (mark : Punct)
  deriving DecidableEq, Repr

namespace TokenKind

/-- All kinds of tokens. -/
def all : List TokenKind :=
  [space, comment, ident, number, str, other] ++ Keyword.all.map keyword ++ Punct.all.map punct

/-- The name of the kind. -/
def label : TokenKind → String
  | space => "Space" | comment => "Comment" | ident => "Ident" | number => "Number"
  | str => "Str" | other => "Other"
  | keyword word => word.label
  | punct mark => mark.label

/-- The kind with this label. -/
def ofLabel? (s : String) : Option TokenKind := all.find? fun k => k.label == s

/-- The only text that a token of this kind may have, if its kind fixes the text. -/
def spelling? : TokenKind → Option String
  | keyword word => some word.spelling
  | punct mark => some mark.spelling
  | _ => none

/-- Whether tokens of this kind carry no meaning. -/
def isTrivia : TokenKind → Bool
  | space | comment => true
  | _ => false

/-- Reading a label back gives the kind that it names. -/
theorem ofLabel?_label (k : TokenKind) : ofLabel? k.label = some k := by
  cases k with
  | keyword word => cases word <;> decide
  | punct mark => cases mark <;> decide
  | _ => decide

end TokenKind

end DeclVisibility
