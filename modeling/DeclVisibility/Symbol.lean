import DeclVisibility.Visibility
import DeclVisibility.Tree.Basic

/-!
# Symbols

What a host shows of a declaration: what sort of symbol it is, its name, and the marks on its icon.
A function inside an implementation is a method; it shows its parameters, and it is static if it
takes no receiver. Names lead to declarations by paths: the last part of a path is the name of the
declaration, and the parts before it name the symbols around it, from the inside out. White space
around a part is left out (`Text.trim`).
-/

namespace DeclVisibility

/-! ## White space -/

namespace Text

/-- Unicode's White_Space property. -/
def isBlank (c : Char) : Bool :=
  let n := c.toNat
  (0x9 ≤ n && n ≤ 0xD) || n == 0x20 || n == 0x85 || n == 0xA0 || n == 0x1680 ||
    (0x2000 ≤ n && n ≤ 0x200A) || n == 0x2028 || n == 0x2029 || n == 0x202F ||
    n == 0x205F || n == 0x3000

/-- The characters without the blanks at either end. -/
def trimChars (cs : List Char) : List Char :=
  ((cs.dropWhile isBlank).reverse.dropWhile isBlank).reverse

/-- The text without the blanks at either end. -/
def trim (s : String) : String := String.ofList (trimChars s.toList)

/-- Whether the text holds nothing but blanks. -/
def isAllBlank (s : String) : Bool := s.toList.all isBlank

end Text

/-! ## Sorts of symbols and their marks -/

/-- The sort of a symbol. -/
inductive SymbolKind where
  | function
  /-- A function inside an implementation. -/
  | method
  | struct
  | enum
  | trait
  | impl
  | const
  | static
  | typeAlias
  | module
  | field
  | variant
  deriving DecidableEq, Repr

namespace SymbolKind

/-- The sort of symbol that elements of a kind declare, if they declare one. -/
def ofElementKind? : ElementKind → Option SymbolKind
  | .fnItem => some function
  | .structItem => some struct
  | .enumItem => some enum
  | .traitItem => some trait
  | .implItem => some impl
  | .constItem => some const
  | .staticItem => some static
  | .typeAlias => some typeAlias
  | .modItem => some module
  | .namedFieldDecl | .tupleFieldDecl => some field
  | .enumVariant => some variant
  | _ => none

/-- The word that stands for the sort in an outline. -/
def word : SymbolKind → String
  | function => "fn" | method => "method" | struct => "struct" | enum => "enum"
  | trait => "trait" | impl => "impl" | const => "const" | static => "static"
  | typeAlias => "type" | module => "mod" | field => "field" | variant => "variant"

/-- The name of the sort. -/
def label : SymbolKind → String
  | function => "Function" | method => "Method" | struct => "Struct" | enum => "Enum"
  | trait => "Trait" | impl => "Impl" | const => "Const" | static => "Static"
  | typeAlias => "TypeAlias" | module => "Mod" | field => "Field" | variant => "Variant"

end SymbolKind

/-- The mark that tells whether a symbol is visible from outside. -/
inductive Mark where
  | pub
  | priv
  deriving DecidableEq, Repr

/-- The mark of a written visibility: whatever is written counts as public. -/
def Mark.of (visibility : Visibility) : Mark := if visibility.isPrivate then .priv else .pub

/-- How a symbol is shown. -/
structure Presentation where
  kind : SymbolKind
  isStatic : Bool
  mark? : Option Mark
  deriving DecidableEq, Repr

namespace Forest

/-- The sort of symbol that an element declares. -/
def symbolKind? (f : Forest) (id : ElementId) : Option SymbolKind :=
  (f.elementKind? id).bind SymbolKind.ofElementKind?

/-! ## Names -/

/-- The name of a declaration. An implementation goes by its type, and a field without a name by
its place among such fields. -/
def symbolName? (f : Forest) (decl : ElementId) : Option String :=
  match f.elementKind? decl with
  | some .implItem => (f.childElement? decl .ty).map f.nonTriviaText
  | some .tupleFieldDecl =>
    (f.parent? (.element decl)).bind fun parent =>
      ((f.childElements parent .tupleFieldDecl).idxOf? decl).map toString
  | _ => (f.childElement? decl .name).map f.nonTriviaText

/-- The nearest symbol around an element, climbing at most `fuel` parents. -/
def climbToSymbol (f : Forest) : Nat → ElementId → Option ElementId
  | 0, _ => none
  | fuel + 1, id =>
    match f.parent? (.element id) with
    | none => none
    | some parent =>
      if (f.symbolKind? parent).isSome then some parent else f.climbToSymbol fuel parent

/-- The nearest symbol around an element. -/
def enclosingSymbol? (f : Forest) (id : ElementId) : Option ElementId :=
  f.climbToSymbol f.elements.size id

/-- Whether the symbols around an element have these names, from the inside out. -/
def isEnclosedBy (f : Forest) : List String → ElementId → Bool
  | [], _ => true
  | name :: outer, id =>
    match f.enclosingSymbol? id with
    | none => false
    | some around => f.symbolName? around == some name && f.isEnclosedBy outer around

/-- Whether a path leads to a declaration. -/
def matchesPath (f : Forest) (decl : ElementId) (path : List String) : Bool :=
  match path.reverse with
  | [] => false
  | last :: outer => f.symbolName? decl == some last && f.isEnclosedBy outer decl

end Forest

/-- The parts of a path, which stand between pairs of colons. -/
def splitPath : List Char → List (List Char)
  | [] => [[]]
  | ':' :: ':' :: rest => [] :: splitPath rest
  | c :: rest =>
    match splitPath rest with
    | [] => [[c]]
    | first :: others => (c :: first) :: others

/-- The parts of a path, without the blanks around them. -/
def pathOf (name : String) : List String :=
  (splitPath name.toList).map fun part => Text.trim (String.ofList part)

/-- The first declaration, in text order, that a name leads to. -/
def Tree.findDecl? (t : Tree) (name : String) : Option ElementId :=
  let path := pathOf name
  (t.descendants t.root).find? fun id =>
    (t.elementKind? id).any ElementKind.isVisibleDecl && t.matchesPath id path

/-! ## Methods -/

/-- A function inside an implementation. -/
structure Method where
  function : ElementId
  deriving DecidableEq, Repr

namespace Forest

/-- The method that an element is, if it is one: a function in the body of an implementation. -/
def method? (f : Forest) (id : ElementId) : Option Method :=
  if f.elementKind? id = some .fnItem then
    match f.parent? (.element id) with
    | none => none
    | some body =>
      if f.elementKind? body = some .assocItemList then
        match f.parent? (.element body) with
        | none => none
        | some owner => if f.elementKind? owner = some .implItem then some ⟨id⟩ else none
      else none
  else none

/-- The parameter list of a method. -/
def methodParams? (f : Forest) (m : Method) : Option ElementId :=
  f.childElement? m.function .paramList

/-- The parameters of a method, without the receiver. -/
def methodDeclarations (f : Forest) (m : Method) : List ElementId :=
  match f.methodParams? m with
  | some params => f.childElements params .param
  | none => []

/-- Whether any visibility is written for a method. -/
def isPublicMethod (f : Forest) (m : Method) : Logged Bool := do
  let visibility ← f.visibilityOf m.function
  pure (!visibility.isPrivate)

/-- Whether a method takes no receiver. -/
def isStaticMethod (f : Forest) (m : Method) : Bool :=
  ((f.methodParams? m).bind fun params => f.childElement? params .selfParam).isNone

/-- How a method is shown, with or without the mark of its visibility. -/
def methodPresentation (f : Forest) (m : Method) (withMark : Bool) : Logged Presentation := do
  let mark? ←
    if withMark then do
      let isPublic ← f.isPublicMethod m
      pure (some (if isPublic then Mark.pub else Mark.priv))
    else pure none
  pure { kind := .method, isStatic := f.isStaticMethod m, mark? }

end Forest

end DeclVisibility
