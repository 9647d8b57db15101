/-!
# Kinds of elements

The elements of a tree are the source file, the declarations, and the parts of a declaration's
head that matter for its visibility; types and blocks are only runs of tokens. As for tokens,
`ElementKind.ofLabel?` reads labels back (`ofLabel?_label`).
-/

namespace DeclVisibility

/-- The kind of an element. -/
inductive ElementKind where
  | sourceFile
  /-- An attribute in front of a declaration. -/
  | attr
  /-- A written visibility. -/
  | vis
  /-- A written calling convention. -/
  | externAbi
  /-- The name of a declaration. -/
  | name
  | paramList
  | param
  | selfParam
  | retType
  | ty
  | block
  | namedFieldList
  | tupleFieldList
  | variantList
  /-- The body of a trait or of an implementation. -/
  | assocItemList
  | fnItem
  | structItem
  | enumItem
  | traitItem
  | implItem
  | constItem
  | staticItem
  | typeAlias
  | modItem
  | namedFieldDecl
  | tupleFieldDecl
  | enumVariant
  deriving DecidableEq, Repr

namespace ElementKind

/-- All kinds of elements. -/
def all : List ElementKind :=
  [sourceFile, attr, vis, externAbi, name, paramList, param, selfParam, retType, ty, block,
    namedFieldList, tupleFieldList, variantList, assocItemList, fnItem, structItem, enumItem,
    traitItem, implItem, constItem, staticItem, typeAlias, modItem, namedFieldDecl,
    tupleFieldDecl, enumVariant]

/-- The name of the kind. -/
def label : ElementKind → String
  | sourceFile => "SourceFile" | attr => "Attr" | vis => "Vis" | externAbi => "ExternAbi"
  | name => "Name" | paramList => "ParamList" | param => "Param" | selfParam => "SelfParam"
  | retType => "RetType" | ty => "Ty" | block => "Block" | namedFieldList => "NamedFieldList"
  | tupleFieldList => "TupleFieldList" | variantList => "VariantList"
  | assocItemList => "AssocItemList" | fnItem => "FnItem" | structItem => "StructItem"
  | enumItem => "EnumItem" | traitItem => "TraitItem" | implItem => "ImplItem"
  | constItem => "ConstItem" | staticItem => "StaticItem" | typeAlias => "TypeAlias"
  | modItem => "ModItem" | namedFieldDecl => "NamedFieldDecl"
  | tupleFieldDecl => "TupleFieldDecl" | enumVariant => "EnumVariant"

/-- The kind with this label. -/
def ofLabel? (s : String) : Option ElementKind := all.find? fun k => k.label == s

/-- Whether elements of this kind are declarations that can carry a visibility. -/
def isVisibleDecl : ElementKind → Bool
  | fnItem | structItem | enumItem | traitItem | constItem | staticItem | typeAlias | modItem
  | namedFieldDecl | tupleFieldDecl | enumVariant => true
  | _ => false

/-- Reading a label back gives the kind that it names. -/
theorem ofLabel?_label (k : ElementKind) : ofLabel? k.label = some k := by
  cases k <;> decide

end ElementKind

end DeclVisibility
