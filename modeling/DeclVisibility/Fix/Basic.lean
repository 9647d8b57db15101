import DeclVisibility.Tree.Basic
import DeclVisibility.Visibility

/-!
# Making a declaration public

A fix makes one private declaration public, or public within its crate. It is offered only where
the visibility is the declaration's own to have (`Forest.offerFix`): a variant follows its enum, a
member of a trait follows the trait, and code outside the workspace cannot be edited. Applying it
(`Fix.invoke`) puts a visibility and a blank before the anchor and tells the edit of the text.

A visibility goes in front of a declaration's modifiers and behind its attributes. The place is
found from the declaration's name: going back over the siblings that carry meaning, as long as
none of them is an attribute, leads to the foremost modifier, the anchor to insert before
(`Forest.anchorOf`).
-/

namespace DeclVisibility

/-! ## Offers -/

/-- A change of a text: what stands in a range is replaced. -/
structure Edit where
  range : Range
  newText : String
  deriving DecidableEq, Repr

/-- An offer to write a visibility for a private declaration. -/
structure Fix where
  decl : ElementId
  title : String
  scope : Scope
  deriving DecidableEq, Repr

/-- The common name of all these fixes. -/
def Fix.family : String := "Make public"

/-- The title of a fix for a declaration with this name. -/
def Fix.titleFor : Option String → String
  | some name => "Make `" ++ name ++ "` public"
  | none => "Make public"

/-- The kind of the element that the parent of an element hangs in. -/
def Forest.grandparentKind? (f : Forest) (id : ElementId) : Option ElementKind :=
  ((f.parent? (.element id)).bind fun parent => f.parent? (.element parent)).bind f.elementKind?

/-- Whether a private declaration may be made public, its visibility apart: it has a name, it
follows neither an enum nor a trait, and it may be edited. -/
def Forest.isFixable (f : Forest) (decl : ElementId) (origin? : Option Origin) : Bool :=
  f.elementKind? decl != some .enumVariant &&
    f.grandparentKind? decl != some .traitItem &&
    origin? == some .workspace &&
    (f.childElement? decl .name).isSome

/-- Offers a fix for a declaration, if it can carry a visibility, has none, and may be fixed. -/
def Forest.offerFix (f : Forest) (decl : ElementId) (name? : Option String) (scope : Scope)
    (origin? : Option Origin) : Logged (Option Fix) := do
  if (f.elementKind? decl).any ElementKind.isVisibleDecl then
    let visibility ← f.visibilityOf decl
    if visibility.isPrivate && f.isFixable decl origin? then
      pure (some { decl, title := Fix.titleFor name?, scope })
    else pure none
  else pure none

/-! ## Where a visibility goes -/

namespace Forest

/-- Goes back from an anchor over siblings that carry meaning, up to an attribute, for at most
`fuel` siblings. -/
def backOverModifiers (f : Forest) : Nat → NodeId → Logged NodeId
  | 0, anchor => pure anchor
  | fuel + 1, anchor => do
    match ← f.prevMeaningful anchor with
    | none => pure anchor
    | some before =>
      if f.kind? before = some (.element .attr) then pure anchor
      else f.backOverModifiers fuel before

/-- The node to insert a visibility before, for a declaration with this name. The name must hang in
an element. -/
def anchorOf (f : Forest) (name : NodeId) : Attempt NodeId :=
  match f.parent? name with
  | none => Attempt.fault (.detached name)
  | some _ => Attempt.ofLogged (f.backOverModifiers (f.siblingCount name) name)

end Forest

/-! ## Writing a visibility -/

/-- Puts a visibility and a blank into a tree, before an anchor. Gives the two new nodes. -/
def Forest.insertVisibility (f : Forest) (anchor : NodeId) (scope : Scope) :
    Except Fault (List NodeId × Forest) :=
  match f.parent? anchor with
  | none => .error (.detachedAnchor anchor)
  | some parent => do
    let (vis, f) ← f.addVisibility scope
    let f ← f.insertBefore parent (.element vis) anchor
    let (space, f) := f.addSpace
    let f ← f.insertBefore parent (.token space) anchor
    .ok ([.element vis, .token space], f)

/-- Writes the visibility of the fix before the anchor of its declaration, for a declaration that
the tree holds. Without a name in it, or out of reach of the root, nothing changes. -/
def Fix.write (fix : Fix) (t : Tree) : Attempt (Option (Edit × Tree)) :=
  match t.childElement? fix.decl .name with
  | none => do
    Attempt.ofLogged (Logged.report (.namelessDeclaration fix.decl))
    pure none
  | some name => do
    let anchor ← t.anchorOf (.element name)
    match t.offsetOf? anchor with
    | none => pure none
    | some start =>
      if t.parent? anchor = some fix.decl then
        let (nodes, forest) ← Attempt.ofExcept (t.insertVisibility anchor fix.scope)
        let newText := String.join (nodes.map forest.nodeText)
        pure (some (⟨Range.emptyAt start, newText⟩, t.withForest forest))
      else Attempt.fault .anchorOutside

/-- Applies the fix to a tree, which must hold the declaration. -/
def Fix.invoke (fix : Fix) (t : Tree) : Attempt (Option (Edit × Tree)) :=
  if t.holds (.element fix.decl) then fix.write t
  else Attempt.fault (.outOfTable t.elements.size fix.decl.num)

end DeclVisibility
