import DeclVisibility.Tree.Forest

/-!
# A forest as rows

What a forest holds of a node, token or element, is one row (`Forest.row?`). Every operation on a
forest changes the rows of few nodes, and the equations here say which: a node that hangs nowhere
is added as a row of its own, a parent is recorded in one row, a child list is overwritten in one.
Everything else that is read off a forest is read off its rows.
-/

namespace DeclVisibility

/-- What a forest holds of a node. -/
inductive Row where
  | token (held : Token)
  | element (held : Element)
  deriving DecidableEq, Repr

namespace Row

/-- The element that the node hangs in. -/
def parent : Row → Option ElementId
  | token held => held.parent
  | element held => held.parent

/-- The row of the node once it hangs in an element. -/
def hungIn (parent : ElementId) : Row → Row
  | token held => token { held with parent }
  | element held => element { held with parent }

/-- The row of an element with another child list. -/
def listing (children : List NodeId) : Row → Row
  | token held => token held
  | element held => element { held with children }

end Row

theorem TokenId.num_inj {a b : TokenId} : a.num = b.num ↔ a = b := by
  cases a
  cases b
  simp

theorem ElementId.num_inj {a b : ElementId} : a.num = b.num ↔ a = b := by
  cases a
  cases b
  simp

theorem Table.has_iff {α : Type} (t : Table α) (i : Nat) : t.has i = (t.get? i).isSome := by
  by_cases h : i < t.size
  · have h' : i < t.rows.size := h
    simp [has, get?, h, h']
  · have h' : t.rows.size ≤ i := Nat.not_lt.mp h
    simp [has, get?, h, h']

namespace Forest

/-- What a forest holds of a node. -/
def row? (f : Forest) : NodeId → Option Row
  | .token id => (f.token? id).map .token
  | .element id => (f.element? id).map .element

variable {f : Forest}

/-! ## Reading off rows -/

theorem holds_eq (node : NodeId) : f.holds node = (f.row? node).isSome := by
  cases node with
  | token id => simp [holds, row?, token?, Table.has_iff]
  | element id => simp [holds, row?, element?, Table.has_iff]

theorem parent?_eq (node : NodeId) : f.parent? node = (f.row? node).bind Row.parent := by
  cases node with
  | token id => simp [parent?, row?, Option.bind_map, Function.comp_def, Row.parent]
  | element id => simp [parent?, row?, Option.bind_map, Function.comp_def, Row.parent]

theorem element?_of_row? {id : ElementId} {held : Element}
    (h : f.row? (.element id) = some (.element held)) : f.element? id = some held := by
  rw [row?, Option.map_eq_some_iff] at h
  obtain ⟨e, he, heq⟩ := h
  rw [he, Row.element.inj heq]

theorem token?_of_row? {id : TokenId} {held : Token}
    (h : f.row? (.token id) = some (.token held)) : f.token? id = some held := by
  rw [row?, Option.map_eq_some_iff] at h
  obtain ⟨t, ht, heq⟩ := h
  rw [ht, Row.token.inj heq]

theorem children_of_row? {id : ElementId} {held : Element}
    (h : f.row? (.element id) = some (.element held)) : f.children id = held.children := by
  rw [children, element?_of_row? h]

theorem elementKind?_of_row? {id : ElementId} {held : Element}
    (h : f.row? (.element id) = some (.element held)) : f.elementKind? id = some held.kind := by
  rw [elementKind?, element?_of_row? h, Option.map_some]

/-! ## Changing rows -/

theorem row?_setParent (node other : NodeId) (parent : ElementId) :
    (f.setParent node parent).row? other =
      if node = other then (f.row? other).map (Row.hungIn parent) else f.row? other := by
  cases node with
  | token id =>
    cases other with
    | token id' =>
      simp only [setParent, row?, token?, Table.get?_modify, TokenId.num_inj, NodeId.token.injEq]
      split
      · rw [Option.map_map, Option.map_map]
        rfl
      · rfl
    | element id' => rfl
  | element id =>
    cases other with
    | token id' => rfl
    | element id' =>
      simp only [setParent, row?, element?, Table.get?_modify, ElementId.num_inj,
        NodeId.element.injEq]
      split
      · rw [Option.map_map, Option.map_map]
        rfl
      · rfl

theorem row?_setChildren (id : ElementId) (other : NodeId) (children : List NodeId) :
    (f.setChildren id children).row? other =
      if NodeId.element id = other then (f.row? other).map (Row.listing children)
      else f.row? other := by
  cases other with
  | token id' => rfl
  | element id' =>
    simp only [setChildren, row?, element?, Table.get?_modify, ElementId.num_inj,
      NodeId.element.injEq]
    split
    · rw [Option.map_map, Option.map_map]
      rfl
    · rfl

theorem holds_setParent (node other : NodeId) (parent : ElementId) :
    (f.setParent node parent).holds other = f.holds other := by
  rw [holds_eq, row?_setParent, holds_eq]
  split
  · rw [Option.isSome_map]
  · rfl

theorem holds_setChildren (id : ElementId) (other : NodeId) (children : List NodeId) :
    (f.setChildren id children).holds other = f.holds other := by
  rw [holds_eq, row?_setChildren, holds_eq]
  split
  · rw [Option.isSome_map]
  · rfl

theorem row?_addToken (kind : TokenKind) (text : String) (other : NodeId) :
    (f.addToken kind text).2.row? other =
      if other = .token (f.addToken kind text).1 then some (.token ⟨kind, text, none⟩)
      else f.row? other := by
  cases other with
  | token id =>
    have hid : id.num = f.tokens.size ↔ id = (f.addToken kind text).1 := TokenId.num_inj
    simp only [addToken, row?, token?, Table.get?_push, hid, NodeId.token.injEq]
    split <;> rfl
  | element id => rfl

theorem row?_addBareElement (kind : ElementKind) (other : NodeId) :
    (f.addBareElement kind).2.row? other =
      if other = .element (f.addBareElement kind).1 then some (.element ⟨kind, [], none⟩)
      else f.row? other := by
  cases other with
  | token id => rfl
  | element id =>
    have hid : id.num = f.elements.size ↔ id = (f.addBareElement kind).1 := ElementId.num_inj
    simp only [addBareElement, row?, element?, Table.get?_push, hid, NodeId.element.injEq]
    split <;> rfl

theorem row?_addToken_self (kind : TokenKind) (text : String) :
    f.row? (.token (f.addToken kind text).1) = none := by
  simp [row?, token?, addToken, Table.get?, Table.size]

theorem row?_addBareElement_self (kind : ElementKind) :
    f.row? (.element (f.addBareElement kind).1) = none := by
  simp [row?, element?, addBareElement, Table.get?, Table.size]

end Forest

end DeclVisibility
