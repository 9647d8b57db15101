import DeclVisibility.Proofs.Tree.Links
import DeclVisibility.Tree.Basic
import Mathlib.Logic.Relation

/-!
# Listing elements in preorder

The recursive listing of elements puts each before the listings of its child elements
(`Forest.Preorder`). A loop lists them with a stack: it takes the element on top, puts it out, and
puts its child elements on the stack, the last of them first (`Forest.turn?`). What the loop does
with elements on top of a stack is to put out their recursive listing and to leave the rest of the
stack as it was (`Forest.Preorder.turns`); so does the visit that is given a number of steps
(`Forest.Preorder.visit_append`). Both hold in any forest in which the elements have a recursive
listing, and that of a nested value that a forest carries are its elements
(`Forest.Carries.preorder`).
-/

namespace DeclVisibility

/-- A visit under way: the elements that were put out, and those on the stack, whose top comes
last. -/
structure Visit where
  out : List ElementId
  stack : List ElementId

namespace Forest

variable {f : Forest} {ids listing : List ElementId}

/-- The recursive listing of elements from left to right: of each, the element itself comes first
and then the listing of its child elements. -/
inductive Preorder (f : Forest) : List ElementId → List ElementId → Prop
  | nil : Preorder f [] []
  | cons {id : ElementId} {rest below after : List ElementId}
      (children : Preorder f (f.elementChildren id) below) (siblings : Preorder f rest after) :
      Preorder f (id :: rest) (id :: (below ++ after))

theorem Preorder.append (h : f.Preorder ids listing) {ids' listing' : List ElementId}
    (h' : f.Preorder ids' listing') : f.Preorder (ids ++ ids') (listing ++ listing') := by
  induction h with
  | nil => exact h'
  | cons children _ _ ih =>
    rw [List.cons_append, List.cons_append, List.append_assoc]
    exact .cons children ih

/-! ## Visits with a number of steps -/

/-- The visit takes a step for each element of the listing, and goes on with the rest of the
stack. -/
theorem Preorder.visit_append (h : f.Preorder ids listing) (fuel : Nat) (rest : List ElementId) :
    f.visit (listing.length + fuel) (ids ++ rest) = listing ++ f.visit fuel rest := by
  induction h generalizing fuel rest with
  | nil => rw [List.length_nil, Nat.zero_add, List.nil_append, List.nil_append]
  | @cons id siblings below after _ _ ihc ihs =>
    have hlength : (id :: (below ++ after)).length + fuel =
        below.length + (after.length + fuel) + 1 := by
      rw [List.length_cons, List.length_append]
      omega
    rw [hlength, List.cons_append, visit, ihc, ihs, List.cons_append, List.append_assoc]

theorem Preorder.visit_eq (h : f.Preorder ids listing) {fuel : Nat}
    (room : listing.length ≤ fuel) : f.visit fuel ids = listing := by
  obtain ⟨more, rfl⟩ := Nat.exists_eq_add_of_le room
  have hvisit := h.visit_append more []
  rw [List.append_nil] at hvisit
  rw [hvisit]
  cases more <;> exact List.append_nil _

theorem Preorder.unique (h : f.Preorder ids listing) {listing' : List ElementId}
    (h' : f.Preorder ids listing') : listing = listing' := by
  rw [← h.visit_eq (Nat.le_max_left _ listing'.length), h'.visit_eq (Nat.le_max_right _ _)]

/-! ## The loop -/

/-- The next turn of the loop, until the stack is empty. -/
def turn? (f : Forest) (visit : Visit) : Option Visit :=
  visit.stack.getLast?.map fun id =>
    ⟨visit.out ++ [id], visit.stack.dropLast ++ (f.children id).reverse.filterMap NodeId.element?⟩

/-- Whether the loop gets from the one to the other in one turn. -/
def Turns (f : Forest) (visit next : Visit) : Prop := f.turn? visit = some next

theorem turns_top (out stack : List ElementId) (id : ElementId) :
    f.Turns ⟨out, stack ++ [id]⟩ ⟨out ++ [id], stack ++ (f.elementChildren id).reverse⟩ := by
  rw [Turns, turn?, List.getLast?_concat, Option.map_some, List.dropLast_concat,
    List.filterMap_reverse]
  rfl

theorem not_turns_of_empty {out : List ElementId} {next : Visit} : ¬ f.Turns ⟨out, []⟩ next :=
  nofun

/-- With elements on top of the stack the loop comes to where their listing is put out and the rest
of the stack is left. -/
theorem Preorder.turns (h : f.Preorder ids listing) (out stack : List ElementId) :
    Relation.ReflTransGen f.Turns ⟨out, stack ++ ids.reverse⟩ ⟨out ++ listing, stack⟩ := by
  induction h generalizing out stack with
  | nil =>
    rw [List.reverse_nil, List.append_nil, List.append_nil]
  | @cons id siblings below after _ _ ihc ihs =>
    have hfirst := f.turns_top out (stack ++ siblings.reverse) id
    have hbelow := ihc (out ++ [id]) (stack ++ siblings.reverse)
    have hafter := ihs (out ++ [id] ++ below) stack
    rw [List.reverse_cons, ← List.append_assoc]
    have hend : out ++ id :: (below ++ after) = out ++ [id] ++ below ++ after := by simp
    rw [hend]
    exact .head hfirst (hbelow.trans hafter)

/-- Wherever the loop has got to, it goes on to the end. -/
theorem Preorder.turns_end (h : f.Preorder ids listing) {visit : Visit}
    (hturns : Relation.ReflTransGen f.Turns ⟨[], ids.reverse⟩ visit) :
    Relation.ReflTransGen f.Turns visit ⟨listing, []⟩ := by
  have hone : Relator.RightUnique f.Turns := fun _ _ _ hb hc => Option.some.inj (hb.symm.trans hc)
  rcases Relation.ReflTransGen.total_of_right_unique hone hturns (h.turns [] []) with hend | hend
  · exact hend
  · rcases Relation.ReflTransGen.cases_head hend with rfl | ⟨next, hnext, -⟩
    · exact .refl
    · exact absurd hnext not_turns_of_empty

/-- The loop takes turns only finitely often. -/
theorem Preorder.turns_acc (h : f.Preorder ids listing) :
    Acc (fun next visit => f.Turns visit next) ⟨[], ids.reverse⟩ := by
  refine Relation.ReflTransGen.head_induction_on (h.turns [] []) ?_ ?_
  · exact ⟨_, fun next hnext => absurd hnext not_turns_of_empty⟩
  · intro visit next hturn _ ih
    refine ⟨_, fun other hother => ?_⟩
    obtain rfl := Option.some.inj (hturn.symm.trans hother)
    exact ih

/-! ## Nested values -/

theorem Carries.elementChildren {p : Option ElementId} {id : ElementId} {kind : ElementKind}
    {children : List Subtree} (h : f.Carries p (.element id kind children)) :
    f.elementChildren id = children.filterMap fun s => s.id.element? := by
  have hrow : f.row? (.element id) = some (.element ⟨kind, children.map Subtree.id, p⟩) := h.top
  rw [Forest.elementChildren, children_of_row? hrow, List.filterMap_map]
  rfl

theorem preorder_flatMap {ss : List Subtree}
    (h : ∀ s ∈ ss, f.Preorder s.id.element?.toList s.elements) :
    f.Preorder (ss.filterMap fun s => s.id.element?) (ss.flatMap Subtree.elements) := by
  rw [List.filterMap_eq_flatMap_toList]
  induction ss with
  | nil => exact .nil
  | cons s rest ih =>
    rw [List.flatMap_cons, List.flatMap_cons]
    exact (h s List.mem_cons_self).append (ih fun c hc => h c (List.mem_cons_of_mem s hc))

/-- The elements of a nested value are the recursive listing of its top. -/
theorem Carries.preorder {p : Option ElementId} {s : Subtree} (h : f.Carries p s) :
    f.Preorder s.id.element?.toList s.elements := by
  induction s generalizing p with
  | token leaf =>
    rw [Subtree.elements_token]
    exact .nil
  | element id kind children ih =>
    have hbelow := preorder_flatMap fun c hc => ih c hc (h.child hc)
    rw [← h.elementChildren] at hbelow
    rw [Subtree.elements_element, ← List.append_nil (children.flatMap Subtree.elements)]
    exact .cons hbelow .nil

section MadeOf
variable {tops : List Subtree} (made : f.MadeOf tops) {s : Subtree} (hs : s ∈ tops)
  {x : Option ElementId × Subtree} (hx : x ∈ s.placed none) {id : ElementId}
  (hid : x.2.id = .element id)
include made hs hx hid

theorem MadeOf.preorder_placed : f.Preorder [id] x.2.elements := by
  have hlisting := ((made.carries s hs).of_placed hx).preorder
  rw [hid] at hlisting
  exact hlisting

theorem MadeOf.visit_placed {fuel : Nat} (room : f.elements.size ≤ fuel) :
    f.visit fuel [id] = x.2.elements := by
  apply (made.preorder_placed hs hx hid).visit_eq
  have hle := ((Subtree.nodes_sublist hx).filterMap NodeId.element?).length_le
  exact Nat.le_trans hle (Nat.le_trans (made.elements_length hs) room)

/-- The elements below an element are its descendants. -/
theorem MadeOf.descendants_placed : f.descendants id = x.2.elements :=
  made.visit_placed hs hx hid (Nat.le_refl _)

end MadeOf

end Forest

end DeclVisibility
