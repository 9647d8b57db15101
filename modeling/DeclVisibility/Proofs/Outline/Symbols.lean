import DeclVisibility.Proofs.Tree.Soundness
import DeclVisibility.Symbol

/-!
# Symbols and what is around them

The symbols of a nested value in text order, each with the symbols around it from the inside out
(`Subtree.symbols`). In a forest that carries the value they are the elements that declare a symbol
(`Forest.Carries.map_symbols`), and climbing over parents from one of them meets exactly the symbols
around it (`Forest.Carries.enclosedBy`): what is no symbol is climbed over, and there are enough
steps to reach the root from anywhere.
-/

namespace DeclVisibility

namespace Subtree

mutual
/-- The symbols of the subtree, each before those below it and with the symbols around it, from the
inside out. The subtree itself is inside the symbols `around`. -/
def symbols (around : List ElementId) : Subtree → List (ElementId × List ElementId)
  | token _ => []
  | element id kind children =>
    match SymbolKind.ofElementKind? kind with
    | none => symbolsOfAll around children
    | some _ => (id, around) :: symbolsOfAll (id :: around) children
/-- The symbols of subtrees that stand side by side. -/
def symbolsOfAll (around : List ElementId) : List Subtree → List (ElementId × List ElementId)
  | [] => []
  | child :: rest => child.symbols around ++ symbolsOfAll around rest
end

theorem symbolsOfAll_eq (around : List ElementId) :
    ∀ ss : List Subtree, symbolsOfAll around ss = ss.flatMap (symbols around)
  | [] => rfl
  | s :: rest => by rw [symbolsOfAll, symbolsOfAll_eq around rest, List.flatMap_cons]

variable {around : List ElementId} {id : ElementId} {kind : ElementKind} {children : List Subtree}

@[simp] theorem symbols_token (leaf : Leaf) : (token leaf).symbols around = [] := by
  rw [symbols]

theorem symbols_of_none (h : SymbolKind.ofElementKind? kind = none) :
    (element id kind children).symbols around = children.flatMap (symbols around) := by
  simp only [symbols, h, symbolsOfAll_eq]

theorem symbols_of_some {symbol : SymbolKind} (h : SymbolKind.ofElementKind? kind = some symbol) :
    (element id kind children).symbols around =
      (id, around) :: children.flatMap (symbols (id :: around)) := by
  simp only [symbols, h, symbolsOfAll_eq]

/-- All symbols of a subtree are inside those that the subtree is inside. -/
theorem le_length_symbols {s : Subtree} : ∀ {around : List ElementId},
    ∀ x ∈ s.symbols around, around.length ≤ x.2.length := by
  induction s with
  | token leaf =>
    intro around x hx
    rw [symbols_token] at hx
    cases hx
  | element id kind children ih =>
    intro around x hx
    cases hkind : SymbolKind.ofElementKind? kind with
    | none =>
      rw [symbols_of_none hkind] at hx
      obtain ⟨c, hc, hx⟩ := List.mem_flatMap.mp hx
      exact ih c hc x hx
    | some symbol =>
      rw [symbols_of_some hkind, List.mem_cons] at hx
      rcases hx with rfl | hx
      · exact Nat.le_refl _
      · obtain ⟨c, hc, hx⟩ := List.mem_flatMap.mp hx
        have hle := ih c hc x hx
        rw [List.length_cons] at hle
        exact Nat.le_of_succ_le hle

end Subtree

namespace Forest

/-- These symbols are around an element, from the inside out. -/
def EnclosedBy (f : Forest) : List ElementId → ElementId → Prop
  | [], id => f.enclosingSymbol? id = none
  | around :: outer, id => f.enclosingSymbol? id = some around ∧ f.EnclosedBy outer around

variable {f : Forest} {p : Option ElementId} {s : Subtree}

theorem Carries.symbolKind? {id : ElementId} {kind : ElementKind} {children : List Subtree}
    (h : f.Carries p (.element id kind children)) :
    f.symbolKind? id = SymbolKind.ofElementKind? kind := by
  have hrow : f.row? (.element id) = some (.element ⟨kind, children.map Subtree.id, p⟩) := h.top
  rw [Forest.symbolKind?, elementKind?_of_row? hrow, Option.bind_some]

/-- The symbols are the elements that declare one, in the same order. -/
theorem Carries.map_symbols (h : f.Carries p s) (around : List ElementId) :
    (s.symbols around).map Prod.fst =
      s.elements.filter fun id => (f.symbolKind? id).isSome := by
  induction s generalizing p around with
  | token leaf => simp
  | element id kind children ih =>
    have hall : ∀ around, (children.flatMap (Subtree.symbols around)).map Prod.fst =
        (children.flatMap Subtree.elements).filter fun id => (f.symbolKind? id).isSome := by
      intro around
      rw [List.map_flatMap, List.filter_flatMap]
      exact List.flatMap_congr fun c hc => ih c hc (h.child hc) around
    have hsymbol := h.symbolKind?
    rw [Subtree.elements_element, List.filter_cons, hsymbol]
    cases hkind : SymbolKind.ofElementKind? kind with
    | none =>
      rw [Subtree.symbols_of_none hkind, hall]
      rfl
    | some symbol =>
      rw [Subtree.symbols_of_some hkind, List.map_cons, hall]
      rfl

/-- Climbing from a symbol meets the symbols around it. `level` counts the elements above the
subtree, and so the steps that the climb from its top can take. -/
theorem Carries.enclosedBy (h : f.Carries p s) {around : List ElementId} (level : Nat)
    (room : level + s.elements.length ≤ f.elements.size)
    (climb : ∀ id, s.id = .element id → ∀ fuel, level ≤ fuel →
      f.climbToSymbol fuel id = around.head?)
    (outer : ∀ a rest, around = a :: rest → f.EnclosedBy rest a) :
    ∀ x ∈ s.symbols around, f.EnclosedBy x.2 x.1 := by
  induction s generalizing p around level with
  | token leaf =>
    intro x hx
    rw [Subtree.symbols_token] at hx
    cases hx
  | element id kind children ih =>
    rw [Subtree.elements_element, List.length_cons] at room
    have hroom : ∀ c ∈ children, level + 1 + c.elements.length ≤ f.elements.size := by
      intro c hc
      have hle := (List.sublist_flatten_of_mem
        (List.mem_map_of_mem (f := Subtree.elements) hc)).length_le
      rw [← List.flatMap_def] at hle
      omega
    -- one step up from a child leads to this element
    have hstep : ∀ c ∈ children, ∀ cid, c.id = .element cid → ∀ fuel, level + 1 ≤ fuel →
        f.climbToSymbol fuel cid =
          if (SymbolKind.ofElementKind? kind).isSome then some id else around.head? := by
      intro c hc cid hcid fuel hfuel
      obtain ⟨n, rfl⟩ : ∃ n, fuel = n + 1 := ⟨fuel - 1, by omega⟩
      have hparent : f.parent? (.element cid) = some id := hcid ▸ (h.child hc).parent?
      rw [climbToSymbol, hparent, ← climb id rfl n (by omega), ← h.symbolKind?]
    have hself : f.EnclosedBy around id := by
      have henclosing : f.enclosingSymbol? id = around.head? :=
        climb id rfl f.elements.size (by omega)
      cases around with
      | nil => exact henclosing
      | cons a rest => exact ⟨henclosing, outer a rest rfl⟩
    cases hkind : SymbolKind.ofElementKind? kind with
    | none =>
      intro x hx
      rw [Subtree.symbols_of_none hkind] at hx
      obtain ⟨c, hc, hx⟩ := List.mem_flatMap.mp hx
      refine ih c hc (h.child hc) (level + 1) (hroom c hc) ?_ outer x hx
      intro cid hcid fuel hfuel
      rw [hstep c hc cid hcid fuel hfuel, hkind]
      rfl
    | some symbol =>
      intro x hx
      rw [Subtree.symbols_of_some hkind, List.mem_cons] at hx
      rcases hx with rfl | hx
      · exact hself
      · obtain ⟨c, hc, hx⟩ := List.mem_flatMap.mp hx
        refine ih c hc (h.child hc) (level + 1) (hroom c hc) ?_ ?_ x hx
        · intro cid hcid fuel hfuel
          rw [hstep c hc cid hcid fuel hfuel, hkind]
          rfl
        · intro a rest heq
          obtain ⟨rfl, rfl⟩ := List.cons.inj heq
          exact hself

end Forest

namespace Tree.ReadsAs

variable {t : Tree} {s : Subtree}

theorem enclosedBy (h : t.ReadsAs s) : ∀ x ∈ s.symbols [], t.EnclosedBy x.2 x.1 := by
  refine h.carries.enclosedBy 0 ?_ ?_ (fun _ _ heq => nomatch heq)
  · have hle := h.madeOf.elements_length List.mem_cons_self
    omega
  · intro id hid fuel _
    have hparent : t.parent? (.element id) = none := hid ▸ h.carries.parent?
    cases fuel with
    | zero => rfl
    | succ fuel =>
      rw [Forest.climbToSymbol, hparent]
      rfl

/-- A search among all elements that only symbols can pass is one among the symbols. -/
theorem find?_descendants (h : t.ReadsAs s) {test : ElementId → Bool}
    (only : ∀ id, test id = true → (t.symbolKind? id).isSome) :
    (t.descendants t.root).find? test =
      ((s.symbols []).find? fun x => test x.1).map Prod.fst := by
  have hfilter : ∀ ids : List ElementId,
      (ids.filter fun id => (t.symbolKind? id).isSome).find? test = ids.find? test := by
    intro ids
    rw [List.find?_filter]
    congr 1
    funext id
    cases htest : test id with
    | false => simp
    | true => simp [only id htest]
  rw [h.descendants_root, ← hfilter, ← h.carries.map_symbols [], List.find?_map]
  rfl

end Tree.ReadsAs

end DeclVisibility
