import DeclVisibility.Proofs.Outline.Listing
import DeclVisibility.Proofs.Tree.Order

/-!
# What encloses a symbol

The symbols that the walk over a subtree has come through when it meets a symbol are those that are
above it by the links, each once (`Forest.Carries.enclose_symbols`). The walk goes through every
other element as if it were not there, so what is no symbol changes nothing about this. For the
symbols below the top of a subtree the top itself does not count (`Forest.Carries.enclose_listed`),
and the depths in the list tell which they are (`Subtree.readAround_listed`).
-/

namespace DeclVisibility

namespace Forest

variable {f : Forest} {p : Option ElementId} {s : Subtree} {among : List NodeId}
  {chain inner : List ElementId} {id : ElementId}

/-- The element is above the other one: the links lead down from it. -/
def Above (f : Forest) (a b : ElementId) : Prop := Relation.TransGen f.Lists (.element a) (.element b)

/-- Of these nodes, the chain has those that are symbols above an element, each once. -/
structure Enclose (f : Forest) (among : List NodeId) (chain : List ElementId) (id : ElementId) :
    Prop where
  nodup : chain.Nodup
  mem_iff : ∀ a, a ∈ chain ↔ .element a ∈ among ∧ (f.symbolKind? a).isSome ∧ f.Above a id

/-- What is below a node of a subtree is in the subtree. -/
theorem Carries.mem_nodes_of_above (h : f.Carries p s) {a b : ElementId} (ha : .element a ∈ s.nodes)
    (hab : f.Above a b) : .element b ∈ s.nodes := by
  have hall : ∀ {node}, Relation.TransGen f.Lists (.element a) node → node ∈ s.nodes := by
    intro node hnode
    induction hnode with
    | single hlists => exact h.mem_nodes_of_lists ha hlists
    | tail _ hlists ih => exact h.mem_nodes_of_lists ih hlists
  exact hall hab

theorem Carries.mem_nodes_of_symbols (h : f.Carries p s) {around : List ElementId}
    {x : ElementId × List ElementId} (hx : x ∈ s.symbols around) : .element x.1 ∈ s.nodes := by
  have hfst : x.1 ∈ (s.symbols around).map Prod.fst := List.mem_map_of_mem hx
  rw [h.map_symbols, List.mem_filter] at hfst
  exact NodeId.mem_filterMap_element?.mp hfst.1

section Children
variable {kind : ElementKind} {children : List Subtree}
  (h : f.Carries p (.element id kind children))
include h

/-- An element that is no symbol encloses nothing itself. -/
theorem Carries.enclose_plain (hkind : SymbolKind.ofElementKind? kind = none) {decl : ElementId}
    (hinner : f.Enclose (children.flatMap Subtree.nodes) inner decl) :
    f.Enclose (Subtree.element id kind children).nodes inner decl where
  nodup := hinner.nodup
  mem_iff a := by
    have htop : (f.symbolKind? a).isSome → NodeId.element a ≠ .element id := by
      rintro hsome heq
      obtain rfl := NodeId.element.inj heq
      rw [h.symbolKind?, hkind] at hsome
      cases hsome
    rw [hinner.mem_iff, Subtree.nodes_element, List.mem_cons]
    constructor
    · rintro ⟨hmem, hrest⟩
      exact ⟨.inr hmem, hrest⟩
    · rintro ⟨hmem, hrest⟩
      exact ⟨hmem.resolve_left (htop hrest.1), hrest⟩

variable (nodup : (Subtree.element id kind children).nodes.Nodup)
include nodup

/-- An element that is a symbol is the outermost of those around a symbol below it. -/
theorem Carries.enclose_symbol (hkind : (SymbolKind.ofElementKind? kind).isSome) {decl : ElementId}
    (hdecl : .element decl ∈ children.flatMap Subtree.nodes)
    (hinner : f.Enclose (children.flatMap Subtree.nodes) inner decl) :
    f.Enclose (Subtree.element id kind children).nodes (inner ++ [id]) decl where
  nodup := by
    rw [Subtree.nodes_element, List.nodup_cons] at nodup
    have hid : id ∉ inner := fun hmem => nodup.1 ((hinner.mem_iff id).mp hmem).1
    rw [List.nodup_append_comm, List.singleton_append, List.nodup_cons]
    exact ⟨hid, hinner.nodup⟩
  mem_iff a := by
    rw [List.mem_append, List.mem_singleton, hinner.mem_iff, Subtree.nodes_element, List.mem_cons,
      NodeId.element.injEq]
    constructor
    · rintro (⟨hmem, hrest⟩ | rfl)
      · exact ⟨.inr hmem, hrest⟩
      · exact ⟨.inl rfl, by rwa [h.symbolKind?], h.above_iff.mpr hdecl⟩
    · rintro ⟨rfl | hmem, hrest⟩
      · exact .inr rfl
      · exact .inl ⟨hmem, hrest⟩

/-- Of the nodes below an element, those above a node in one of its children are in that child. -/
theorem Carries.enclose_children {c : Subtree} (hc : c ∈ children) {decl : ElementId}
    (hdecl : .element decl ∈ c.nodes) (hinner : f.Enclose c.nodes inner decl) :
    f.Enclose (children.flatMap Subtree.nodes) inner decl where
  nodup := hinner.nodup
  mem_iff a := by
    rw [Subtree.nodes_element, List.nodup_cons] at nodup
    rw [hinner.mem_iff]
    constructor
    · rintro ⟨hmem, hsymbol, habove⟩
      exact ⟨List.mem_flatMap.mpr ⟨c, hc, hmem⟩, hsymbol, habove⟩
    · rintro ⟨hmem, hsymbol, habove⟩
      obtain ⟨d, hd, hmem⟩ := List.mem_flatMap.mp hmem
      have hbelow := (h.child hd).mem_nodes_of_above hmem habove
      obtain rfl := Subtree.eq_of_common nodup.2 hc hd hdecl hbelow
      exact ⟨hmem, hsymbol, habove⟩

/-- Nothing in the subtree is above its top. -/
theorem Carries.not_above_top {a : ElementId}
    (ha : .element a ∈ (Subtree.element id kind children).nodes) : ¬ f.Above a id := by
  intro habove
  rw [Subtree.nodes_element, List.nodup_cons] at nodup
  rw [Subtree.nodes_element, List.mem_cons] at ha
  rcases ha with ha | ha
  · obtain rfl := NodeId.element.inj ha
    exact nodup.1 (h.above_iff.mp habove)
  · obtain ⟨c, hc, ha⟩ := List.mem_flatMap.mp ha
    exact nodup.1 (List.mem_flatMap.mpr ⟨c, hc, (h.child hc).mem_nodes_of_above ha habove⟩)

/-- So nothing in the subtree encloses it. -/
theorem Carries.enclose_top : f.Enclose (Subtree.element id kind children).nodes [] id where
  nodup := List.nodup_nil
  mem_iff _ := iff_of_false List.not_mem_nil fun ⟨hmem, _, habove⟩ =>
    h.not_above_top nodup hmem habove

end Children

/-- The symbols that the walk over a subtree comes through on the way to a symbol are those above
it, from the inside out and followed by those that the subtree is inside. -/
theorem Carries.enclose_symbols (h : f.Carries p s) (nodup : s.nodes.Nodup)
    {around : List ElementId} : ∀ x ∈ s.symbols around,
      ∃ inner, x.2 = inner ++ around ∧ f.Enclose s.nodes inner x.1 := by
  induction s generalizing p around with
  | token leaf =>
    intro x hx
    rw [Subtree.symbols_token] at hx
    cases hx
  | element id kind children ih =>
    have hbelow : ∀ around, ∀ x ∈ children.flatMap (Subtree.symbols around), ∃ inner,
        x.2 = inner ++ around ∧ f.Enclose (children.flatMap Subtree.nodes) inner x.1 ∧
          .element x.1 ∈ children.flatMap Subtree.nodes := by
      intro around x hx
      obtain ⟨c, hc, hx⟩ := List.mem_flatMap.mp hx
      obtain ⟨inner, heq, hinner⟩ := ih c hc (h.child hc) (Subtree.nodup_child nodup hc) x hx
      have hdecl := (h.child hc).mem_nodes_of_symbols hx
      exact ⟨inner, heq, h.enclose_children nodup hc hdecl hinner,
        List.mem_flatMap.mpr ⟨c, hc, hdecl⟩⟩
    cases hkind : SymbolKind.ofElementKind? kind with
    | none =>
      intro x hx
      rw [Subtree.symbols_of_none hkind] at hx
      obtain ⟨inner, heq, hinner, -⟩ := hbelow around x hx
      exact ⟨inner, heq, h.enclose_plain hkind hinner⟩
    | some symbol =>
      intro x hx
      rw [Subtree.symbols_of_some hkind, List.mem_cons] at hx
      rcases hx with rfl | hx
      · exact ⟨[], rfl, h.enclose_top nodup⟩
      · obtain ⟨inner, heq, hinner, hdecl⟩ := hbelow (id :: around) x hx
        refine ⟨inner ++ [id], by rw [heq, List.append_assoc, List.singleton_append], ?_⟩
        exact h.enclose_symbol nodup (by rw [hkind]; rfl) hdecl hinner

/-- The symbols around a listed one are those above it, but for the top. -/
theorem Carries.enclose_listed (h : f.Carries p s) (nodup : s.nodes.Nodup) :
    ∀ x ∈ s.listed, f.Enclose s.nodesBelow x.2 x.1 := by
  intro x hx
  cases s with
  | token leaf => cases hx
  | element id kind children =>
    obtain ⟨c, hc, hx⟩ := List.mem_flatMap.mp hx
    obtain ⟨inner, heq, hinner⟩ :=
      (h.child hc).enclose_symbols (Subtree.nodup_child nodup hc) x hx
    rw [heq, List.append_nil]
    exact h.enclose_children nodup hc ((h.child hc).mem_nodes_of_symbols hx) hinner

/-- The symbols that are listed are the elements below the top that declare one, in the same
order. -/
theorem Carries.map_listed (h : f.Carries p s) : s.listed.map Prod.fst =
    (s.nodesBelow.filterMap NodeId.element?).filter fun id => (f.symbolKind? id).isSome := by
  cases s with
  | token leaf => rfl
  | element id kind children =>
    rw [Subtree.listed, Subtree.nodesBelow, List.map_flatMap, List.filterMap_flatMap,
      List.filter_flatMap]
    exact List.flatMap_congr fun c hc => (h.child hc).map_symbols []

end Forest

/-- The depths of the symbols before a listed one tell what is around it. -/
theorem Subtree.readAround_listed {s : Subtree} {x : ElementId × List ElementId}
    {before after : List (ElementId × List ElementId)} (hsplit : s.listed = before ++ x :: after) :
    Subtree.readAround before.reverse x.2.length = x.2 := by
  cases s with
  | token leaf =>
    rw [Subtree.listed] at hsplit
    simp at hsplit
  | element id kind children =>
    -- the symbols below the top are those of an element that is no symbol
    have hsymbols : (Subtree.element id .sourceFile children).symbols [] = before ++ x :: after := by
      rw [Subtree.symbols_of_none rfl]
      exact hsplit
    have hreadable : Subtree.Readable [] (before ++ x :: after) :=
      hsymbols ▸ (Subtree.readable_symbols rfl).1
    have haround := hreadable.readAround
    rwa [List.append_nil] at haround

end DeclVisibility
