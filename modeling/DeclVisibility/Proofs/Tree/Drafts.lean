import DeclVisibility.Exchange.Draft
import DeclVisibility.Proofs.Tree.Looks

/-!
# What a draft keeps

The draft of a nested value forgets the numbers of the nodes and nothing that is shown: values with
the same draft look alike (`looksLike_of_draft`), so they have the same text and the same shown
forms. So what was planted in a value can be compared although each planting makes
nodes of its own. `draftWith` is the draft with others put before nodes, and planting a subtree
before a node is one more of these (`draftWith_plant`).
-/

namespace DeclVisibility

namespace Subtree

theorem draftAll_eq : ∀ ss : List Subtree, draftAll ss = ss.map draft
  | [] => rfl
  | s :: rest => by rw [draftAll, draftAll_eq rest, List.map_cons]

section Equations
variable (leaf : Leaf) (id : ElementId) (kind : ElementKind) (children : List Subtree)

@[simp] theorem draft_token : (token leaf).draft = .token leaf.kind (some leaf.text) := by
  rw [draft]

@[simp] theorem draft_element :
    (element id kind children).draft = .element kind (children.map draft) := by
  rw [draft, draftAll_eq]

end Equations

/-! ## Values with the same draft -/

/-- Induction over two nested values with the same draft. -/
theorem draft_induction {motive : Subtree → Subtree → Prop}
    (token : ∀ leaf leaf', leaf.kind = leaf'.kind → leaf.text = leaf'.text →
      motive (.token leaf) (.token leaf'))
    (element : ∀ id id' kind children children', List.Forall₂ motive children children' →
      motive (.element id kind children) (.element id' kind children'))
    {s s' : Subtree} (same : s.draft = s'.draft) : motive s s' := by
  induction s generalizing s' with
  | token leaf =>
    cases s' with
    | token leaf' =>
      rw [draft_token, draft_token] at same
      obtain ⟨hkind, htext⟩ := Draft.token.inj same
      exact token leaf leaf' hkind (Option.some.inj htext)
    | element id' kind' children' =>
      rw [draft_token, draft_element] at same
      cases same
  | element id kind children ih =>
    cases s' with
    | token leaf' =>
      rw [draft_token, draft_element] at same
      cases same
    | element id' kind' children' =>
      rw [draft_element, draft_element] at same
      obtain ⟨rfl, hchildren⟩ := Draft.element.inj same
      apply element
      -- the children go in step
      clear same
      induction children generalizing children' with
      | nil =>
        rw [List.map_nil, eq_comm, List.map_eq_nil_iff] at hchildren
        rw [hchildren]
        exact .nil
      | cons c rest ihr =>
        rw [List.map_cons, eq_comm, List.map_eq_cons_iff] at hchildren
        obtain ⟨c', rest', rfl, hc, hrest⟩ := hchildren
        exact .cons (ih c List.mem_cons_self hc.symm)
          (ihr (fun d hd => ih d (List.mem_cons_of_mem c hd)) rest' hrest.symm)

variable {s s' : Subtree}

/-- Values with the same draft look alike. -/
theorem looksLike_of_draft (same : s.draft = s'.draft) : s.LooksLike s' := by
  refine draft_induction ?_ ?_ same
  · intro leaf leaf' hkind htext
    rw [looksLike_token, look, look, hkind, htext]
  · intro id id' kind children children' h
    exact looksLike_element.mpr ⟨rfl, h⟩

theorem text_eq_of_draft (same : s.draft = s'.draft) : s.text = s'.text :=
  (looksLike_of_draft same).text_eq

theorem line_eq_of_draft (same : s.draft = s'.draft) : s.line = s'.line :=
  (looksLike_of_draft same).line_eq

theorem block_eq_of_draft (same : s.draft = s'.draft) : s.block = s'.block :=
  (looksLike_of_draft same).block_eq

/-! ## Drafts with others put in -/

mutual
/-- The draft of the subtree with others put before nodes below its top. -/
def draftWith (extra : NodeId → List Draft) : Subtree → Draft
  | token leaf => .token leaf.kind (some leaf.text)
  | element _ kind children => .element kind (draftAllWith extra children)
/-- The drafts of subtrees that stand side by side, with others put before nodes. -/
def draftAllWith (extra : NodeId → List Draft) : List Subtree → List Draft
  | [] => []
  | child :: rest => extra child.id ++ child.draftWith extra :: draftAllWith extra rest
end

variable {extra : NodeId → List Draft} {anchor : NodeId} {new : Subtree}

theorem draftAllWith_eq : ∀ ss : List Subtree,
    draftAllWith extra ss = ss.flatMap fun c => extra c.id ++ [c.draftWith extra]
  | [] => rfl
  | s :: rest => by
    rw [draftAllWith, draftAllWith_eq rest, List.flatMap_cons, List.append_assoc,
      List.singleton_append]

@[simp] theorem draftWith_token (leaf : Leaf) :
    (token leaf).draftWith extra = .token leaf.kind (some leaf.text) := by
  rw [draftWith]

@[simp] theorem draftWith_element (id : ElementId) (kind : ElementKind) (children : List Subtree) :
    (element id kind children).draftWith extra =
      .element kind (children.flatMap fun c => extra c.id ++ [c.draftWith extra]) := by
  rw [draftWith, draftAllWith_eq]

/-- With nothing put before its nodes, a subtree has its own draft. -/
theorem draftWith_of_nil (h : ∀ node ∈ s.nodes, extra node = []) : s.draftWith extra = s.draft := by
  induction s with
  | token leaf => rw [draftWith_token, draft_token]
  | element id kind children ih =>
    have hchild : ∀ c ∈ children, extra c.id ++ [c.draftWith extra] = [c.draft] := by
      intro c hc
      have hnodes : ∀ node ∈ c.nodes, extra node = [] := by
        intro node hnode
        apply h
        rw [nodes_element]
        exact List.mem_cons_of_mem _ (List.mem_flatMap.mpr ⟨c, hc, hnode⟩)
      rw [hnodes _ c.id_mem_nodes, ih c hc hnodes, List.nil_append]
    rw [draftWith_element, draft_element, List.flatMap_congr hchild, List.map_eq_flatMap]

/-- Planting a subtree before a node puts its draft before the node, ahead of the others. -/
theorem draftWith_plant (h : ∀ node ∈ new.nodes, extra node = []) (s : Subtree) :
    (s.plant anchor new).draftWith extra =
      s.draftWith fun node => (if node = anchor then [new.draft] else []) ++ extra node := by
  induction s with
  | token leaf => rw [plant_token, draftWith_token, draftWith_token]
  | element id kind children ih =>
    rw [plant_element, draftWith_element, draftWith_element, plantAll_eq, List.flatMap_assoc]
    congr 1
    apply List.flatMap_congr
    intro c hc
    rw [List.flatMap_append, List.flatMap_singleton, id_plant, ih c hc]
    split
    · rw [List.flatMap_singleton, h _ new.id_mem_nodes, draftWith_of_nil h, List.nil_append,
        List.append_assoc]
    · rw [List.flatMap_nil, List.nil_append, List.nil_append]

end Subtree

/-- The JSON text of a tree is that of the draft of what the tree reads as. -/
theorem Tree.ReadsAs.json {t : Tree} {s : Subtree} (h : t.ReadsAs s) :
    t.json = (Exchange.valueOf s.draft).pretty := by
  rw [Tree.json, h.whole?]

end DeclVisibility
