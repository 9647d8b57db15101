import DeclVisibility.Proofs.Fix.Frame
import DeclVisibility.Proofs.Tree.Drafts

/-!
# The places that fixes write at

What a fix puts in is told by the anchor of its declaration and by its scope (`Forest.placesOf`).
Putting it in is one more draft before the anchor, while the places of fixes for other declarations
stay what they were (`Fix.Inserts.draftWith_publish`). So what comes of several fixes is one draft,
with something put in at each of their places; declarations that differ have different anchors, so
it does not matter in which order the places are named (`insetsAt_perm`).
-/

namespace DeclVisibility

/-- The drafts of what a fix puts in: a visibility and a blank. -/
def Scope.drafts (scope : Scope) : List Draft :=
  [.element .vis (scope.kinds.map fun kind => .token kind (some (kind.spelling?.getD ""))),
    .token .space (some " ")]

theorem Scope.Writes.drafts {scope : Scope} {w : Inset} (h : scope.Writes w.leaves) :
    [w.visibility.draft, w.space.draft] = scope.drafts := by
  have htokens := congrArg (List.map fun x => Draft.token x.1 (some x.2)) h
  rw [List.map_map, List.map_map] at htokens
  have hvisibility : w.visibility.draft = .element .vis
      (w.leaves.map
        ((fun x => Draft.token x.1 (some x.2)) ∘ fun leaf => (leaf.kind, leaf.text))) := by
    rw [Inset.visibility, Subtree.draft_element, List.map_map]
    rfl
  rw [hvisibility, htokens, Inset.space, Subtree.draft_token]
  rfl

/-! ## Several places -/

/-- What is put before a node, given the scopes to write and the nodes to write them before. -/
def insetsAt (places : List (NodeId × Scope)) (node : NodeId) : List Draft :=
  (places.filter fun place => place.1 = node).flatMap fun place => place.2.drafts

section Insets
variable {places places' : List (NodeId × Scope)} {node : NodeId}

theorem insetsAt_cons (place : NodeId × Scope) : insetsAt (place :: places) node =
    (if node = place.1 then place.2.drafts else []) ++ insetsAt places node := by
  rw [insetsAt, List.filter_cons]
  by_cases h : place.1 = node
  · simp [h, insetsAt]
  · simp [h, Ne.symm h, insetsAt]

theorem insetsAt_of_notMem (h : node ∉ places.map Prod.fst) : insetsAt places node = [] := by
  induction places with
  | nil => rfl
  | cons place rest ih =>
    rw [List.map_cons, List.mem_cons, not_or] at h
    rw [insetsAt_cons, if_neg h.1, ih h.2, List.nil_append]

/-- With at most one scope for each node, their order does not matter. -/
theorem insetsAt_perm (h : places.Perm places') (nodup : (places.map Prod.fst).Nodup) :
    insetsAt places = insetsAt places' := by
  induction h with
  | nil => rfl
  | cons place _ ih =>
    rw [List.map_cons, List.nodup_cons] at nodup
    funext node
    rw [insetsAt_cons, insetsAt_cons, ih nodup.2]
  | swap first second rest =>
    simp only [List.map_cons, List.nodup_cons, List.mem_cons, not_or] at nodup
    funext node
    rw [insetsAt_cons, insetsAt_cons, insetsAt_cons, insetsAt_cons]
    by_cases hfirst : node = first.1
    · have hsecond : node ≠ second.1 := fun heq => nodup.1.1 (heq.symm.trans hfirst)
      rw [if_neg hsecond, List.nil_append, List.nil_append]
    · rw [if_neg hfirst, List.nil_append, List.nil_append]
  | trans hfirst _ ih ih' =>
    exact (ih nodup).trans (ih' ((hfirst.map Prod.fst).nodup_iff.mp nodup))

end Insets

/-- Where fixes write in a forest, and what. -/
def Forest.placesOf (f : Forest) (fixes : List Fix) : List (NodeId × Scope) :=
  fixes.filterMap fun fix => (f.anchor? fix.decl).map fun anchor => (anchor, fix.scope)

theorem Forest.mem_placesOf {f : Forest} {fixes : List Fix} {place : NodeId × Scope} :
    place ∈ f.placesOf fixes ↔
      ∃ fix ∈ fixes, f.anchor? fix.decl = some place.1 ∧ fix.scope = place.2 := by
  simp only [placesOf, List.mem_filterMap, Option.map_eq_some_iff]
  constructor
  · rintro ⟨fix, hfix, anchor, hanchor, rfl⟩
    exact ⟨fix, hfix, hanchor, rfl⟩
  · rintro ⟨fix, hfix, hanchor, hscope⟩
    exact ⟨fix, hfix, place.1, hanchor, by rw [hscope]⟩

/-- Different declarations have different anchors, since each anchor hangs in its declaration. -/
theorem Forest.MadeOf.nodup_placesOf {f : Forest} {tops : List Subtree} (h : f.MadeOf tops)
    {fixes : List Fix} (different : (fixes.map Fix.decl).Nodup) :
    ((f.placesOf fixes).map Prod.fst).Nodup := by
  have hanchors : (f.placesOf fixes).map Prod.fst = (fixes.map Fix.decl).filterMap f.anchor? := by
    rw [placesOf, List.map_filterMap, List.filterMap_map]
    congr 1
    funext fix
    rw [Option.map_map, Function.comp_apply]
    exact Option.map_id_apply
  rw [hanchors]
  apply different.filterMap
  intro decl decl' anchor hanchor hanchor'
  have hparent := h.parent?_anchor? (Option.mem_def.mp hanchor)
  rw [h.parent?_anchor? (Option.mem_def.mp hanchor')] at hparent
  exact (Option.some.inj hparent).symm

/-! ## One fix after another -/

/-- What a fix puts in comes before the anchor, ahead of what else is put there. -/
theorem Subtree.draftWith_publish {w : Inset} {scope : Scope} {extra : NodeId → List Draft}
    (hwrites : scope.Writes w.leaves) (hanchor : w.anchor ∉ w.visibility.nodes)
    (hvis : ∀ node ∈ w.visibility.nodes, extra node = [])
    (hspace : ∀ node ∈ w.space.nodes, extra node = []) (s : Subtree) :
    (s.publish w).draftWith extra = s.draftWith fun node =>
      (if node = w.anchor then scope.drafts else []) ++ extra node := by
  have hboth : ∀ node ∈ w.visibility.nodes,
      (if node = w.anchor then [w.space.draft] else []) ++ extra node = [] := by
    intro node hnode
    have hne : node ≠ w.anchor := fun heq => hanchor (heq ▸ hnode)
    rw [if_neg hne, hvis node hnode, List.nil_append]
  rw [publish, draftWith_plant hspace, draftWith_plant hboth]
  congr 1
  funext node
  split
  · rw [← hwrites.drafts]
    rfl
  · rfl

namespace Fix.Inserts

variable {fix : Fix} {t t' : Tree} {s : Subtree} {w : Inset} {rest : List Fix}

/-- The places of fixes for other declarations stay what they were. -/
theorem placesOf (h : fix.Inserts t s w t') (readsAs : t.ReadsAs s)
    (others : ∀ other ∈ rest, t.holds (.element other.decl) = true ∧ other.decl ≠ fix.decl) :
    t'.placesOf rest = t.placesOf rest := by
  apply List.filterMap_congr
  intro other hother
  obtain ⟨held, hne⟩ := others other hother
  rw [(h.agreeAt readsAs held hne).anchor? readsAs.madeOf.linked h.readsAs.madeOf.linked]

/-- With what a fix put in and with what others are to put in, a tree has the draft that it has with
what all of them are to put in. -/
theorem draftWith_publish (h : fix.Inserts t s w t') (readsAs : t.ReadsAs s)
    (others : ∀ other ∈ rest, t.holds (.element other.decl) = true ∧ other.decl ≠ fix.decl) :
    (s.publish w).draftWith (insetsAt (t'.placesOf rest)) =
      s.draftWith (insetsAt (t.placesOf (fix :: rest))) := by
  -- the anchors of the others are old nodes, and what was put in are new ones
  have hold : ∀ node, node ∉ s.nodes → insetsAt (t.placesOf rest) node = [] := by
    intro node hnot
    apply insetsAt_of_notMem
    intro hmem
    obtain ⟨place, hplace, rfl⟩ := List.mem_map.mp hmem
    obtain ⟨other, -, hanchor, -⟩ := Forest.mem_placesOf.mp hplace
    have hparent := readsAs.madeOf.parent?_anchor? hanchor
    exact hnot (readsAs.holds_iff.mp (Forest.holds_of_parent? hparent))
  have hcons : t.placesOf (fix :: rest) = (w.anchor, fix.scope) :: t.placesOf rest := by
    rw [Forest.placesOf, List.filterMap_cons, h.anchor]
    rfl
  rw [h.placesOf readsAs others, hcons, Subtree.draftWith_publish h.writes (h.anchor_fresh readsAs)
    (fun node hnode => hold node fun hmem => (h.fresh node hmem).1 hnode)
    (fun node hnode => hold node fun hmem => (h.fresh node hmem).2 hnode)]
  congr 1
  funext node
  rw [insetsAt_cons]

end Fix.Inserts

end DeclVisibility
