import DeclVisibility.Proofs.Tree.Tops
import DeclVisibility.Symbol

/-!
# When a forest that grows has a cycle

A node that hangs nowhere may be put before another one, wherever this is. So a node can come to be
below itself, and the root below another node. A forest has no cycle exactly if no change put a node
below itself (`Tree.acyclic_after_changes_iff`): until then it is made of nested values, and the
cycle that such a change makes stays, since no link ever goes away. While there is no cycle, every
walk along the links comes to an end (`Forest.Finishes`): on the way down there are fewer elements
below each node than below the one before it, on the way up there are more, but never more than
there are in all (`MadeOf.weight_lt`, `MadeOf.weight_le`).
-/

namespace DeclVisibility

namespace Forest

variable {f g : Forest} {tops : List Subtree} {changes : List Change}

/-! ## Walks that come to an end -/

/-- No node is below itself. -/
def Acyclic (f : Forest) : Prop := ∀ node, ¬ Relation.TransGen f.Lists node node

/-- The walks along the links come to an end, whichever node they start at. Those that are given a
number of steps, or of levels, come to the same end with any more of them. -/
structure Finishes (f : Forest) : Prop where
  down : WellFounded fun child parent => f.Lists parent child
  up : WellFounded f.Lists
  unfold : ∀ node, f.holds node = true → ∀ fuel, f.elements.size ≤ fuel →
    f.unfold fuel node = f.subtree? node
  visit : ∀ id, f.holds (.element id) = true → ∀ fuel, f.elements.size ≤ fuel →
    f.visit fuel [id] = f.descendants id
  climb : ∀ id fuel, f.elements.size ≤ fuel → f.climbToSymbol fuel id = f.enclosingSymbol? id

/-- How many elements there are in a node and below it. -/
def weight (f : Forest) (node : NodeId) : Nat :=
  match f.subtree? node with
  | some s => s.elements.length
  | none => 0

theorem MadeOf.weight_placed (made : f.MadeOf tops) {s : Subtree} (hs : s ∈ tops)
    {x : Option ElementId × Subtree} (hx : x ∈ s.placed none) :
    f.weight x.2.id = x.2.elements.length := by
  rw [weight, made.subtree? hs hx]

theorem MadeOf.weight_le (made : f.MadeOf tops) {node : NodeId} (held : f.holds node = true) :
    f.weight node ≤ f.elements.size := by
  obtain ⟨s, hs, x, hx, rfl⟩ := made.exists_placed held
  rw [made.weight_placed hs hx]
  have hle := (Subtree.nodes_sublist hx).filterMap NodeId.element? |>.length_le
  exact Nat.le_trans hle (made.elements_length hs)

/-- There are fewer elements in a child than in its parent. -/
theorem MadeOf.weight_lt (made : f.MadeOf tops) {parent child : NodeId} (h : f.Lists parent child) :
    f.weight child < f.weight parent := by
  obtain ⟨id, rfl, hchild⟩ := h
  obtain ⟨s, hs, q, kind, children, hx⟩ := made.exists_placed_element (holds_of_mem_children hchild)
  rw [made.children_placed hs hx] at hchild
  obtain ⟨c, hc, rfl⟩ := List.mem_map.mp hchild
  have hparent : f.weight (.element id) = (Subtree.element id kind children).elements.length :=
    made.weight_placed hs hx
  have hc' : f.weight c.id = c.elements.length := made.weight_placed hs (Subtree.child_placed hx hc)
  have hlength := (List.sublist_flatten_of_mem
    (List.mem_map_of_mem (f := Subtree.elements) hc)).length_le
  rw [← List.flatMap_def] at hlength
  rw [hparent, hc', Subtree.elements_element, List.length_cons]
  omega

/-- A climb takes no more steps than there are elements outside of where it starts. -/
theorem MadeOf.climbToSymbol_eq (made : f.MadeOf tops) {n fuel : Nat} {id : ElementId}
    (room : f.elements.size ≤ n + f.weight (.element id)) (h : n ≤ fuel) :
    f.climbToSymbol fuel id = f.climbToSymbol n id := by
  have up : ∀ {id parent}, f.parent? (.element id) = some parent →
      f.weight (.element id) < f.weight (.element parent) ∧
        f.weight (.element parent) ≤ f.elements.size := by
    intro id parent hparent
    have hchild := made.mem_children_iff.mpr hparent
    exact ⟨made.weight_lt ⟨parent, rfl, hchild⟩, made.weight_le (made.holds_parent hparent)⟩
  induction n generalizing id fuel with
  | zero =>
    cases fuel with
    | zero => rfl
    | succ fuel =>
      cases hparent : f.parent? (.element id) with
      | none => rw [climbToSymbol, climbToSymbol, hparent]
      | some parent =>
        have hup := up hparent
        omega
  | succ n ih =>
    obtain ⟨fuel, rfl⟩ : ∃ k, fuel = k + 1 := ⟨fuel - 1, by omega⟩
    rw [climbToSymbol, climbToSymbol]
    cases hparent : f.parent? (.element id) with
    | none => rfl
    | some parent =>
      obtain ⟨hlt, -⟩ := up hparent
      have hroom : f.elements.size ≤ n + f.weight (.element parent) := by omega
      simp only [ih hroom (Nat.le_of_succ_le_succ h)]

/-- In a forest that is made of nested values every walk along the links comes to an end. -/
theorem MadeOf.finishes (made : f.MadeOf tops) : f.Finishes where
  down := by
    refine Subrelation.wf (fun hlists => ?_) (measure f.weight).wf
    exact made.weight_lt hlists
  up := by
    refine Subrelation.wf (fun {parent child} hlists => ?_)
      (measure fun node => f.elements.size - f.weight node).wf
    change f.elements.size - f.weight parent < f.elements.size - f.weight child
    have hlt := made.weight_lt hlists
    obtain ⟨id, rfl, hchild⟩ := hlists
    have hle := made.weight_le (holds_of_mem_children hchild)
    omega
  unfold node held fuel room := by
    obtain ⟨s, hs, x, hx, rfl⟩ := made.exists_placed held
    have hle := made.weight_le held
    rw [made.weight_placed hs hx] at hle
    rw [made.subtree? hs hx]
    exact ((made.carries s hs).of_placed hx).unfold (Nat.le_trans hle room)
  visit id held fuel room := by
    obtain ⟨s, hs, x, hx, hid⟩ := made.exists_placed held
    rw [made.visit_placed hs hx hid room, made.descendants_placed hs hx hid]
  climb id fuel room := made.climbToSymbol_eq (Nat.le_add_right _ _) room

theorem MadeOf.acyclic (made : f.MadeOf tops) : f.Acyclic := by
  have hlt : ∀ {a b}, Relation.TransGen f.Lists a b → f.weight b < f.weight a := by
    intro a b h
    induction h with
    | single hlists => exact made.weight_lt hlists
    | tail _ hlists ih => exact Nat.lt_trans (made.weight_lt hlists) ih
  intro node hcycle
  exact Nat.lt_irrefl _ (hlt hcycle)

/-! ## What a run of changes does to the links -/

/-- A link that is there stays. -/
theorem lists_grown (h : grown? changes f = some g) {parent child : NodeId}
    (hlists : f.Lists parent child) : g.Lists parent child := by
  refine grown_invariant (P := fun f => f.Lists parent child) ?_ h hlists
  rintro change f g known happly ⟨id, rfl, hchild⟩
  obtain ⟨_, _, htakes, -⟩ := change.exists_takesIn known happly
  exact ⟨id, rfl, htakes.mem_children hchild⟩

theorem parent?_grown (h : grown? changes f = some g) {node : NodeId} {parent : ElementId}
    (hparent : f.parent? node = some parent) : g.parent? node = some parent := by
  refine grown_invariant (P := fun f => f.parent? node = some parent) ?_ h hparent
  intro change f g known happly hparent
  obtain ⟨_, _, htakes, -⟩ := change.exists_takesIn known happly
  exact htakes.parent?_eq_some hparent

/-- An element that hangs nowhere goes on doing so exactly if no change takes it in. -/
theorem parent?_grown_eq_none {id : ElementId} (free : f.parent? (.element id) = none)
    (h : grown? changes f = some g) :
    g.parent? (.element id) = none ↔ ∀ change ∈ changes, .element id ∉ change.takenIn := by
  induction changes generalizing f with
  | nil =>
    obtain rfl := Option.some.inj h
    simp [free]
  | cons change rest ih =>
    obtain ⟨known, mid, happly, hrest⟩ := grown?_cons h
    obtain ⟨parent, nodes, htakes, hnodes⟩ := change.exists_takesIn known happly
    have hung := htakes.hung (.element id)
    rw [List.forall_mem_cons, ← hnodes]
    by_cases hid : .element id ∈ nodes
    · rw [if_pos hid] at hung
      rw [parent?_grown hrest hung]
      simp [hid]
    · rw [if_neg hid, free] at hung
      rw [ih hung hrest]
      simp [hid]

/-- Whether none of the changes, when its turn comes, puts a node below itself. -/
def Untangled : List Change → Forest → Prop
  | [], _ => True
  | change :: rest, f =>
    ¬ change.Entangles f ∧ ∀ g, change.apply f = .ok g → Untangled rest g

theorem MadeOf.grown (made : f.MadeOf tops) (untangled : Untangled changes f)
    (h : grown? changes f = some g) : ∃ tops', g.MadeOf tops' := by
  induction changes generalizing f tops with
  | nil => exact ⟨tops, Option.some.inj h ▸ made⟩
  | cons change rest ih =>
    obtain ⟨known, mid, happly, hrest⟩ := grown?_cons h
    obtain ⟨tops', hmade⟩ := made.apply untangled.1 known happly
    exact ih hmade (untangled.2 mid happly) hrest

/-- A change that puts a node below itself makes a cycle. -/
theorem Change.Entangles.exists_cycle {change : Change} (h : change.Entangles f)
    (known : ∀ node ∈ change.about, f.holds node = true) (happly : change.apply f = .ok g) :
    ∃ node, Relation.TransGen g.Lists node node := by
  cases change with
  | token _ _ | element _ _ | visibility _ | space => exact h.elim
  | insert parent new anchor =>
    have htakes := insertBefore_takesIn (known new (by simp [about])) happly
    have hnew : g.Lists (.element parent) new :=
      ⟨parent, rfl, htakes.listed.mem_iff.mpr List.mem_cons_self⟩
    have hbelow : Relation.ReflTransGen g.Lists new (.element parent) := by
      refine Relation.ReflTransGen.mono ?_ _ _ h
      rintro a b ⟨id, rfl, hb⟩
      exact ⟨id, rfl, htakes.mem_children hb⟩
    exact ⟨new, .tail' hbelow hnew⟩

/-- Where there is no cycle in the end, no change made one. -/
theorem Acyclic.untangled (h : grown? changes f = some g) (acyclic : g.Acyclic) :
    Untangled changes f := by
  induction changes generalizing f with
  | nil => trivial
  | cons change rest ih =>
    obtain ⟨known, mid, happly, hrest⟩ := grown?_cons h
    refine ⟨fun entangles => ?_, fun g' hg' => ?_⟩
    · obtain ⟨node, hcycle⟩ := entangles.exists_cycle known happly
      exact acyclic node (Relation.TransGen.mono (fun _ _ => lists_grown hrest) _ _ hcycle)
    · obtain rfl := Except.ok.inj (happly.symm.trans hg')
      exact ih hrest

/-- A token has nothing below it, so it can be put anywhere. -/
theorem not_entangles_token (f : Forest) (parent : ElementId) (new : TokenId) (anchor : NodeId) :
    ¬ (Change.insert parent (.token new) anchor).Entangles f := by
  intro h
  rcases Relation.ReflTransGen.cases_head h with heq | ⟨next, ⟨id, hid, -⟩, -⟩
  · cases heq
  · cases hid

end Forest

/-- From a first tree on, a forest has no cycle exactly if no change put a node below itself, and
the root hangs nowhere exactly if no change took it in. Without a cycle every walk along the links
comes to an end. -/
theorem Tree.acyclic_after_changes_iff {t : Tree} (begun : t.Begun) {changes : List Forest.Change}
    {f : Forest} (grown : Forest.grown? changes t.toForest = some f) :
    (f.Acyclic ↔ Forest.Untangled changes t.toForest) ∧
      (f.parent? (.element t.root) = none ↔
        ∀ change ∈ changes, .element t.root ∉ change.takenIn) ∧
      (f.Acyclic → f.Finishes) := by
  obtain ⟨s, made, hroot⟩ := begun.madeOf
  have hfree : t.parent? (.element t.root) = none := by
    rw [← hroot]
    exact (made.carries s List.mem_cons_self).parent?
  refine ⟨⟨Forest.Acyclic.untangled grown, fun untangled => ?_⟩,
    Forest.parent?_grown_eq_none hfree grown, fun acyclic => ?_⟩
  · obtain ⟨tops, hmade⟩ := made.grown untangled grown
    exact hmade.acyclic
  · obtain ⟨tops, hmade⟩ := made.grown (acyclic.untangled grown) grown
    exact hmade.finishes

/-- Changes that put a blank before the name of the function, and leave a visibility beside the
file. -/
def Forest.Change.harmless : List Forest.Change :=
  [.visibility .crateOnly, .space, .insert ⟨0⟩ (.token ⟨5⟩) (.token ⟨0⟩)]

theorem Tree.acyclic_after_changes_iff_sample : ∃ t f, Draft.lone.load = .ok (.ok t) ∧
    Forest.grown? Forest.Change.harmless t.toForest = some f ∧
    f.children ⟨0⟩ = [.token ⟨5⟩, .token ⟨0⟩] ∧ f.Acyclic ∧
    f.parent? (.element t.root) = none ∧ f.Finishes := by
  have hload : ∃ t, Draft.lone.load = .ok (.ok t) ∧ decide (t.root = ⟨1⟩ ∧
      (Forest.grown? Forest.Change.harmless t.toForest).any fun f =>
        f.children ⟨0⟩ = [.token ⟨5⟩, .token ⟨0⟩]) = true :=
    Draft.exists_loaded (by decide +kernel)
  obtain ⟨t, hload, hseen⟩ := hload
  obtain ⟨hroot, hseen⟩ := of_decide_eq_true hseen
  cases hgrown : Forest.grown? Forest.Change.harmless t.toForest with
  | none =>
    rw [hgrown] at hseen
    cases hseen
  | some f =>
    rw [hgrown] at hseen
    obtain ⟨hiff, hfree, hfinishes⟩ := Tree.acyclic_after_changes_iff (.loaded Draft.lone hload) hgrown
    have acyclic : f.Acyclic := hiff.mpr
      ⟨not_false, fun _ _ => ⟨not_false, fun _ _ => ⟨Forest.not_entangles_token _ _ _ _,
        fun _ _ => trivial⟩⟩⟩
    refine ⟨t, f, hload, hgrown, of_decide_eq_true hseen, acyclic, hfree.mpr ?_, hfinishes acyclic⟩
    simp [Forest.Change.harmless, Forest.Change.takenIn]

/-- Changes that put a name into itself, and the file into another name. -/
def Forest.Change.knotting : List Forest.Change :=
  [.token .ident "g", .element .name [.token ⟨1⟩],
    .insert ⟨2⟩ (.element ⟨2⟩) (.token ⟨1⟩),
    .token .ident "h", .element .name [.token ⟨2⟩],
    .insert ⟨3⟩ (.element ⟨1⟩) (.token ⟨2⟩)]

/-- No change meets a fault, and yet a node is below itself in the end and the root in another
element. -/
theorem Tree.knotted_after_changes : ∃ t f, Draft.lone.load = .ok (.ok t) ∧
    Forest.grown? Forest.Change.knotting t.toForest = some f ∧
    Relation.TransGen f.Lists (.element ⟨2⟩) (.element ⟨2⟩) ∧
    f.parent? (.element t.root) = some ⟨3⟩ := by
  have hload : ∃ t, Draft.lone.load = .ok (.ok t) ∧
      ((Forest.grown? Forest.Change.knotting t.toForest).any fun f =>
        .element ⟨2⟩ ∈ f.children ⟨2⟩ ∧ f.parent? (.element t.root) = some ⟨3⟩) = true :=
    Draft.exists_loaded (by decide +kernel)
  obtain ⟨t, hload, hseen⟩ := hload
  cases hgrown : Forest.grown? Forest.Change.knotting t.toForest with
  | none =>
    rw [hgrown] at hseen
    cases hseen
  | some f =>
    rw [hgrown] at hseen
    obtain ⟨hself, hroot⟩ := of_decide_eq_true hseen
    exact ⟨t, f, hload, hgrown, .single ⟨⟨2⟩, rfl, hself⟩, hroot⟩

end DeclVisibility
