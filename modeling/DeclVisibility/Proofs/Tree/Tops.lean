import DeclVisibility.Proofs.Tree.Growth
import DeclVisibility.Proofs.Tree.Order
import DeclVisibility.Proofs.Visibility

/-!
# What a forest that grows is made of

A forest that is made of nested values is so after a change, unless the change puts a node below
itself. A change that makes a new node takes tops in at most, so what was a top is one still or
stands in a new one (`MadeOf.apply_detached`). A node that is put before another one is a top, and
goes into the top that has the other (`MadeOf.apply_insert`). The one thing in its way is that it
may be this top itself, that is, that the element which is to list it is below it
(`Change.Entangles`).

What a tree shows at its root it goes on showing while new nodes are made (`Tree.Shows.grown`).
-/

namespace DeclVisibility

namespace Forest

variable {f g : Forest} {tops : List Subtree} {change : Change}

/-! ## Nodes that hang nowhere -/

/-- A node that hangs nowhere is a top. -/
theorem MadeOf.exists_top (made : f.MadeOf tops) {node : NodeId} (held : f.holds node = true)
    (free : f.parent? node = none) : ∃ s ∈ tops, s.id = node := by
  obtain ⟨s, hs, ⟨q, u⟩, hplace, rfl⟩ := made.exists_placed held
  rw [parent?_eq, made.row_placed hs hplace, Option.bind_some, Subtree.parent_row] at free
  subst free
  obtain ⟨-, rfl⟩ := Prod.mk.inj (Subtree.placed_free hplace)
  exact ⟨s, hs, rfl⟩

/-- Nodes that hang nowhere are tops, and there are the others beside them. -/
theorem MadeOf.exists_tops (made : f.MadeOf tops) : ∀ {nodes : List NodeId}, nodes.Nodup →
    (∀ node ∈ nodes, f.holds node = true) → (∀ node ∈ nodes, f.parent? node = none) →
    ∃ kids rest, kids.map Subtree.id = nodes ∧ tops.Perm (kids ++ rest)
  | [], _, _, _ => ⟨[], tops, rfl, .refl tops⟩
  | node :: nodes, nodup, held, free => by
    rw [List.nodup_cons] at nodup
    obtain ⟨kids, rest, rfl, hperm⟩ := made.exists_tops nodup.2
      (fun other hother => held other (List.mem_cons_of_mem _ hother))
      (fun other hother => free other (List.mem_cons_of_mem _ hother))
    obtain ⟨s, hs, rfl⟩ := made.exists_top (held node List.mem_cons_self) (free node List.mem_cons_self)
    rcases List.mem_append.mp (hperm.mem_iff.mp hs) with hkid | hrest
    · exact absurd (List.mem_map_of_mem hkid) nodup.1
    · obtain ⟨l, r, rfl⟩ := List.append_of_mem hrest
      refine ⟨s :: kids, l ++ r, rfl, hperm.trans ?_⟩
      rw [← List.append_assoc]
      exact List.perm_middle.trans (by rw [List.append_assoc, List.cons_append])

/-! ## Changes that make a new node -/

/-- Whether the change makes a new node, which hangs nowhere at first. -/
def Change.makesDetached : Change → Bool
  | token _ _ | element _ _ | visibility _ | space => true
  | insert _ _ _ => false

/-- Whether every one of the subtrees stands in one of the others. -/
def StandIn (tops tops' : List Subtree) : Prop :=
  ∀ s ∈ tops, ∃ top ∈ tops', ∃ p, (p, s) ∈ top.placed none

theorem StandIn.of_subset {tops' : List Subtree} (h : tops ⊆ tops') : StandIn tops tops' :=
  fun s hs => ⟨s, h hs, none, Subtree.self_mem_placed none s⟩

/-- A change that makes a new node leaves the tops as they are or takes some of them in. -/
theorem MadeOf.apply_detached (made : f.MadeOf tops) (detached : change.makesDetached = true)
    (known : ∀ node ∈ change.about, f.holds node = true) (h : change.apply f = .ok g) :
    ∃ tops', g.MadeOf tops' ∧ StandIn tops tops' := by
  cases change with
  | token kind text =>
    obtain rfl := Except.ok.inj h
    exact ⟨_, made.addToken kind text, .of_subset (List.subset_cons_self _ _)⟩
  | space =>
    obtain rfl := Except.ok.inj h
    exact ⟨_, made.addToken .space " ", .of_subset (List.subset_cons_self _ _)⟩
  | visibility scope =>
    obtain ⟨vis, leaves, added, hadd, -, hmade⟩ := made.addVisibility scope
    rw [Change.apply, hadd] at h
    obtain rfl := Except.ok.inj h
    exact ⟨_, hmade, .of_subset (List.subset_cons_self _ _)⟩
  | element kind children =>
    rw [Change.apply] at h
    split at h
    · cases h
    · rename_i id added hadd
      obtain rfl := Except.ok.inj h
      have htakes := addElement_takesIn known hadd
      obtain ⟨kids, rest, rfl, hperm⟩ := made.exists_tops htakes.nodup known htakes.free
      obtain ⟨added', hadd', hmade⟩ := (made.perm hperm).addElement kind
      obtain ⟨-, rfl⟩ := Prod.mk.inj (Except.ok.inj (hadd'.symm.trans hadd))
      refine ⟨_, hmade, fun s hs => ?_⟩
      rcases List.mem_append.mp (hperm.mem_iff.mp hs) with hkid | hrest
      · -- what was taken in hangs in the new element
        exact ⟨_, List.mem_cons_self, _, Subtree.child_placed (Subtree.self_mem_placed none _) hkid⟩
      · exact ⟨s, List.mem_cons_of_mem _ hrest, none, Subtree.self_mem_placed none s⟩
  | insert parent new anchor => cases detached

/-! ## Changes that put a node before another one -/

/-- Whether the change puts a node below itself: the element that is to list it is the node or is
below it. -/
def Change.Entangles (f : Forest) : Change → Prop
  | insert parent new _ => Relation.ReflTransGen f.Lists new (.element parent)
  | token _ _ | element _ _ | visibility _ | space => False

/-- A node that is put into an element that is not below it goes from one top into another. -/
theorem MadeOf.apply_insert (made : f.MadeOf tops) {parent : ElementId} {new anchor : NodeId}
    (apart : ¬ (Change.insert parent new anchor).Entangles f) (known : f.holds new = true)
    (h : f.insertBefore parent new anchor = .ok g) : ∃ tops', g.MadeOf tops' := by
  obtain ⟨hfree, ⟨before, after, hlisted, -⟩, -, -⟩ := insertBefore_lists h
  have hanchor : anchor ∈ f.children parent := by
    rw [hlisted]
    exact List.mem_append_right _ List.mem_cons_self
  obtain ⟨u, hu, rfl⟩ := made.exists_top known hfree
  obtain ⟨s, hs, q, kind, children, hplace⟩ :=
    made.exists_placed_element (holds_of_mem_children hanchor)
  rw [made.children_placed hs hplace] at hanchor
  obtain ⟨c, hc, rfl⟩ := List.mem_map.mp hanchor
  have hne : u ≠ s := by
    rintro rfl
    exact apart ((made.carries u hu).reaches_iff.mpr
      ((Subtree.mem_nodes_iff none).mpr ⟨_, hplace, rfl⟩))
  -- the new node and the top with the anchor come first, in this order
  obtain ⟨l, r, rfl⟩ := List.append_of_mem hu
  have hs' : s ∈ l ++ r := by
    rw [List.mem_append, List.mem_cons] at hs
    rw [List.mem_append]
    exact hs.imp_right fun hs => hs.resolve_left (Ne.symm hne)
  obtain ⟨l', r', hrest⟩ := List.append_of_mem hs'
  have hperm : (l ++ u :: r).Perm (u :: s :: (l' ++ r')) := by
    refine List.perm_middle.trans ?_
    rw [hrest]
    exact List.perm_middle.cons u
  obtain ⟨g', hg', hmade⟩ := (made.perm hperm).insertBefore hplace hc
  obtain rfl := Except.ok.inj (hg'.symm.trans h)
  exact ⟨_, hmade⟩

/-- A change that puts no node below itself leaves a forest that is made of nested values. -/
theorem MadeOf.apply (made : f.MadeOf tops) (apart : ¬ change.Entangles f)
    (known : ∀ node ∈ change.about, f.holds node = true) (h : change.apply f = .ok g) :
    ∃ tops', g.MadeOf tops' := by
  cases hdetached : change.makesDetached with
  | true =>
    obtain ⟨tops', hmade, -⟩ := made.apply_detached hdetached known h
    exact ⟨tops', hmade⟩
  | false =>
    cases change with
    | insert parent new anchor =>
      exact made.apply_insert apart (known new (by simp [Change.about])) h
    | token _ _ | element _ _ | visibility _ | space => cases hdetached

end Forest

/-! ## What a tree shows -/

namespace Tree.Shows

variable {t : Tree} {s : Subtree} {f g : Forest}

/-- What stands at the root stays there when new nodes are made, also where these take the root
in. -/
theorem apply_detached (h : t.Shows s) {change : Forest.Change} (detached : change.makesDetached = true)
    (known : ∀ node ∈ change.about, t.holds node = true) (happly : change.apply t.toForest = .ok f) :
    (t.withForest f).Shows s := by
  obtain ⟨tops, made, top, htop, p, hplace⟩ := h.placed
  obtain ⟨tops', hmade, hstand⟩ := made.apply_detached detached known happly
  obtain ⟨top', htop', q, hplace'⟩ := hstand top htop
  obtain ⟨q', hin⟩ := Subtree.placed_in hplace q
  exact ⟨h.root, tops', hmade, top', htop', q', Subtree.placed_trans hplace' hin⟩

theorem grown : ∀ {changes : List Forest.Change} {t : Tree}, t.Shows s →
    (∀ change ∈ changes, change.makesDetached = true) →
    Forest.grown? changes t.toForest = some g → (t.withForest g).Shows s
  | [], _, h, _, hgrown => Option.some.inj hgrown ▸ h
  | change :: _, _, h, detached, hgrown =>
    have ⟨known, _, happly, hrest⟩ := Forest.grown?_cons hgrown
    have hfirst := h.apply_detached (detached change List.mem_cons_self) known happly
    hfirst.grown (fun other hother => detached other (List.mem_cons_of_mem _ hother)) hrest

end Tree.Shows

end DeclVisibility
