import DeclVisibility.Proofs.Exchange.Loading
import DeclVisibility.Proofs.Tree.Words
import DeclVisibility.Visibility

/-!
# Forests that grow

A forest grows by new nodes, which hang nowhere or take in nodes that hang nowhere, and by putting
such a node before a child of an element (`Forest.Change`). None of this breaks a link: what a
change takes in hung nowhere, hangs in one element from then on, and is listed there once
(`Change.exists_takesIn`). So the two records of every link agree after any changes that met no
fault, whatever nodes these were about (`Forest.linked_grown`).

The nodes may be any that are held, so a forest can grow out of what a nested value can say: an
element may be put below itself.
-/

namespace DeclVisibility

namespace Forest

variable {f g : Forest} {parent : ElementId} {nodes : List NodeId}

/-! ## Links in changed rows -/

theorem children_eq_getD (id : ElementId) :
    f.children id = ((f.element? id).map Element.children).getD [] := by
  rw [children]
  cases f.element? id <;> rfl

theorem children_setParent (node : NodeId) (id : ElementId) :
    (f.setParent node parent).children id = f.children id := by
  cases node with
  | token other => rfl
  | element other =>
    simp only [children_eq_getD, setParent, element?, Table.get?_modify]
    split
    · rw [Option.map_map]
      rfl
    · rfl

theorem children_foldl_setParent (id : ElementId) : ∀ (nodes : List NodeId) (f : Forest),
    (nodes.foldl (fun g child => g.setParent child parent) f).children id = f.children id
  | [], _ => rfl
  | node :: rest, f => by
    rw [List.foldl_cons, children_foldl_setParent id rest, children_setParent]

theorem children_setChildren (held : f.holds (.element parent) = true) (children : List NodeId)
    (id : ElementId) : (f.setChildren parent children).children id =
      if id = parent then children else f.children id := by
  simp only [children_eq_getD, setChildren, element?, Table.get?_modify, ElementId.num_inj]
  by_cases hid : parent = id
  · subst hid
    rw [holds, Table.has_iff, Option.isSome_iff_exists] at held
    obtain ⟨row, hrow⟩ := held
    simp [hrow]
  · rw [if_neg hid, if_neg (Ne.symm hid)]

theorem parent?_setChildren (id : ElementId) (children : List NodeId) (node : NodeId) :
    (f.setChildren id children).parent? node = f.parent? node := by
  rw [parent?_eq, row?_setChildren, parent?_eq]
  split
  · rw [Option.bind_map]
    congr 1
    funext row
    cases row <;> rfl
  · rfl

theorem parent?_foldl_setParent (known : ∀ node ∈ nodes, f.holds node = true) (node : NodeId) :
    (nodes.foldl (fun g child => g.setParent child parent) f).parent? node =
      if node ∈ nodes then some parent else f.parent? node := by
  rw [parent?_eq, row?_foldl_setParent]
  split
  · rename_i hnode
    have held := known node hnode
    rw [holds_eq, Option.isSome_iff_exists] at held
    obtain ⟨row, hrow⟩ := held
    rw [hrow]
    cases row <;> rfl
  · rw [parent?_eq]

theorem parent?_setParent {node : NodeId} (held : f.holds node = true) (other : NodeId) :
    (f.setParent node parent).parent? other =
      if other = node then some parent else f.parent? other := by
  have hone : ([node].foldl (fun g child => g.setParent child parent) f).parent? other =
      if other ∈ [node] then some parent else f.parent? other :=
    parent?_foldl_setParent (by simpa using held) other
  simpa using hone

/-! ## What a change does to the links -/

/-- Every link of the one forest is a link of the other. -/
structure SameLinks (f g : Forest) : Prop where
  parent : ∀ node, g.parent? node = f.parent? node
  children : ∀ id, g.children id = f.children id

/-- Nodes that hung nowhere hang in an element, which lists them beside what it listed before, and
every other link is as it was. -/
structure TakesIn (f g : Forest) (parent : ElementId) (nodes : List NodeId) : Prop where
  nodup : nodes.Nodup
  free : ∀ node ∈ nodes, f.parent? node = none
  hung : ∀ node, g.parent? node = if node ∈ nodes then some parent else f.parent? node
  listed : (g.children parent).Perm (nodes ++ f.children parent)
  others : ∀ id, id ≠ parent → g.children id = f.children id

/-- Nothing is taken in where every link is as it was. -/
theorem SameLinks.takesIn (h : f.SameLinks g) (parent : ElementId) : f.TakesIn g parent [] where
  nodup := List.nodup_nil
  free _ hnode := nomatch hnode
  hung node := by rw [h.parent, if_neg List.not_mem_nil]
  listed := by rw [h.children, List.nil_append]
  others id _ := h.children id

theorem SameLinks.trans_takesIn {mid : Forest} (h : f.SameLinks mid) (hmid : mid.TakesIn g parent nodes) :
    f.TakesIn g parent nodes where
  nodup := hmid.nodup
  free node hnode := by rw [← h.parent, hmid.free node hnode]
  hung node := by rw [hmid.hung, h.parent]
  listed := by rw [← h.children]; exact hmid.listed
  others id hid := by rw [hmid.others id hid, h.children]

/-- What hangs in an element stays there. -/
theorem TakesIn.parent?_eq_some (h : f.TakesIn g parent nodes) {node : NodeId} {id : ElementId}
    (hparent : f.parent? node = some id) : g.parent? node = some id := by
  rw [h.hung, if_neg, hparent]
  intro hnode
  rw [h.free node hnode] at hparent
  cases hparent

/-- What an element lists it goes on listing. -/
theorem TakesIn.mem_children (h : f.TakesIn g parent nodes) {node : NodeId} {id : ElementId}
    (hnode : node ∈ f.children id) : node ∈ g.children id := by
  by_cases hid : id = parent
  · subst hid
    exact h.listed.mem_iff.mpr (List.mem_append_right _ hnode)
  · rwa [h.others id hid]

theorem TakesIn.linked (h : f.TakesIn g parent nodes) (linked : f.Linked) : g.Linked := by
  intro id node
  rw [h.hung]
  by_cases hid : id = parent
  · subst hid
    rw [h.listed.count_eq, List.count_append, linked id node, h.nodup.count]
    by_cases hnode : node ∈ nodes
    · simp [hnode, h.free node hnode]
    · simp [hnode]
  · rw [h.others id hid, linked id node]
    by_cases hnode : node ∈ nodes
    · simp [hnode, h.free node hnode, Ne.symm hid]
    · simp [hnode]

theorem sameLinks_addToken (f : Forest) (kind : TokenKind) (text : String) :
    f.SameLinks (f.addToken kind text).2 where
  parent node := by
    rw [parent?_eq, row?_addToken, parent?_eq]
    split
    · rename_i hnew
      rw [hnew, row?_addToken_self]
      rfl
    · rfl
  children _ := rfl

theorem sameLinks_addBareElement (f : Forest) (kind : ElementKind) :
    f.SameLinks (f.addBareElement kind).2 where
  parent node := by
    rw [parent?_eq, row?_addBareElement, parent?_eq]
    split
    · rename_i hnew
      rw [hnew, row?_addBareElement_self]
      rfl
    · rfl
  children id := by
    rw [children_eq_getD, children_eq_getD, element?, addBareElement, Table.get?_push]
    split
    · rename_i hnew
      have hnone : f.element? id = none := by
        rw [element?, hnew]
        simp [Table.get?, Table.size]
      rw [hnone]
      rfl
    · rfl

theorem holds_addToken (f : Forest) (kind : TokenKind) (text : String) {node : NodeId}
    (held : f.holds node = true) : (f.addToken kind text).2.holds node = true := by
  rw [holds_eq, row?_addToken]
  split
  · rfl
  · rwa [← holds_eq]

theorem holds_addBareElement (f : Forest) (kind : ElementKind) {node : NodeId}
    (held : f.holds node = true) : (f.addBareElement kind).2.holds node = true := by
  rw [holds_eq, row?_addBareElement]
  split
  · rfl
  · rwa [← holds_eq]

/-- Nodes that are adopted without a fault hung nowhere, and none of them was named twice. -/
theorem adopt_eq_ok : ∀ {nodes : List NodeId} {f : Forest}, (∀ node ∈ nodes, f.holds node = true) →
    adopt parent nodes f = .ok g → nodes.Nodup ∧ (∀ node ∈ nodes, f.parent? node = none) ∧
      g = nodes.foldl (fun g child => g.setParent child parent) f
  | [], f, _, h => ⟨List.nodup_nil, (fun _ hnode => nomatch hnode), (Except.ok.inj h).symm⟩
  | node :: rest, f, known, h => by
    rw [adopt] at h
    split at h
    · cases h
    · rename_i hfree
      have held := known node List.mem_cons_self
      have hset : ∀ other, (f.setParent node parent).parent? other =
          if other = node then some parent else f.parent? other := parent?_setParent held
      have knownRest : ∀ other ∈ rest, (f.setParent node parent).holds other = true := by
        intro other hother
        rw [holds_setParent]
        exact known other (List.mem_cons_of_mem _ hother)
      obtain ⟨nodup, free, hg⟩ := adopt_eq_ok knownRest h
      -- a node that was adopted before could not be adopted again
      have hnot : node ∉ rest := by
        intro hmem
        have hnone := free node hmem
        rw [hset, if_pos rfl] at hnone
        cases hnone
      refine ⟨List.nodup_cons.mpr ⟨hnot, nodup⟩, ?_, hg⟩
      intro other hother
      rcases List.mem_cons.mp hother with rfl | hother
      · exact hfree
      · have hne : other ≠ node := fun heq => hnot (heq ▸ hother)
        have hnone := free other hother
        rwa [hset, if_neg hne] at hnone

/-- An element that has no children takes in the nodes that it adopts without a fault. -/
theorem adopt_takesIn {id : ElementId} (known : ∀ node ∈ nodes, f.holds node = true)
    (held : f.holds (.element id) = true) (childless : f.children id = [])
    (h : adopt id nodes f = .ok g) : f.TakesIn (g.setChildren id nodes) id nodes := by
  obtain ⟨nodup, free, rfl⟩ := adopt_eq_ok known h
  have hset : ∀ other, ((nodes.foldl (fun g child => g.setParent child id) f).setChildren id
      nodes).children other = if other = id then nodes else
        (nodes.foldl (fun g child => g.setParent child id) f).children other := by
    apply children_setChildren
    rw [holds_foldl_setParent]
    exact held
  exact {
    nodup := nodup
    free := free
    hung := fun node => by rw [parent?_setChildren, parent?_foldl_setParent known]
    listed := by rw [hset, if_pos rfl, childless, List.append_nil]
    others := fun other hother => by rw [hset, if_neg hother, children_foldl_setParent] }

/-- An element that was added without a fault takes in the nodes that it was given. -/
theorem addElement_takesIn {kind : ElementKind} {id : ElementId}
    (known : ∀ node ∈ nodes, f.holds node = true) (h : f.addElement kind nodes = .ok (id, g)) :
    f.TakesIn g id nodes := by
  have hbare := f.sameLinks_addBareElement kind
  have hnew : (f.addBareElement kind).2.holds (.element (f.addBareElement kind).1) = true := by
    rw [holds_eq, row?_addBareElement, if_pos rfl]
    rfl
  have hchildless : (f.addBareElement kind).2.children (f.addBareElement kind).1 = [] := by
    rw [hbare.children]
    apply List.eq_nil_iff_forall_not_mem.mpr
    intro node hnode
    have held := holds_of_mem_children hnode
    rw [holds_eq, row?_addBareElement_self] at held
    cases held
  have hknown : ∀ node ∈ nodes, (f.addBareElement kind).2.holds node = true :=
    fun node hnode => f.holds_addBareElement kind (known node hnode)
  rw [Forest.addElement] at h
  simp only at h
  split at h
  · cases h
  · rename_i adopted hadopt
    obtain ⟨rfl, rfl⟩ := Prod.mk.inj (Except.ok.inj h)
    exact hbare.trans_takesIn (adopt_takesIn hknown hnew hchildless hadopt)

/-- Tokens of fixed spelling are new nodes, which are held and change no link. -/
theorem addFixedTokens_links : ∀ (kinds : List TokenKind) (f : Forest),
    f.SameLinks (addFixedTokens kinds f).2 ∧
      (∀ node, f.holds node = true → (addFixedTokens kinds f).2.holds node = true) ∧
      ∀ node ∈ (addFixedTokens kinds f).1, (addFixedTokens kinds f).2.holds node = true ∧
        ∃ id, node = .token id
  | [], f => ⟨⟨fun _ => rfl, fun _ => rfl⟩, fun _ held => held, fun _ hnode => nomatch hnode⟩
  | kind :: rest, f => by
    rw [addFixedTokens]
    have hfirst := f.sameLinks_addToken kind (kind.spelling?.getD "")
    have held : ∀ node, f.holds node = true →
        (f.addToken kind (kind.spelling?.getD "")).2.holds node = true :=
      fun _ => f.holds_addToken kind (kind.spelling?.getD "")
    have hnew : (f.addToken kind (kind.spelling?.getD "")).2.holds
        (.token (f.addToken kind (kind.spelling?.getD "")).1) = true := by
      rw [holds_eq, row?_addToken, if_pos rfl]
      rfl
    generalize f.addToken kind (kind.spelling?.getD "") = added at hfirst held hnew
    obtain ⟨id, mid⟩ := added
    obtain ⟨hrest, hkept, hids⟩ := addFixedTokens_links rest mid
    refine ⟨⟨fun node => ?_, fun id => ?_⟩, fun node hnode => hkept node (held node hnode), ?_⟩
    · exact (hrest.parent node).trans (hfirst.parent node)
    · exact (hrest.children id).trans (hfirst.children id)
    · intro node hnode
      rcases List.mem_cons.mp hnode with rfl | hnode
      · exact ⟨hkept _ hnew, id, rfl⟩
      · exact hids node hnode

theorem listWithBefore_eq_some {new anchor : NodeId} : ∀ {children changed : List NodeId},
    listWithBefore new anchor children = some changed → ∃ before after,
      children = before ++ anchor :: after ∧ changed = before ++ new :: anchor :: after
  | [], _, h => nomatch h
  | node :: rest, changed, h => by
    rw [listWithBefore] at h
    split at h
    · rename_i hanchor
      subst hanchor
      exact ⟨[], rest, rfl, (Option.some.inj h).symm⟩
    · obtain ⟨others, hothers, rfl⟩ := Option.map_eq_some_iff.mp h
      obtain ⟨before, after, rfl, rfl⟩ := listWithBefore_eq_some hothers
      exact ⟨node :: before, after, rfl, rfl⟩

/-- A node that is put in without a fault hung nowhere. It is listed directly before the anchor, and
no other child list changes. -/
theorem insertBefore_lists {new anchor : NodeId} (h : f.insertBefore parent new anchor = .ok g) :
    f.parent? new = none ∧ (∃ before after, f.children parent = before ++ anchor :: after ∧
      g.children parent = before ++ new :: anchor :: after) ∧
      (∀ id, id ≠ parent → g.children id = f.children id) ∧
      (f.holds new = true → ∀ node, g.parent? node =
        if node = new then some parent else f.parent? node) := by
  rw [insertBefore] at h
  split at h
  · cases h
  · rename_i hfree
    split at h
    · cases h
    · rename_i changed hlist
      obtain rfl := Except.ok.inj h
      obtain ⟨before, after, hlisted, rfl⟩ := listWithBefore_eq_some hlist
      have held : f.holds (.element parent) = true := by
        have hanchor : anchor ∈ f.children parent := by
          rw [hlisted]
          exact List.mem_append_right _ List.mem_cons_self
        exact holds_of_mem_children hanchor
      have hset := children_setChildren held (before ++ new :: anchor :: after)
      refine ⟨hfree, ⟨before, after, hlisted, ?_⟩, ?_, ?_⟩
      · rw [children_setParent, hset, if_pos rfl]
      · intro id hid
        rw [children_setParent, hset, if_neg hid]
      · intro hnew node
        rw [parent?_setParent (by rw [holds_setChildren]; exact hnew), parent?_setChildren]

/-- A node that is put in without a fault is taken in. -/
theorem insertBefore_takesIn {new anchor : NodeId} (known : f.holds new = true)
    (h : f.insertBefore parent new anchor = .ok g) : f.TakesIn g parent [new] := by
  obtain ⟨hfree, ⟨before, after, hlisted, hchanged⟩, hothers, hparent⟩ := insertBefore_lists h
  exact {
    nodup := List.nodup_singleton new
    free := by simpa using hfree
    hung := by simpa using hparent known
    listed := by
      rw [hchanged, hlisted]
      exact List.perm_middle
    others := hothers }

/-! ## Changes -/

/-- An operation by which a forest grows. -/
inductive Change where
  | token (kind : TokenKind) (text : String)
  | element (kind : ElementKind) (children : List NodeId)
  | visibility (scope : Scope)
  | space
  | insert (parent : ElementId) (new anchor : NodeId)
  deriving Repr

/-- The nodes that a change is about. -/
def Change.about : Change → List NodeId
  | token _ _ | visibility _ | space => []
  | element _ children => children
  | insert parent new anchor => [.element parent, new, anchor]

/-- The nodes that were made before and that a change hangs in an element. -/
def Change.takenIn : Change → List NodeId
  | token _ _ | visibility _ | space => []
  | element _ children => children
  | insert _ new _ => [new]

/-- The forest after a change, or the fault that the change met. -/
def Change.apply (f : Forest) : Change → Except Fault Forest
  | token kind text => .ok (f.addToken kind text).2
  | element kind children =>
    match f.addElement kind children with
    | .error fault => .error fault
    | .ok (_, g) => .ok g
  | visibility scope =>
    match f.addVisibility scope with
    | .error fault => .error fault
    | .ok (_, g) => .ok g
  | space => .ok f.addSpace.2
  | insert parent new anchor => f.insertBefore parent new anchor

/-- The forest after changes, one after the other, if each is about nodes that are held when its
turn comes and none meets a fault. -/
def grown? : List Change → Forest → Option Forest
  | [], f => some f
  | change :: rest, f =>
    if ∀ node ∈ change.about, f.holds node = true then
      match change.apply f with
      | .error _ => none
      | .ok g => grown? rest g
    else none

/-- A change takes in the elements that it says, and no links but those of what it takes in are
new. -/
theorem Change.exists_takesIn {change : Change} (known : ∀ node ∈ change.about, f.holds node = true)
    (h : change.apply f = .ok g) : ∃ parent nodes, f.TakesIn g parent nodes ∧
      ∀ id, .element id ∈ nodes ↔ .element id ∈ change.takenIn := by
  cases change with
  | token kind text =>
    obtain rfl := Except.ok.inj h
    exact ⟨⟨0⟩, [], (f.sameLinks_addToken kind text).takesIn _, fun _ => Iff.rfl⟩
  | space =>
    obtain rfl := Except.ok.inj h
    exact ⟨⟨0⟩, [], (f.sameLinks_addToken .space " ").takesIn _, fun _ => Iff.rfl⟩
  | element kind children =>
    rw [apply] at h
    split at h
    · cases h
    · rename_i hadd
      obtain rfl := Except.ok.inj h
      exact ⟨_, children, addElement_takesIn known hadd, fun _ => Iff.rfl⟩
  | visibility scope =>
    rw [apply] at h
    split at h
    · cases h
    · rename_i hadd
      obtain rfl := Except.ok.inj h
      obtain ⟨hsame, -, hids⟩ := addFixedTokens_links scope.kinds f
      have htakes := addElement_takesIn (fun node hnode => (hids node hnode).1) hadd
      refine ⟨_, _, hsame.trans_takesIn htakes, fun id => ?_⟩
      -- it takes in tokens, which are all new
      constructor
      · intro hmem
        obtain ⟨-, token, htoken⟩ := hids _ hmem
        cases htoken
      · intro hmem
        cases hmem
  | insert parent new anchor =>
    exact ⟨parent, [new], insertBefore_takesIn (known new (by simp [about])) h, fun _ => Iff.rfl⟩

/-- One change keeps the records of every link in agreement. -/
theorem Change.linked {change : Change} (linked : f.Linked)
    (known : ∀ node ∈ change.about, f.holds node = true) (h : change.apply f = .ok g) :
    g.Linked := by
  obtain ⟨parent, nodes, htakes, -⟩ := change.exists_takesIn known h
  exact htakes.linked linked

theorem grown?_cons {change : Change} {rest : List Change} (h : grown? (change :: rest) f = some g) :
    (∀ node ∈ change.about, f.holds node = true) ∧
      ∃ mid, change.apply f = .ok mid ∧ grown? rest mid = some g := by
  rw [grown?] at h
  split at h
  · rename_i known
    split at h
    · cases h
    · rename_i mid happly
      exact ⟨known, mid, happly, h⟩
  · cases h

/-- What every change keeps is kept by every run of changes. -/
theorem grown_invariant {P : Forest → Prop} (step : ∀ {change : Change} {f g : Forest},
    (∀ node ∈ change.about, f.holds node = true) → change.apply f = .ok g → P f → P g) :
    ∀ {changes : List Change} {f : Forest}, grown? changes f = some g → P f → P g
  | [], _, h, hf => Option.some.inj h ▸ hf
  | _ :: _, _, h, hf =>
    have ⟨known, _, happly, hrest⟩ := grown?_cons h
    grown_invariant step hrest (step known happly hf)

/-- So does every run of changes. -/
theorem linked_grown {changes : List Change} (linked : f.Linked) (h : grown? changes f = some g) :
    g.Linked :=
  grown_invariant (fun known happly linked => Change.linked linked known happly) h linked

end Forest

/-! ## From a first tree on -/

/-- A tree as it is at first: built of events, or loaded from a draft. -/
inductive Tree.Begun (t : Tree) : Prop
  | built (events : List Event) (h : Tree.ofEvents events = .ok t)
  | loaded (d : Draft) (h : d.load = .ok (.ok t))

/-- At first every node but the root hangs in one element. -/
theorem Tree.Begun.madeOf {t : Tree} (h : t.Begun) :
    ∃ s, t.toForest.MadeOf [s] ∧ s.id = .element t.root := by
  cases h with
  | built events h => exact Tree.madeOf_of_ofEvents h
  | loaded d h =>
    obtain ⟨events, -, hbuilt⟩ := Draft.exists_events_of_load h
    exact Tree.madeOf_of_ofEvents hbuilt

/-- From a first tree on, whatever new nodes are made and wherever they are put, the two records of
every link agree. Putting a node before a child of an element that lists it changes no list but that
of the element, which gains the node directly before the child. -/
theorem Tree.linked_after_changes {t : Tree} (begun : t.Begun) {changes : List Forest.Change}
    {f : Forest} (grown : Forest.grown? changes t.toForest = some f) :
    f.Linked ∧ ∀ parent new anchor g, f.insertBefore parent new anchor = .ok g →
      (∃ before after, f.children parent = before ++ anchor :: after ∧
        g.children parent = before ++ new :: anchor :: after) ∧
      ∀ id, id ≠ parent → g.children id = f.children id := by
  obtain ⟨s, made, -⟩ := begun.madeOf
  refine ⟨Forest.linked_grown made.linked grown, ?_⟩
  intro parent new anchor g h
  obtain ⟨-, hlisted, hothers, -⟩ := Forest.insertBefore_lists h
  exact ⟨hlisted, hothers⟩

/-- A file with nothing but a function in it. -/
def Draft.lone : Draft := .element .sourceFile [.element .fnItem [.token .ident (some "f")]]

/-- Changes that make the function public, give a new name to the file, and put the file into the
function that is in it. -/
def Forest.Change.entangling : List Forest.Change :=
  [.visibility .crateOnly, .space,
    .insert ⟨0⟩ (.element ⟨2⟩) (.token ⟨0⟩), .insert ⟨0⟩ (.token ⟨5⟩) (.token ⟨0⟩),
    .token .ident "g", .element .name [.token ⟨6⟩],
    .insert ⟨1⟩ (.element ⟨3⟩) (.element ⟨0⟩), .insert ⟨0⟩ (.element ⟨1⟩) (.token ⟨0⟩)]

theorem Tree.linked_after_changes_sample : ∃ t f, Draft.lone.load = .ok (.ok t) ∧
    Forest.grown? Forest.Change.entangling t.toForest = some f ∧
    f.children ⟨0⟩ = [.element ⟨2⟩, .token ⟨5⟩, .element ⟨1⟩, .token ⟨0⟩] ∧
    f.children ⟨1⟩ = [.element ⟨3⟩, .element ⟨0⟩] ∧ f.Linked := by
  have hload : ∃ t, Draft.lone.load = .ok (.ok t) ∧
      ((Forest.grown? Forest.Change.entangling t.toForest).any fun f =>
        f.children ⟨0⟩ = [.element ⟨2⟩, .token ⟨5⟩, .element ⟨1⟩, .token ⟨0⟩] ∧
        f.children ⟨1⟩ = [.element ⟨3⟩, .element ⟨0⟩]) = true :=
    Draft.exists_loaded (by decide +kernel)
  obtain ⟨t, hload, hseen⟩ := hload
  cases hgrown : Forest.grown? Forest.Change.entangling t.toForest with
  | none =>
    rw [hgrown] at hseen
    cases hseen
  | some f =>
    rw [hgrown] at hseen
    obtain ⟨hdecl, hroot⟩ := of_decide_eq_true hseen
    exact ⟨t, f, hload, hgrown, hdecl, hroot,
      (Tree.linked_after_changes (.loaded Draft.lone hload) hgrown).1⟩

end DeclVisibility
