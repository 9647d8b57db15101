import DeclVisibility.Proofs.Tree.Growth

/-!
# What hangs in an element stays

Whatever new nodes are made and wherever they are put, a token that hangs in an element is never
touched again, and an element lists the same children until a node is put into it (`Change.keeps`).
So an element that owns what it lists keeps its tokens through every run of changes that put nothing
into it (`Forest.tokenChildren_grown`). A visibility that was added to a forest, whatever the
forest, is such an element (`Forest.addVisibility_owns`).
-/

namespace DeclVisibility

namespace Forest

variable {f g : Forest} {id : ElementId} {nodes : List NodeId}

/-! ## Tokens of new elements -/

/-- An element that is added without a fault has a new number. It lists what it takes in, and is
recorded in the tokens among that and in no other tokens. -/
theorem addElement_eq_ok {kind : ElementKind} (known : ∀ node ∈ nodes, f.holds node = true)
    (h : f.addElement kind nodes = .ok (id, g)) :
    f.row? (.element id) = none ∧ g.children id = nodes ∧ ∀ token,
      g.row? (.token token) = if .token token ∈ nodes then
        (f.row? (.token token)).map (Row.hungIn id) else f.row? (.token token) := by
  have hknown : ∀ node ∈ nodes, (f.addBareElement kind).2.holds node = true :=
    fun node hnode => f.holds_addBareElement kind (known node hnode)
  rw [addElement] at h
  simp only at h
  split at h
  · cases h
  · rename_i adopted hadopt
    obtain ⟨rfl, rfl⟩ := Prod.mk.inj (Except.ok.inj h)
    obtain ⟨-, -, rfl⟩ := adopt_eq_ok hknown hadopt
    refine ⟨f.row?_addBareElement_self kind, ?_, fun token => ?_⟩
    · rw [children_setChildren, if_pos rfl]
      rw [holds_foldl_setParent, holds_eq, row?_addBareElement, if_pos rfl]
      rfl
    · have hne : ∀ other, NodeId.element other ≠ .token token := fun _ => NodeId.noConfusion
      rw [row?_setChildren, if_neg (hne _), row?_foldl_setParent, row?_addBareElement,
        if_neg (hne _).symm]

/-- Nodes that hang nowhere can be taken in by a new element. -/
theorem exists_addElement (kind : ElementKind) (nodup : nodes.Nodup)
    (free : ∀ node ∈ nodes, f.parent? node = none) :
    ∃ id g, f.addElement kind nodes = .ok (id, g) := by
  have hfree : ∀ node ∈ nodes, (f.addBareElement kind).2.parent? node = none := by
    intro node hnode
    rw [(f.sameLinks_addBareElement kind).parent, free node hnode]
  have hadopt := adopt_eq_foldl (f.addBareElement kind).1 nodes _ nodup hfree
  simp only [addElement, hadopt]
  exact ⟨_, _, rfl⟩

/-- Tokens of fixed spelling are new tokens, which hang nowhere, and no other row changes. -/
theorem addFixedTokens_rows : ∀ (kinds : List TokenKind) (f : Forest), ∃ ids : List TokenId,
    (addFixedTokens kinds f).1 = ids.map .token ∧ ids.Nodup ∧
      (∀ id ∈ ids, f.row? (.token id) = none) ∧
      ids.map (fun id => (addFixedTokens kinds f).2.row? (.token id)) =
        kinds.map (fun kind => some (.token ⟨kind, kind.spelling?.getD "", none⟩)) ∧
      ∀ node, (∀ id ∈ ids, node ≠ .token id) → (addFixedTokens kinds f).2.row? node = f.row? node
  | [], _ => ⟨[], rfl, List.nodup_nil, (fun _ hid => nomatch hid), rfl, fun _ _ => rfl⟩
  | kind :: rest, f => by
    have hrow := f.row?_addToken kind (kind.spelling?.getD "")
    have hnone := f.row?_addToken_self kind (kind.spelling?.getD "")
    rw [addFixedTokens]
    generalize f.addToken kind (kind.spelling?.getD "") = added at hrow hnone
    obtain ⟨first, mid⟩ := added
    obtain ⟨ids, hids, nodup, fresh, rows, kept⟩ := addFixedTokens_rows rest mid
    have hfirst : mid.row? (.token first) = some (.token ⟨kind, kind.spelling?.getD "", none⟩) := by
      rw [hrow, if_pos rfl]
    -- the first of the tokens was there before the others were made
    have hnot : first ∉ ids := by
      intro hmem
      rw [fresh first hmem] at hfirst
      cases hfirst
    have hne : ∀ id ∈ ids, NodeId.token first ≠ .token id := by
      rintro id hid ⟨⟩
      exact hnot hid
    refine ⟨first :: ids, ?_, List.nodup_cons.mpr ⟨hnot, nodup⟩, ?_, ?_, ?_⟩
    · rw [List.map_cons, ← hids]
    · intro id hid
      rcases List.mem_cons.mp hid with rfl | hid
      · exact hnone
      · rw [← fresh id hid, hrow, if_neg (Ne.symm (hne id hid))]
    · rw [List.map_cons, List.map_cons, ← rows, kept _ hne, hfirst]
    · intro node hnode
      rw [List.forall_mem_cons] at hnode
      rw [kept node hnode.2, hrow, if_neg hnode.1]

/-! ## What a change leaves alone -/

/-- Tokens that hang in an element are as they were, and elements that were held before list what
they listed, except for one element into which a node may have been put. -/
structure Keeps (f g : Forest) (into? : Option ElementId) : Prop where
  token : ∀ token, f.parent? (.token token) ≠ none →
    g.row? (.token token) = f.row? (.token token)
  children : ∀ id, f.holds (.element id) = true → into? ≠ some id → g.children id = f.children id

theorem keeps_addToken (f : Forest) (kind : TokenKind) (text : String) :
    f.Keeps (f.addToken kind text).2 none where
  token token hung := by
    rw [row?_addToken, if_neg]
    intro hnew
    rw [hnew, parent?_eq, row?_addToken_self] at hung
    exact hung rfl
  children id _ _ := (f.sameLinks_addToken kind text).children id

theorem keeps_addFixedTokens (kinds : List TokenKind) (f : Forest) :
    f.Keeps (addFixedTokens kinds f).2 none where
  token token hung := by
    obtain ⟨ids, -, -, fresh, -, kept⟩ := addFixedTokens_rows kinds f
    apply kept
    intro id hid hnew
    rw [hnew, parent?_eq, fresh id hid] at hung
    exact hung rfl
  children id _ _ := (addFixedTokens_links kinds f).1.children id

theorem keeps_addElement {kind : ElementKind} (known : ∀ node ∈ nodes, f.holds node = true)
    (h : f.addElement kind nodes = .ok (id, g)) : f.Keeps g none where
  token token hung := by
    rw [(addElement_eq_ok known h).2.2, if_neg]
    exact fun hmem => hung ((addElement_takesIn known h).free _ hmem)
  children other held _ := by
    apply (addElement_takesIn known h).others
    rintro rfl
    rw [holds_eq, (addElement_eq_ok known h).1] at held
    cases held

theorem keeps_insertBefore {parent : ElementId} {new anchor : NodeId}
    (h : f.insertBefore parent new anchor = .ok g) : f.Keeps g (some parent) where
  token token hung := by
    have hne : new ≠ .token token := by
      rintro rfl
      exact hung (insertBefore_lists h).1
    rw [insertBefore] at h
    split at h
    · cases h
    · split at h
      · cases h
      · obtain rfl := Except.ok.inj h
        rw [row?_setParent, if_neg hne, row?_setChildren, if_neg NodeId.noConfusion]
  children id _ hne := (insertBefore_lists h).2.2.1 id fun heq => hne (congrArg some heq.symm)

/-- The element into which a change puts a node that was made before. -/
def Change.into? : Change → Option ElementId
  | token _ _ | element _ _ | visibility _ | space => none
  | insert parent _ _ => some parent

/-- Every change leaves alone what hangs in an element, and all child lists but one. -/
theorem Change.keeps {change : Change} (known : ∀ node ∈ change.about, f.holds node = true)
    (h : change.apply f = .ok g) : f.Keeps g change.into? := by
  cases change with
  | token kind text =>
    obtain rfl := Except.ok.inj h
    exact f.keeps_addToken kind text
  | space =>
    obtain rfl := Except.ok.inj h
    exact f.keeps_addToken .space " "
  | element kind children =>
    rw [apply] at h
    split at h
    · cases h
    · rename_i hadd
      obtain rfl := Except.ok.inj h
      exact keeps_addElement known hadd
  | visibility scope =>
    rw [apply] at h
    split at h
    · cases h
    · rename_i hadd
      obtain rfl := Except.ok.inj h
      obtain ⟨hsame, hheld, hids⟩ := addFixedTokens_links scope.kinds f
      have hfirst := keeps_addFixedTokens scope.kinds f
      have hsecond := keeps_addElement (fun node hnode => (hids node hnode).1) hadd
      refine ⟨fun token hung => ?_, fun id held hne => ?_⟩
      · rw [hsecond.token token (by rwa [hsame.parent]), hfirst.token token hung]
      · rw [hsecond.children id (hheld _ held) hne, hfirst.children id held hne]
  | insert parent new anchor => exact keeps_insertBefore h

/-! ## Elements that own what they list -/

/-- The element lists something, and all that it lists hangs in it. -/
structure Owns (f : Forest) (id : ElementId) : Prop where
  nonempty : f.children id ≠ []
  hung : ∀ node ∈ f.children id, f.parent? node = some id

theorem Owns.holds (h : f.Owns id) : f.holds (.element id) = true := by
  obtain ⟨node, hnode⟩ := List.exists_mem_of_ne_nil _ h.nonempty
  exact holds_of_mem_children hnode

/-- A change that puts nothing into an element keeps what the element owns, and its tokens. -/
theorem Owns.apply {change : Change} (owns : f.Owns id)
    (known : ∀ node ∈ change.about, f.holds node = true) (h : change.apply f = .ok g)
    (apart : change.into? ≠ some id) : g.Owns id ∧ g.tokenChildren id = f.tokenChildren id := by
  have hkeeps := Change.keeps known h
  have hchildren := hkeeps.children id owns.holds apart
  obtain ⟨parent, nodes, htakes, -⟩ := change.exists_takesIn known h
  refine ⟨⟨?_, ?_⟩, ?_⟩
  · rw [hchildren]
    exact owns.nonempty
  · rw [hchildren]
    exact fun node hnode => htakes.parent?_eq_some (owns.hung node hnode)
  · rw [tokenChildren, tokenChildren, hchildren]
    apply List.filterMap_congr
    intro token htoken
    obtain ⟨node, hnode, heq⟩ := List.mem_filterMap.mp htoken
    cases node with
    | element other => cases heq
    | token other =>
      obtain rfl := Option.some.inj heq
      have hung : f.parent? (.token other) ≠ none := by
        rw [owns.hung _ hnode]
        exact Option.some_ne_none id
      exact Option.map_injective (fun _ _ => Row.token.inj) (hkeeps.token other hung)

/-- So does every run of changes that put nothing into the element. -/
theorem tokenChildren_grown : ∀ {changes : List Change} {f : Forest}, f.Owns id →
    grown? changes f = some g → (∀ change ∈ changes, change.into? ≠ some id) →
    g.tokenChildren id = f.tokenChildren id
  | [], _, _, h, _ => by rw [Option.some.inj h]
  | change :: rest, f, owns, h, apart => by
    rw [List.forall_mem_cons] at apart
    obtain ⟨known, mid, happly, hrest⟩ := grown?_cons h
    obtain ⟨howns, htokens⟩ := owns.apply known happly apart.1
    rw [tokenChildren_grown howns hrest apart.2, htokens]

/-! ## A visibility of its own -/

/-- What is read of an element that lists tokens is what is held of them. -/
theorem tokenChildren_of_rows {ids : List TokenId} {tokens : List Token}
    (listed : f.children id = ids.map .token)
    (rows : ids.map (fun token => f.row? (.token token)) =
      tokens.map fun token => some (.token token)) :
    f.tokenChildren id = tokens := by
  have hinj : Function.Injective (List.map (Option.map Row.token)) :=
    List.map_injective_iff.mpr (Option.map_injective fun _ _ => Row.token.inj)
  have hheld : ids.map f.token? = tokens.map some := by
    apply hinj
    rw [List.map_map, List.map_map]
    exact rows
  have hids : (f.children id).filterMap NodeId.token? = ids := by
    rw [listed, List.filterMap_map]
    exact List.filterMap_some
  calc f.tokenChildren id
      = (ids.map f.token?).filterMap fun held => held := by
        rw [tokenChildren, hids, List.filterMap_map]
        rfl
    _ = tokens := by
        rw [hheld, List.filterMap_map]
        exact List.filterMap_some

/-- A visibility can be added to every forest. It owns the fixed tokens of its scope. -/
theorem addVisibility_owns (f : Forest) (scope : Scope) :
    ∃ vis g, f.addVisibility scope = .ok (vis, g) ∧ g.Owns vis ∧ g.tokenChildren vis =
      scope.kinds.map fun kind => ⟨kind, kind.spelling?.getD "", some vis⟩ := by
  obtain ⟨ids, hids, nodup, fresh, rows, -⟩ := addFixedTokens_rows scope.kinds f
  obtain ⟨hsame, -, hknown⟩ := addFixedTokens_links scope.kinds f
  have known := fun node hnode => (hknown node hnode).1
  unfold addVisibility
  generalize addFixedTokens scope.kinds f = added at hids rows hsame known
  obtain ⟨nodes, mid⟩ := added
  obtain rfl : nodes = ids.map .token := hids
  have free : ∀ node ∈ ids.map NodeId.token, mid.parent? node = none := by
    intro node hnode
    obtain ⟨id, hid, rfl⟩ := List.mem_map.mp hnode
    rw [hsame.parent, parent?_eq, fresh id hid]
    rfl
  obtain ⟨vis, g, hadd⟩ := exists_addElement .vis (nodup.map fun _ _ => NodeId.token.inj) free
  have htakes := addElement_takesIn known hadd
  obtain ⟨-, hchildren, hrow⟩ := addElement_eq_ok known hadd
  refine ⟨vis, g, hadd, ⟨?_, fun node hnode => ?_⟩, tokenChildren_of_rows hchildren ?_⟩
  · rw [hchildren, List.map_eq_nil_iff.ne]
    rintro rfl
    cases scope <;> cases rows
  · rw [hchildren] at hnode
    rw [htakes.hung, if_pos hnode]
  · calc ids.map (fun token => g.row? (.token token))
        = (ids.map fun token => mid.row? (.token token)).map (Option.map (Row.hungIn vis)) := by
          rw [List.map_map]
          apply List.map_congr_left
          intro token htoken
          rw [hrow, if_pos (List.mem_map_of_mem htoken)]
          rfl
      _ = _ := by
          rw [rows, List.map_map, List.map_map]
          rfl

end Forest

end DeclVisibility
