import DeclVisibility.Proofs.Tree.Soundness

/-!
# What a tree looks like

A shown form tells the kind of an element and the text of a token, and the kind of a token only
where it fixes the text; it tells no numbers (`Look`). Trees look alike if the same is seen along
every path of child indexes from their roots (`Tree.LooksLike`), and so do nested values
(`Subtree.LooksLike`). Values that look alike go in step, child by child (`looksLike_element`), so
they have the same texts and the same shown forms.
-/

namespace DeclVisibility

/-- What a shown form tells of one node. -/
inductive Look where
  /-- Of a token its text, and its kind if that fixes the text. -/
  | token (fixed? : Option TokenKind) (text : String)
  | element (kind : ElementKind)
  deriving DecidableEq, Repr

/-- The kind, if it fixes the text of its tokens. -/
def TokenKind.fixed? (kind : TokenKind) : Option TokenKind := kind.spelling?.map fun _ => kind

namespace Subtree

variable {s s' : Subtree}

/-- What is seen of the top. -/
def look : Subtree → Look
  | token leaf => .token leaf.kind.fixed? leaf.text
  | element _ kind _ => .element kind

/-- The same is seen along every path of child indexes. -/
def LooksLike (s s' : Subtree) : Prop := ∀ path, (s.at? path).map look = (s'.at? path).map look

/-! ## Values in step -/

theorem LooksLike.look (h : s.LooksLike s') : s.look = s'.look := by
  have htop := h []
  rw [at?, at?, Option.map_some, Option.map_some] at htop
  exact Option.some.inj htop

theorem looksLike_token {leaf leaf' : Leaf} :
    (token leaf).LooksLike (token leaf') ↔ (token leaf).look = (token leaf').look := by
  refine ⟨LooksLike.look, fun h path => ?_⟩
  cases path with
  | nil => rw [at?, at?, Option.map_some, Option.map_some, h]
  | cons i rest => rfl

/-- Lists look alike in step exactly if the same is seen along every path that starts with an index
into them. -/
theorem forall₂_looksLike_iff {cs cs' : List Subtree} : List.Forall₂ LooksLike cs cs' ↔
    ∀ (i : Nat) (rest : List Nat), (cs[i]?.bind fun c => at? c rest).map Subtree.look =
      (cs'[i]?.bind fun c => at? c rest).map Subtree.look := by
  constructor
  · intro h
    induction h with
    | nil => exact fun _ _ => rfl
    | cons hc _ ih =>
      intro i rest
      cases i with
      | zero => exact hc rest
      | succ i => exact ih i rest
  · intro h
    induction cs generalizing cs' with
    | nil =>
      cases cs' with
      | nil => exact .nil
      | cons c' rest' =>
        have hfirst := h 0 []
        rw [List.getElem?_cons_zero, Option.bind_some, at?] at hfirst
        cases hfirst
    | cons c rest ih =>
      cases cs' with
      | nil =>
        have hfirst := h 0 []
        rw [List.getElem?_cons_zero, Option.bind_some, at?] at hfirst
        cases hfirst
      | cons c' rest' => exact .cons (fun path => h 0 path) (ih fun i path => h (i + 1) path)

theorem looksLike_element {id id' : ElementId} {kind kind' : ElementKind}
    {children children' : List Subtree} :
    (element id kind children).LooksLike (element id' kind' children') ↔
      kind = kind' ∧ List.Forall₂ LooksLike children children' := by
  rw [forall₂_looksLike_iff]
  constructor
  · exact fun h => ⟨Look.element.inj h.look, fun i rest => h (i :: rest)⟩
  · rintro ⟨rfl, h⟩ path
    cases path with
    | nil => rfl
    | cons i rest => exact h i rest

/-- Induction over two values that look alike. -/
theorem LooksLike.induction {motive : Subtree → Subtree → Prop}
    (token : ∀ leaf leaf', (Subtree.token leaf).look = (Subtree.token leaf').look →
      motive (.token leaf) (.token leaf'))
    (element : ∀ id id' kind children children', List.Forall₂ motive children children' →
      motive (.element id kind children) (.element id' kind children'))
    (h : s.LooksLike s') : motive s s' := by
  induction s generalizing s' with
  | token leaf =>
    cases s' with
    | token leaf' => exact token leaf leaf' h.look
    | element id' kind' children' => cases h.look
  | element id kind children ih =>
    cases s' with
    | token leaf' => cases h.look
    | element id' kind' children' =>
      obtain ⟨rfl, hchildren⟩ := looksLike_element.mp h
      apply element
      -- the children go in step
      clear h
      induction hchildren with
      | nil => exact .nil
      | cons hc _ ihr =>
        exact .cons (ih _ List.mem_cons_self hc) (ihr fun d hd => ih d (List.mem_cons_of_mem _ hd))

/-! ## What values that look alike share -/

theorem linesOfAll_eq : ∀ ss : List Subtree, linesOfAll ss = ss.map lineChars
  | [] => rfl
  | s :: rest => by rw [linesOfAll, linesOfAll_eq rest, List.map_cons]

theorem blocksOfAll_eq (depth : Nat) : ∀ ss : List Subtree, blocksOfAll depth ss =
    (ss.map fun c => indent depth ++ c.blockChars depth ++ [',', '\n']).flatten
  | [] => rfl
  | s :: rest => by
    rw [blocksOfAll, blocksOfAll_eq depth rest, List.map_cons, List.flatten_cons]

/-- A function has the same values on lists whose entries have the same ones in step. -/
theorem map_eq_of_forall₂ {α : Type} {f : Subtree → α} {ss ss' : List Subtree}
    (h : List.Forall₂ (fun c c' => f c = f c') ss ss') : ss.map f = ss'.map f := by
  rw [← List.forall₂_eq_eq_eq, List.forall₂_map_left_iff, List.forall₂_map_right_iff]
  exact h

theorem shownLeaf_eq_of_look {leaf leaf' : Leaf} (h : (token leaf).look = (token leaf').look) :
    shownLeaf leaf = shownLeaf leaf' := by
  obtain ⟨hfixed, htext⟩ := Look.token.inj h
  rw [shownLeaf, shownLeaf, htext]
  rw [TokenKind.fixed?, TokenKind.fixed?] at hfixed
  cases hspelling : leaf.kind.spelling? with
  | none =>
    rw [hspelling, Option.map_none, eq_comm, Option.map_eq_none_iff] at hfixed
    rw [hfixed]
  | some spelling =>
    rw [hspelling, Option.map_some, eq_comm, Option.map_eq_some_iff] at hfixed
    obtain ⟨_, hspelling', hkind⟩ := hfixed
    rw [hspelling', hkind]

theorem LooksLike.lineChars_eq (h : s.LooksLike s') : s.lineChars = s'.lineChars := by
  refine h.induction (motive := fun s s' => s.lineChars = s'.lineChars) ?_ ?_
  · intro leaf leaf' hlook
    rw [lineChars, lineChars, shownLeaf_eq_of_look hlook]
  · intro id id' kind children children' h
    rw [lineChars, lineChars, linesOfAll_eq, linesOfAll_eq, map_eq_of_forall₂ h]

theorem LooksLike.line_eq (h : s.LooksLike s') : s.line = s'.line := by
  rw [line, line, h.lineChars_eq]

theorem LooksLike.blockChars_eq (h : s.LooksLike s') :
    ∀ depth, s.blockChars depth = s'.blockChars depth := by
  refine h.induction (motive := fun s s' => ∀ depth, s.blockChars depth = s'.blockChars depth) ?_ ?_
  · intro leaf leaf' hlook depth
    rw [blockChars, blockChars, shownLeaf_eq_of_look hlook]
  · intro id id' kind children children' h depth
    have hblocks : blocksOfAll (depth + 1) children = blocksOfAll (depth + 1) children' := by
      rw [blocksOfAll_eq, blocksOfAll_eq]
      congr 1
      apply map_eq_of_forall₂
      refine h.imp fun c c' hc => ?_
      rw [hc (depth + 1)]
    have hempty : children.isEmpty = children'.isEmpty := by
      cases h <;> rfl
    rw [blockChars, blockChars, hblocks, hempty]

theorem LooksLike.block_eq (h : s.LooksLike s') : s.block = s'.block := by
  rw [block, block, h.blockChars_eq]

/-- The tokens have the same texts, one by one. -/
theorem LooksLike.texts_eq (h : s.LooksLike s') :
    s.leaves.map (·.text) = s'.leaves.map (·.text) := by
  refine h.induction (motive := fun s s' => s.leaves.map (·.text) = s'.leaves.map (·.text)) ?_ ?_
  · intro leaf leaf' hlook
    rw [leaves_token, leaves_token, List.map_singleton, List.map_singleton,
      (Look.token.inj hlook).2]
  · intro id id' kind children children' h
    rw [leaves_element, leaves_element, List.map_flatMap, List.map_flatMap, List.flatMap_def,
      List.flatMap_def, map_eq_of_forall₂ h]

theorem LooksLike.text_eq (h : s.LooksLike s') : s.text = s'.text := by
  rw [text, text, textOfLeaves, textOfLeaves, h.texts_eq]

end Subtree

/-! ## Trees -/

namespace Forest

/-- What is seen of a node. -/
def look? (f : Forest) : NodeId → Option Look
  | .token id => (f.token? id).map fun held => .token held.kind.fixed? held.text
  | .element id => (f.elementKind? id).map .element

variable {f : Forest}

theorem Carries.look? {p : Option ElementId} {s : Subtree} (h : f.Carries p s) :
    f.look? s.id = some s.look := by
  have hrow : f.row? s.id = some (s.row p) := h.top
  cases s with
  | token leaf =>
    rw [Subtree.id_token, Forest.look?, token?_of_row? hrow, Option.map_some]
    rfl
  | element id kind children =>
    rw [Subtree.id_element, Forest.look?, elementKind?_of_row? hrow, Option.map_some]
    rfl

/-- What is seen along a path is what is found there in the nested value. -/
theorem Carries.look?_follow? : ∀ {path : List Nat} {p : Option ElementId} {s : Subtree},
    f.Carries p s → (f.follow? s.id path).bind f.look? = (s.at? path).map Subtree.look
  | [], _, s, h => by
    rw [Subtree.at?, Option.map_some, ← h.look?]
    cases s <;> rfl
  | i :: rest, _, .token leaf, _ => rfl
  | i :: rest, p, .element id kind children, h => by
    have hrow : f.row? (.element id) = some (.element ⟨kind, children.map Subtree.id, p⟩) := h.top
    rw [Subtree.id_element, Forest.follow?, children_of_row? hrow, Subtree.at?, List.getElem?_map]
    cases hc : children[i]? with
    | none => rfl
    | some c => exact (h.child (List.mem_of_getElem? hc)).look?_follow?

end Forest

namespace Tree

/-- What is seen of the node to which a path of child indexes leads from the root. -/
def lookAt? (t : Tree) (path : List Nat) : Option Look :=
  (t.follow? (.element t.root) path).bind t.look?

/-- The same is seen along every path from the root. -/
def LooksLike (t t' : Tree) : Prop := ∀ path, t.lookAt? path = t'.lookAt? path

theorem ReadsAs.looksLike_iff {t t' : Tree} {s s' : Subtree} (h : t.ReadsAs s)
    (h' : t'.ReadsAs s') : t.LooksLike t' ↔ s.LooksLike s' := by
  have hlook : ∀ {t : Tree} {s : Subtree}, t.ReadsAs s → ∀ path,
      t.lookAt? path = (s.at? path).map Subtree.look := by
    intro t s h path
    rw [lookAt?, ← h.root]
    exact h.carries.look?_follow?
  exact forall_congr' fun path => by rw [hlook h, hlook h']

end Tree

end DeclVisibility
