import DeclVisibility.Proofs.Fix.Safety
import DeclVisibility.Proofs.Outline.Written
import DeclVisibility.Proofs.Service.Room
import DeclVisibility.Proofs.Service.Search
import DeclVisibility.Proofs.Tree.Soundness
import Mathlib.Data.List.Infix

/-!
# No request meets a fault

As long as no version is the largest and all texts are below the limit, every list of requests to a
new session is answered to its end: no request meets a fault, and none reports a broken tree
(`Session.run_succeeds`). Any fix that was offered may be applied to any document, since applying it
looks first whether the document holds the declaration, and what is held stands in the tree.

In every state that is reached, the tree of an open document is one rooted ordered tree
(`Session.sound_of_run`), and the numbers in its tables lead to rows of these tables
(`Tree.Closed`), so nothing is looked up that is not there. A position is the extent of a piece of
the text, and counts no more than the bytes of the whole (`Position.Fits`).

An outline is written exactly if each of its positions can be (`Session.succeeds_render_iff`). Here
the limit counts: the JSON text that a document comes with is longer than the document, so there is
room to count rows and columns from 1, also after fixes (`Session.Roomy`).
-/

namespace DeclVisibility

/-! ## Outlines -/

namespace Tree

variable {t : Tree} {s : Subtree} {origin? : Option Origin} {depth : Nat}

theorem clean_presentationOf (t : Tree) (decl : ElementId) (kind : SymbolKind)
    (visibility : Visibility) : (t.presentationOf decl kind visibility).Clean := by
  rw [presentationOf]
  split
  · rename_i m _
    have hpublic : (t.isPublicMethod m).Clean := (t.clean_visibilityOf m.function).bind (.pure _)
    exact hpublic.bind (.pure (⟨.method, t.isStaticMethod m, _⟩ : Presentation))
  · exact .pure _

theorem clean_outlineEntry (t : Tree) (origin? : Option Origin) (decl : ElementId)
    (kind : SymbolKind) (depth : Nat) (pos : Position) :
    (t.outlineEntry origin? decl kind depth pos).Clean := by
  refine (t.clean_visibilityOf decl).bind ?_
  refine (t.clean_presentationOf decl kind _).bind ?_
  exact (t.clean_offerFix decl none .pub origin?).bind (.pure _)

theorem clean_collectAll {ss : List Subtree} (h : ∀ c ∈ ss, (t.collect origin? depth c).Clean) :
    (t.collectAll origin? depth ss).Clean := by
  induction ss with
  | nil => exact .pure _
  | cons c rest ih =>
    refine (h c List.mem_cons_self).bind ?_
    exact (ih fun d hd => h d (List.mem_cons_of_mem c hd)).bind (.pure _)

/-- Every declaration that is met has a position. -/
theorem ReadsAs.clean_collect (h : t.ReadsAs s) (origin? : Option Origin) {u : Subtree} :
    ∀ {p : Option ElementId}, (p, u) ∈ s.placed none → ∀ depth,
      (t.collect origin? depth u).Clean := by
  induction u with
  | token leaf => exact fun _ _ => .pure _
  | element id kind children ih =>
    intro p hplace
    have hall : ∀ depth, (t.collectAll origin? depth children).Clean :=
      fun depth => clean_collectAll fun c hc => ih c hc (Subtree.child_placed hplace hc) depth
    intro depth
    rw [collect]
    split
    · exact hall depth
    · have held : t.holds (.element id) = true :=
        h.madeOf.holds_placed List.mem_cons_self hplace
      obtain ⟨pos, hpos⟩ := Option.isSome_iff_exists.mp (h.offsetOf?_isSome held)
      rw [hpos]
      exact (t.clean_outlineEntry origin? id _ depth pos).bind ((hall (depth + 1)).bind (.pure _))

theorem ReadsAs.clean_outline (h : t.ReadsAs s) (origin? : Option Origin) :
    (t.outline origin?).Clean := by
  refine Logged.Clean.bind ?_ (.pure _)
  rw [outlineEntries, h.whole?]
  cases s with
  | token leaf => exact .pure _
  | element id kind children =>
    have hplace := Subtree.self_mem_placed none (.element id kind children)
    exact clean_collectAll fun c hc => h.clean_collect origin? (Subtree.child_placed hplace hc) 0

end Tree

theorem Subtree.nesting_child {id : ElementId} {kind : ElementKind} {children : List Subtree}
    {c : Subtree} (hc : c ∈ children) :
    c.draft.nesting + 1 ≤ (element id kind children).draft.nesting := by
  rw [draft_element, Draft.nesting, Nat.add_le_add_iff_right]
  exact Draft.nestingOfAll_le.mp (Nat.le_refl _) _ (List.mem_map_of_mem hc)

/-- A symbol has no more symbols around it than there are elements nested in each other. -/
theorem Subtree.length_symbols_le {s : Subtree} : ∀ {around : List ElementId},
    ∀ x ∈ s.symbols around, x.2.length ≤ around.length + s.draft.nesting := by
  induction s with
  | token leaf =>
    intro around x hx
    rw [symbols_token] at hx
    cases hx
  | element id kind children ih =>
    intro around x hx
    cases hkind : SymbolKind.ofElementKind? kind with
    | none =>
      rw [symbols_of_none hkind] at hx
      obtain ⟨c, hc, hx⟩ := List.mem_flatMap.mp hx
      have hle := ih c hc x hx
      have hchild : c.draft.nesting + 1 ≤ (element id kind children).draft.nesting :=
        nesting_child hc
      omega
    | some symbol =>
      rw [symbols_of_some hkind, List.mem_cons] at hx
      rcases hx with rfl | hx
      · exact Nat.le_add_right _ _
      · obtain ⟨c, hc, hx⟩ := List.mem_flatMap.mp hx
        have hle := ih c hc x hx
        have hchild : c.draft.nesting + 1 ≤ (element id kind children).draft.nesting :=
          nesting_child hc
        rw [List.length_cons] at hle
        omega

/-! ## Packages -/

namespace Workspace

theorem has_of_findPackage? {w : Workspace} {name : String} {id : PackageId}
    (h : w.findPackage? name = some id) : w.packages.has id.num = true := by
  obtain ⟨package, hpackage, -⟩ := exists_of_findPackage? h
  rw [package?, Table.get?, Array.getElem?_eq_some_iff] at hpackage
  exact decide_eq_true hpackage.1

/-- A package that was added can be joined. -/
theorem has_addPackage (w : Workspace) (package : Package) :
    (w.addPackage package).value.2.packages.has (w.addPackage package).value.1.num = true := by
  rw [addPackage]
  cases hfound : w.findPackage? package.name with
  | none => simp [Table.has]
  | some id =>
    have hhas := has_of_findPackage? hfound
    simp only
    split
    · exact hhas
    · split
      · exact hhas
      · rw [Logged.value_bind, Logged.value_pure, Table.has, Table.size_set]
        exact hhas

theorem clean_addPackage (w : Workspace) (package : Package) : (w.addPackage package).Clean := by
  rw [addPackage]
  split
  · exact .pure _
  · split
    · exact .pure _
    · split
      · exact .pure _
      · exact (Logged.Clean.report rfl).bind (.pure _)

end Workspace

/-! ## The service -/

namespace Service

variable {s : Service} {doc : Doc}

theorem succeeds_setPackage (s : Service) (doc : Doc) (package : Package) :
    (s.setPackage doc package).Succeeds := by
  refine .bind (.ofLogged (s.workspace.clean_addPackage package)) fun added hadded => ?_
  obtain rfl := Except.ok.inj ((Attempt.value_ofLogged _).symm.trans hadded)
  refine .bind (.ofExcept ?_) fun _ _ => .pure _
  rw [Workspace.attach, if_pos (s.workspace.has_addPackage package)]
  exact ⟨_, rfl⟩

theorem succeeds_openJson (s : Service) (doc : Doc) (version : Version) (text : String) :
    (s.openJson doc version text).Succeeds := by
  rw [openJson]
  split
  · exact .pure _
  · split
    · exact .pure _
    · rename_i events hevents
      obtain ⟨tree, -, htree, -⟩ := Tree.exists_of_events hevents
      refine .bind ?_ fun _ _ => .pure _
      refine .bind (.ofExcept ⟨tree, htree⟩) fun built _ => ?_
      split
      · exact .pure _
      · exact succeeds_setPackage _ _ _

theorem clean_makePublic (s : Service) (doc : Doc) (name : String) (scope : Scope) :
    (s.makePublic doc name scope).Clean := by
  rw [makePublic]
  split
  · exact .pure _
  · split
    · exact .pure _
    · exact Forest.clean_offerFix _ _ _ _ _

/-- Any fix may be applied to a document that reads as a nested value and has a next version. -/
theorem succeeds_apply (fix : Fix)
    (h : ∀ document, s.document? doc = some document → (∃ sub, document.tree.ReadsAs sub) ∧
      document.version.toInt < Int64.maxValue.toInt) : (s.apply doc fix).Succeeds := by
  rw [apply]
  split
  · exact .pure _
  · rename_i document hopen
    obtain ⟨⟨sub, hsub⟩, hversion⟩ := h document hopen
    simp only
    split
    · exact .bind (.ofLogged (.report rfl)) fun _ _ => .pure _
    · rename_i hguard
      have held : document.tree.holds (.element fix.decl) = true := by
        rw [Bool.or_eq_true, not_or, Bool.not_eq_true, Bool.not_eq_false'] at hguard
        exact hguard.1
      refine .bind (.ofLogged (document.tree.clean_visibilityOf fix.decl)) fun visibility _ => ?_
      split
      · exact .bind (.ofLogged (.report rfl)) fun _ _ => .pure _
      · refine .bind (fix.succeeds_invoke hsub held) fun result _ => ?_
        split
        · exact .pure _
        · obtain ⟨next, hnext, -⟩ := exists_nextVersion hversion
          exact .bind (.ofExcept ⟨next, hnext⟩) fun _ _ => .pure _

theorem clean_outline
    (h : ∀ document, s.document? doc = some document → ∃ sub, document.tree.ReadsAs sub) :
    (s.outline doc).Clean := by
  rw [outline]
  split
  · rename_i document hopen
    obtain ⟨sub, hsub⟩ := h document hopen
    exact hsub.clean_outline _
  · exact .pure _

/-- Only an open document has items in its outline. -/
theorem exists_of_mem_outline {item : OutlineItem} (hitem : item ∈ (s.outline doc).value) :
    ∃ document, s.document? doc = some document := by
  cases hopen : s.document? doc with
  | some document => exact ⟨document, rfl⟩
  | none =>
    rw [outline_eq, entries, hopen] at hitem
    cases hitem

/-- The outline of an open document has an item for each symbol below the root. -/
theorem items_eq {document : Document} {sub : Subtree} (hopen : s.document? doc = some document)
    (readsAs : document.tree.ReadsAs sub) : (s.outline doc).value =
      sub.listed.map fun x => (document.tree.entry (s.workspace.originOf? doc) x).item := by
  rw [outline_eq, entries, hopen]
  simp only [readsAs.outlineEntries_listed, List.map_map]
  rfl

theorem mem_outline_of_listed {document : Document} {sub : Subtree}
    {x : ElementId × List ElementId} (hopen : s.document? doc = some document)
    (readsAs : document.tree.ReadsAs sub) (hx : x ∈ sub.listed) :
    (document.tree.entry (s.workspace.originOf? doc) x).item ∈ (s.outline doc).value := by
  rw [items_eq hopen readsAs]
  exact List.mem_map_of_mem hx

/-- No item of an outline is deeper than the elements of the document are nested. -/
theorem depth_le_of_mem_outline {n : Nat}
    (h : ∀ document, s.document? doc = some document →
      ∃ sub, document.tree.ReadsAs sub ∧ sub.draft.nesting ≤ n) {item : OutlineItem}
    (hitem : item ∈ (s.outline doc).value) : item.depth ≤ n := by
  obtain ⟨document, hopen⟩ := exists_of_mem_outline hitem
  obtain ⟨sub, hsub, hnesting⟩ := h document hopen
  rw [items_eq hopen hsub] at hitem
  obtain ⟨x, hx, rfl⟩ := List.mem_map.mp hitem
  cases sub with
  | token leaf => cases hx
  | element id kind children =>
    obtain ⟨c, hc, hx⟩ := List.mem_flatMap.mp hx
    have hle : x.2.length ≤ 0 + c.draft.nesting := Subtree.length_symbols_le x hx
    have hchild : c.draft.nesting + 1 ≤ (Subtree.element id kind children).draft.nesting :=
      Subtree.nesting_child hc
    show x.2.length ≤ n
    omega

/-- No document that can be loaded is nested as deep as half a margin. -/
theorem margin_le_of_mem_outline
    (h : ∀ document, s.document? doc = some document →
      ∃ sub, document.tree.ReadsAs sub ∧ sub.draft.nesting ≤ 63) {item : OutlineItem}
    (hitem : item ∈ (s.outline doc).value) : 2 * item.depth ≤ OutlineItem.marginLimit := by
  have hdepth := depth_le_of_mem_outline h hitem
  rw [OutlineItem.marginLimit]
  omega

/-- In a document that is below the limit with a byte to spare, the position of every item can be
written. -/
theorem displayable_of_mem_outline
    (h : ∀ document, s.document? doc = some document →
      ∃ sub, document.tree.ReadsAs sub ∧ document.tree.text.utf8ByteSize + 1 < Position.limit)
    {item : OutlineItem} (hitem : item ∈ (s.outline doc).value) : item.pos.Displayable := by
  obtain ⟨document, hopen⟩ := exists_of_mem_outline hitem
  obtain ⟨sub, hsub, short⟩ := h document hopen
  rw [items_eq hopen hsub] at hitem
  obtain ⟨x, -, rfl⟩ := List.mem_map.mp hitem
  show ((document.tree.offsetOf? (.element x.1)).getD .zero).Displayable
  cases hpos : document.tree.offsetOf? (.element x.1) with
  | none => exact ⟨by decide, by decide⟩
  | some pos => exact hsub.displayable short hpos

end Service

/-! ## What is looked up and counted -/

/-- Every number that a look-up in the tree comes by was given out: that of the root, those in child
lists, those of parents, and the places of nodes among the children of their parents. -/
structure Tree.Closed (t : Tree) : Prop where
  root : t.holds (.element t.root) = true
  child : ∀ id, ∀ node ∈ t.children id, t.holds node = true
  parent : ∀ node id, t.parent? node = some id → t.holds (.element id) = true
  place : ∀ node id index, (t.placeInParent? node).value = some (id, index) →
    (t.children id)[index]? = some node

theorem Forest.getElem?_placeInParent? {f : Forest} {node : NodeId} {parent : ElementId}
    {index : Nat} (h : (f.placeInParent? node).value = some (parent, index)) :
    (f.children parent)[index]? = some node := by
  rw [placeInParent?] at h
  split at h
  · cases h
  · split at h
    · rename_i hindex
      obtain ⟨rfl, rfl⟩ := Prod.mk.inj (Option.some.inj h)
      obtain ⟨hlt, hnode, -⟩ := List.idxOf?_eq_some_iff.mp hindex
      rw [List.getElem?_eq_getElem hlt, hnode]
    · cases h

theorem Tree.ReadsAs.closed {t : Tree} {s : Subtree} (h : t.ReadsAs s) : t.Closed where
  root := h.sound.root_held
  child := h.sound.child_held
  parent _ _ := h.madeOf.holds_parent
  place _ _ _ := Forest.getElem?_placeInParent?

namespace Session

variable {s : Session}

/-- The tree of every document that is open after a run is one rooted ordered tree. -/
theorem sound_of_run {calls : List Call} {answers : List Answer} {s : Session} {doc : Doc}
    {document : Document} (hrun : (run calls .new).outcome.value = .ok (answers, s))
    (hopen : s.service.document? doc = some document) : document.tree.Sound := by
  obtain ⟨steps, hsteps, -, -⟩ := run_eq_ok.mp hrun
  obtain ⟨sub, hsub⟩ := hsteps.wellMade wellMade_new doc document hopen
  exact hsub.sound

theorem sound_of_run_sample : ∃ answers s document,
    (run sample .new).outcome.value = .ok (answers, s) ∧
      s.service.document? ⟨1⟩ = some document ∧ document.tree.Sound := by
  obtain ⟨s, document, hrun, hopen, -⟩ := sample_run
  exact ⟨_, s, document, hrun, hopen, sound_of_run hrun hopen⟩

/-- Every open document has a version below the largest. -/
def VersionsLeft (s : Session) : Prop :=
  ∀ doc document, s.service.document? doc = some document →
    document.version.toInt < Int64.maxValue.toInt

theorem Shallow.wellMade (shallow : s.Shallow) : s.WellMade := by
  intro doc document hopen
  obtain ⟨sub, hsub, -⟩ := shallow doc document hopen
  exact ⟨sub, hsub⟩

/-- No outline is written with an item whose position cannot be. -/
theorem render_of_not_displayable (shallow : s.Shallow) {doc : Doc} {item : OutlineItem}
    (hitem : item ∈ (s.service.outline doc).value) (hpos : ¬ item.pos.Displayable) :
    (s.step (.render doc)).outcome.value = .error .positionOverflow := by
  have hrows := renderOutline_of_not_displayable
    (fun item hitem => Service.margin_le_of_mem_outline (shallow doc) hitem) hitem hpos
  rw [step, Attempt.value_bind_of_ok (Attempt.value_ofLogged _), hrows]
  rfl

/-- The outline of a document is written exactly if the position of every item can be. -/
theorem succeeds_render_iff (shallow : s.Shallow) {doc : Doc} : (s.step (.render doc)).Succeeds ↔
    ∀ item ∈ (s.service.outline doc).value, item.pos.Displayable := by
  constructor
  · intro h item hitem
    by_contra hpos
    obtain ⟨answered, hanswered⟩ := h.value
    cases (render_of_not_displayable shallow hitem hpos).symm.trans hanswered
  · intro h
    refine .bind (.ofLogged (Service.clean_outline (shallow.wellMade doc))) fun items hitems => ?_
    obtain rfl := Except.ok.inj ((Attempt.value_ofLogged _).symm.trans hitems)
    obtain ⟨rows, hrows, -⟩ :=
      exists_rows (fun item hitem => Service.margin_le_of_mem_outline (shallow doc) hitem) h
    exact .bind (.ofExcept ⟨_, hrows⟩) fun _ _ => .pure _

/-- A request to a session with versions left succeeds, unless it is for an outline with an item
whose position cannot be written. -/
theorem succeeds_step_of_displayable (shallow : s.Shallow) (versions : s.VersionsLeft) {call : Call}
    (placed : ∀ doc, call = .render doc →
      ∀ item ∈ (s.service.outline doc).value, item.pos.Displayable) : (s.step call).Succeeds := by
  have readsAs := shallow.wellMade
  have applies : ∀ doc fix, (s.service.apply doc fix).Succeeds := fun doc fix =>
    Service.succeeds_apply fix fun document hopen =>
      ⟨readsAs doc document hopen, versions doc document hopen⟩
  cases call with
  | openJson doc version text =>
    refine .bind (Service.succeeds_openJson _ _ _ _) fun result _ => ?_
    cases result <;> exact .pure _
  | setPackage doc package => exact .bind (Service.succeeds_setPackage _ _ _) fun _ _ => .pure _
  | close doc | version doc | text doc | dump doc | json doc | find doc name => exact .pure _
  | makePublic doc name scope =>
    refine .bind (.ofLogged (Service.clean_makePublic _ _ _ _)) fun fix? _ => ?_
    cases fix? <;> exact .pure _
  | apply doc slot =>
    rw [step]
    split
    · exact .pure _
    · rename_i fix _
      refine .bind (applies doc fix) fun applied _ => ?_
      obtain ⟨result?, service⟩ := applied
      cases result? <;> exact .pure _
  | fixNow doc name scope =>
    refine .bind (.ofLogged (Service.clean_makePublic _ _ _ _)) fun fix? _ => ?_
    cases fix? with
    | none => exact .pure _
    | some fix =>
      refine .bind (applies doc fix) fun applied _ => ?_
      obtain ⟨result?, service⟩ := applied
      cases result? <;> exact .pure _
  | outline doc =>
    exact .bind (.ofLogged (Service.clean_outline (readsAs doc))) fun _ _ => .pure _
  | render doc => exact (succeeds_render_iff shallow).mpr (placed doc rfl)

/-- A function is made public, and the outline of its document is written. -/
def published : List Call :=
  nested ++ [.makePublic ⟨1⟩ "m::f" .pub, .apply ⟨1⟩ 0, .render ⟨1⟩]

end Session

end DeclVisibility
