import DeclVisibility.Proofs.Outline.Enclosure
import DeclVisibility.Proofs.Service.Offsets
import DeclVisibility.Proofs.Service.Search

/-!
# What an outline tells of an open document

The outline of an open document has one item for each symbol below the root, in tree order
(`Tree.Outlined`). How deep an item is tells how many symbols are above it, and the depths of the
items before it tell which ones. An item starts where its text does, no item starts before an
earlier one, and its text is part of the text of every item above it. The walk through the tree
settles which items there are and how deep they are (`Forest.Carries.enclose_listed`); where they
start is found by a search of its own for each of them, which agrees because both go through the
same nested value (`Tree.Shows.text_below`, `Tree.pairwise_index`).
-/

namespace DeclVisibility

namespace Tree

/-- Whether an element is a symbol that an outline lists. -/
def Listable (t : Tree) (id : ElementId) : Prop := id ≠ t.root ∧ (t.symbolKind? id).isSome

/-- The entries are those of the symbols below the root: each of these once and in tree order, at
its depth among them and at the place of its text, and a method exactly if it is a function in the
body of an implementation. -/
structure Outlined (t : Tree) (entries : List OutlineEntry) : Prop where
  listed : ∀ id, id ∈ entries.map (·.decl) ↔ t.Reaches (.element id) ∧ t.Listable id
  once : (entries.map (·.decl)).Nodup
  ordered : entries.Pairwise fun a b => t.Precedes (.element a.decl) (.element b.decl)
  nested : ∀ before entry after, entries = before ++ entry :: after → ∃ chain : List ElementId,
    chain.Nodup ∧ (∀ a, a ∈ chain ↔ t.Listable a ∧ t.Above a entry.decl) ∧
      entry.item.depth = chain.length ∧
      (around (·.item.depth) before.reverse entry.item.depth).map (·.decl) = chain
  starts : ∀ entry ∈ entries, t.offsetOf? (.element entry.decl) = some entry.item.pos ∧
    entry.item.pos = .ofString (t.textBefore (.element entry.decl)) ∧
    ∃ after, t.text = t.textBefore (.element entry.decl) ++ t.nodeText (.element entry.decl) ++ after
  ascending : entries.Pairwise fun a b => a.item.pos.index ≤ b.item.pos.index
  inside : ∀ outer ∈ entries, ∀ inner ∈ entries, t.Above outer.decl inner.decl → ∃ pre post,
    t.textBefore (.element inner.decl) = t.textBefore (.element outer.decl) ++ pre ∧
      t.nodeText (.element outer.decl) = pre ++ t.nodeText (.element inner.decl) ++ post
  method : ∀ entry ∈ entries, entry.item.presentation.kind = .method ↔
    t.elementKind? entry.decl = some .fnItem ∧ ∃ body owner,
      t.parent? (.element entry.decl) = some body ∧ t.elementKind? body = some .assocItemList ∧
      t.parent? (.element body) = some owner ∧ t.elementKind? owner = some .implItem

end Tree

/-- A method is a function in the body of an implementation. -/
theorem Forest.method?_isSome_iff {f : Forest} {id : ElementId} : (f.method? id).isSome ↔
    f.elementKind? id = some .fnItem ∧ ∃ body owner,
      f.parent? (.element id) = some body ∧ f.elementKind? body = some .assocItemList ∧
      f.parent? (.element body) = some owner ∧ f.elementKind? owner = some .implItem := by
  rw [method?]
  by_cases hkind : f.elementKind? id = some .fnItem
  · rw [if_pos hkind]
    cases hbody : f.parent? (.element id) with
    | none => simp
    | some body =>
      simp only [Option.some.injEq, hkind, true_and]
      by_cases hlist : f.elementKind? body = some .assocItemList
      · rw [if_pos hlist]
        cases howner : f.parent? (.element body) with
        | none => simp [hlist, howner]
        | some owner => by_cases himpl : f.elementKind? owner = some .implItem <;> simp_all
      · simp [hlist]
  · simp [hkind]

theorem SymbolKind.ofElementKind?_ne_method (kind : ElementKind) :
    SymbolKind.ofElementKind? kind ≠ some .method := by
  cases kind <;> decide

namespace Tree

variable {t : Tree} {s : Subtree} {origin? : Option Origin} {x : ElementId × List ElementId}

/-- An entry is shown as a method exactly if the declaration is one. -/
theorem kind_entry_eq_method_iff (h : (t.symbolKind? x.1).isSome) :
    (t.entry origin? x).item.presentation.kind = .method ↔ (t.method? x.1).isSome := by
  rw [presentation_entry, value_presentationOf]
  cases hmethod : t.method? x.1 with
  | some m => simp
  | none =>
    obtain ⟨symbol, hsymbol⟩ := Option.isSome_iff_exists.mp h
    have hne : symbol ≠ .method := by
      rintro rfl
      obtain ⟨kind, -, hkind⟩ := Option.bind_eq_some_iff.mp hsymbol
      exact SymbolKind.ofElementKind?_ne_method kind hkind
    simp [hsymbol, hne]

namespace ReadsAs

/-- The symbols that are listed are the elements below the root that declare one. -/
theorem mem_listed_iff (h : t.ReadsAs s) {id : ElementId} :
    id ∈ s.listed.map Prod.fst ↔ .element id ∈ s.nodes ∧ t.Listable id := by
  have hnodup := h.nodup
  rw [h.carries.map_listed, List.mem_filter, s.nodes_eq, List.mem_cons, h.root, Listable]
  rw [s.nodes_eq, h.root, List.nodup_cons] at hnodup
  rw [NodeId.mem_filterMap_element?, NodeId.element.injEq]
  constructor
  · rintro ⟨hbelow, hsymbol⟩
    exact ⟨.inr hbelow, fun heq => hnodup.1 (heq ▸ hbelow), hsymbol⟩
  · rintro ⟨hnode, hne, hsymbol⟩
    exact ⟨hnode.resolve_left hne, hsymbol⟩

/-- They are listed in the order of the nodes. -/
theorem listed_sublist (h : t.ReadsAs s) :
    ((s.listed.map Prod.fst).map NodeId.element).Sublist s.nodes := by
  rw [h.carries.map_listed, s.nodes_eq]
  exact ((List.filter_sublist.map _).trans (NodeId.map_filterMap_element?_sublist _)).cons _

/-- Above a listed symbol are those that the walk has come through. -/
theorem mem_chain_iff (h : t.ReadsAs s) (hx : x ∈ s.listed) (a : ElementId) :
    a ∈ x.2 ↔ t.Listable a ∧ t.Above a x.1 := by
  rw [(h.carries.enclose_listed h.nodup x hx).mem_iff]
  constructor
  · rintro ⟨hbelow, hsymbol, habove⟩
    refine ⟨⟨?_, hsymbol⟩, habove⟩
    rintro rfl
    have hnodup := h.nodup
    rw [s.nodes_eq, h.root, List.nodup_cons] at hnodup
    exact hnodup.1 hbelow
  · rintro ⟨⟨hne, hsymbol⟩, habove⟩
    refine ⟨?_, hsymbol, habove⟩
    obtain ⟨next, ⟨id, hid, hnext⟩, -⟩ := Relation.TransGen.head'_iff.mp habove
    obtain rfl := NodeId.element.inj hid
    have hnode := h.holds_iff.mp (Forest.holds_of_mem_children hnext)
    rw [s.nodes_eq, List.mem_cons, h.root] at hnode
    exact hnode.resolve_left fun heq => hne (NodeId.element.inj heq)

/-- The entries that are around a listed one by the depths before it are those of the symbols above
it. -/
theorem around_entries (t : Tree) (origin? : Option Origin)
    {before after : List (ElementId × List ElementId)} (hsplit : s.listed = before ++ x :: after) :
    (around (·.item.depth) (before.map (t.entry origin?)).reverse x.2.length).map (·.decl) = x.2 := by
  have hdepth : (fun entry : OutlineEntry => entry.item.depth) ∘ t.entry origin? =
      Subtree.symbolDepth := rfl
  have hdecl : (fun entry : OutlineEntry => entry.decl) ∘ t.entry origin? = Prod.fst := rfl
  rw [← List.map_reverse, around_map, List.map_map, hdepth, hdecl]
  exact Subtree.readAround_listed hsplit

/-- A listed symbol is shown at the place where it starts. -/
theorem offsetOf?_listed (h : t.ReadsAs s) (origin? : Option Origin) (hx : x ∈ s.listed) :
    t.offsetOf? (.element x.1) = some (t.entry origin? x).item.pos := by
  have hmem := (h.mem_listed_iff.mp (List.mem_map_of_mem hx)).1
  have hsome := (h.shows.offsetOf?_isSome_iff).mpr (h.shows.reaches_iff.mpr hmem)
  obtain ⟨pos, hpos⟩ := Option.isSome_iff_exists.mp hsome
  have hentry : (t.entry origin? x).item.pos = (t.offsetOf? (.element x.1)).getD .zero := rfl
  rw [hentry, hpos, Option.getD_some]

/-- The entries are in tree order, and no one starts before an earlier one. -/
theorem pairwise_entries (h : t.ReadsAs s) (origin? : Option Origin) :
    (s.listed.map (t.entry origin?)).Pairwise fun a b =>
      t.Precedes (.element a.decl) (.element b.decl) ∧ a.item.pos.index ≤ b.item.pos.index := by
  have hnodes := h.shows.pairwise_order.and (pairwise_index h.shows.nodup_order)
  rw [h.shows.order_eq] at hnodes
  have hlisted := hnodes.sublist h.listed_sublist
  rw [List.map_map, List.pairwise_map] at hlisted
  rw [List.pairwise_map]
  refine hlisted.imp_of_mem fun {x y} hx hy hxy => ⟨hxy.1, ?_⟩
  rw [(h.shows.starts (h.offsetOf?_listed origin? hx)).1,
    (h.shows.starts (h.offsetOf?_listed origin? hy)).1]
  exact hxy.2

/-- The outline of a tree that is one nested value tells all this of it. -/
theorem outlines_symbols (h : t.ReadsAs s) (origin? : Option Origin) :
    t.Outlined (t.outlineEntries origin?).value := by
  have hdecls : (s.listed.map (t.entry origin?)).map (·.decl) = s.listed.map Prod.fst := by
    rw [List.map_map]
    rfl
  have hmem : ∀ {x}, x ∈ s.listed → .element x.1 ∈ s.nodes ∧ t.Listable x.1 :=
    fun hx => h.mem_listed_iff.mp (List.mem_map_of_mem hx)
  have hordered := h.pairwise_entries origin?
  rw [h.outlineEntries_listed]
  refine ⟨?_, ?_, hordered.imp And.left, ?_, ?_, hordered.imp And.right, ?_, ?_⟩
  · intro id
    rw [hdecls, h.mem_listed_iff, h.shows.reaches_iff]
  · rw [hdecls]
    exact (h.nodup.sublist h.listed_sublist).of_map
  · intro before entry after hsplit
    obtain ⟨first, rest, hlisted, rfl, hrest⟩ := List.map_eq_append_iff.mp hsplit
    obtain ⟨x, second, rfl, rfl, rfl⟩ := List.map_eq_cons_iff.mp hrest
    have hx : x ∈ s.listed := hlisted ▸ List.mem_append_right _ List.mem_cons_self
    exact ⟨x.2, (h.carries.enclose_listed h.nodup x hx).nodup, h.mem_chain_iff hx, rfl,
      around_entries t origin? hlisted⟩
  · intro entry hentry
    obtain ⟨x, hx, rfl⟩ := List.mem_map.mp hentry
    have hpos := h.offsetOf?_listed origin? hx
    obtain ⟨hstart, htext, -⟩ := h.shows.starts hpos
    exact ⟨hpos, hstart, htext⟩
  · intro outer houter inner hinner habove
    obtain ⟨x, hx, rfl⟩ := List.mem_map.mp houter
    exact h.shows.text_below (hmem hx).1 habove
  · intro entry hentry
    obtain ⟨x, hx, rfl⟩ := List.mem_map.mp hentry
    rw [kind_entry_eq_method_iff (hmem hx).2.2, Forest.method?_isSome_iff]
    rfl

end ReadsAs

end Tree

namespace Session

variable {s : Session}

/-- In every state that is reached, the outline of an open document lists the symbols below the root
of its tree, in order, at their depths and places. -/
theorem outlined (hs : s.Reached) {doc : Doc} {document : Document}
    (hopen : s.service.document? doc = some document) :
    (s.service.outline doc).value = (s.service.entries doc).map (·.item) ∧
      s.service.text? doc = some document.tree.text ∧
      document.tree.Outlined (s.service.entries doc) := by
  obtain ⟨sub, readsAs⟩ := hs.wellMade doc document hopen
  have hentries : s.service.entries doc =
      (document.tree.outlineEntries (s.service.workspace.originOf? doc)).value := by
    rw [Service.entries, hopen]
  refine ⟨s.service.outline_eq doc, ?_, hentries ▸ readsAs.outlines_symbols _⟩
  rw [Service.text?, hopen, Option.map_some]

/-- The module comes first and the function in it second, one level deeper. -/
theorem outlined_sample : ∃ (s : Session) (document : Document), s.Reached ∧
    s.service.document? ⟨1⟩ = some document ∧
    (s.service.entries ⟨1⟩).map (fun entry => (entry.decl, entry.item.depth)) =
      [(⟨3⟩, 0), (⟨2⟩, 1)] ∧
    document.tree.Outlined (s.service.entries ⟨1⟩) := by
  have heval : ((run nested .new).outcome.value.toOption.map fun reached =>
      ((reached.2.service.document? ⟨1⟩).isSome,
        (reached.2.service.entries ⟨1⟩).map fun entry => (entry.decl, entry.item.depth))) =
      some (true, [(⟨3⟩, 0), (⟨2⟩, 1)]) := by decide +kernel
  obtain ⟨_, s, -, hs, hseen⟩ := exists_of_seen heval
  obtain ⟨hsome, hentries⟩ := Prod.mk.inj hseen
  obtain ⟨document, hopen⟩ := Option.isSome_iff_exists.mp hsome
  exact ⟨s, document, hs, hopen, hentries, (outlined hs hopen).2.2⟩

end Session

end DeclVisibility
