import DeclVisibility.Proofs.Service.Search

/-!
# Which declarations can be addressed by their paths

The path of an item of an outline is made of the names of the items around it and its own
(`OutlineEntry.pathIn`). If no earlier item has a path that ends like it, the search by name finds
the item's declaration by its path exactly if the names can be told apart in the path
(`Session.addressed_iff`). A name has no pair of colons in it as a rule; but an implementation goes
by its type, and a type may be written with a path of its own. What is inside of such an
implementation is listed and cannot be found (`Session.unaddressed_in_qualified`).
-/

namespace DeclVisibility

namespace OutlineEntry

/-- The names of the items around an item that stands behind these, and its own, from the outside
in. -/
def namesIn (before : List OutlineEntry) (entry : OutlineEntry) : List String :=
  ((entry.item :: around OutlineItem.depth (before.map (·.item)).reverse
    entry.item.depth).map (·.name)).reverse

/-- The path of an item that stands behind these. -/
def pathIn (before : List OutlineEntry) (entry : OutlineEntry) : String :=
  "::".intercalate (entry.namesIn before)

/-- The item is no implementation, the names in its path are neither empty nor have blanks around
them, and no item before it has a path that is the same or ends with it. -/
structure Unrivalled (before : List OutlineEntry) (entry : OutlineEntry) : Prop where
  notImpl : entry.item.presentation.kind ≠ .impl
  spelled : ∀ name ∈ entry.namesIn before, name ≠ "" ∧ Text.trim name = name
  first : ∀ earlier other later, before = earlier ++ other :: later →
    other.pathIn earlier ≠ entry.pathIn before ∧
    ∀ outer, other.pathIn earlier ≠ outer ++ "::" ++ entry.pathIn before

variable {before : List OutlineEntry} {entry : OutlineEntry} {path : List String}

theorem namesIn_ne_nil : entry.namesIn before ≠ [] := by simp [namesIn]

/-- A path leads to an item if the names in the path of the item end with it. -/
theorem ledToBy_iff_suffix : entry.item.LedToBy (before.map (·.item)) path ↔
    entry.item.presentation.kind ≠ .impl ∧ path <:+ entry.namesIn before := by
  have hnames : path <:+ entry.namesIn before ↔ path.reverse <+: (entry.item ::
      around OutlineItem.depth (before.map (·.item)).reverse entry.item.depth).map (·.name) := by
    rw [namesIn, ← List.reverse_prefix, List.reverse_reverse]
  exact ⟨fun h => ⟨h.notImpl, hnames.mpr h.names⟩, fun h => ⟨h.1, hnames.mp h.2⟩⟩

/-- The path of an item that names lead to is their path, or ends with it behind two colons. -/
theorem pathIn_of_suffix (nonempty : path ≠ []) (h : path <:+ entry.namesIn before) :
    entry.pathIn before = "::".intercalate path ∨
      ∃ outer, entry.pathIn before = outer ++ "::" ++ "::".intercalate path := by
  obtain ⟨outer, houter⟩ := h
  rw [pathIn, ← houter]
  by_cases hnil : outer = []
  · exact .inl (by rw [hnil, List.nil_append])
  · exact .inr ⟨_, String.intercalate_append_of_ne_nil hnil nonempty⟩

end OutlineEntry

/-! ## What leads to a declaration -/

namespace Forest

variable {f : Forest} {id : ElementId} {chain : List ElementId}

theorem eq_shownName_of_beq {name : String} (h : (f.symbolName? id == some name) = true) :
    name = f.shownName id := by
  rw [shownName, beq_iff_eq.mp h, Option.getD_some]

theorem EnclosedBy.prefix_of_isEnclosedBy {names : List String} (h : f.EnclosedBy chain id)
    (hnames : f.isEnclosedBy names id = true) : names <+: chain.map f.shownName := by
  induction names generalizing id chain with
  | nil => exact List.nil_prefix
  | cons name outer ih =>
    cases chain with
    | nil => simp [isEnclosedBy, show f.enclosingSymbol? id = none from h] at hnames
    | cons a rest =>
      obtain ⟨henclosing, hrest⟩ := h
      rw [isEnclosedBy, henclosing] at hnames
      simp only [Bool.and_eq_true] at hnames
      rw [List.map_cons, List.cons_prefix_cons]
      exact ⟨eq_shownName_of_beq hnames.1, ih hrest hnames.2⟩

/-- The path that leads to a declaration names it and what is around it. -/
theorem EnclosedBy.suffix_of_matchesPath {path : List String} (h : f.EnclosedBy chain id)
    (hmatches : f.matchesPath id path = true) :
    path <:+ ((id :: chain).map f.shownName).reverse := by
  rw [← List.reverse_prefix, List.reverse_reverse, List.map_cons]
  rw [matchesPath] at hmatches
  cases hreverse : path.reverse with
  | nil => exact List.nil_prefix
  | cons last outer =>
    rw [hreverse] at hmatches
    simp only [Bool.and_eq_true] at hmatches
    rw [List.cons_prefix_cons]
    exact ⟨eq_shownName_of_beq hmatches.1, h.prefix_of_isEnclosedBy hmatches.2⟩

end Forest

namespace Tree

variable {t : Tree} {s : Subtree} {origin? : Option Origin}

/-- The names of an entry are those of the declaration and of the symbols around it. -/
theorem namesIn_entry (t : Tree) (origin? : Option Origin) {x : ElementId × List ElementId}
    {before after : List (ElementId × List ElementId)}
    (hsplit : s.symbols [] = before ++ x :: after) :
    (t.entry origin? x).namesIn (before.map (t.entry origin?)) =
      ((x.1 :: x.2).map t.shownName).reverse := by
  have hnames := names_around t origin? hsplit
  rw [OutlineEntry.namesIn, List.map_cons, List.map_cons, ← hnames]
  rfl

/-- A path by which an entry is found ends the path of the entry. -/
theorem ReadsAs.suffix_of_findDecl? (h : t.ReadsAs s) (root : t.symbolKind? t.root = none)
    {before after : List OutlineEntry} {entry : OutlineEntry} {name : String}
    (hentries : (t.outlineEntries origin?).value = before ++ entry :: after)
    (hfind : t.findDecl? name = some entry.decl) :
    pathOf name <:+ entry.namesIn before := by
  rw [h.outlineEntries_eq root] at hentries
  obtain ⟨first, tail, hsymbols, rfl, htail⟩ := List.map_eq_append_iff.mp hentries
  obtain ⟨x, rest, rfl, rfl, rfl⟩ := List.map_eq_cons_iff.mp htail
  rw [h.findDecl?_eq, Option.map_eq_some_iff] at hfind
  obtain ⟨y, hy, hdecl⟩ := hfind
  have hled := List.find?_some hy
  rw [isLedTo, Bool.and_eq_true, show y.1 = x.1 from hdecl] at hled
  have hmem : x ∈ s.symbols [] := hsymbols ▸ List.mem_append_right _ List.mem_cons_self
  rw [namesIn_entry t origin? hsymbols]
  exact (h.enclosedBy x hmem).suffix_of_matchesPath hled.2

end Tree

namespace Session

/-- In a document whose root declares nothing, as a source file, the search by name finds a listed
declaration by its path exactly if the names can be told apart in it. -/
theorem addressed_iff {s : Session} (hs : s.Reached) {doc : Doc} {document : Document}
    (hopen : s.service.document? doc = some document)
    (root : document.tree.symbolKind? document.tree.root = none)
    {before after : List OutlineEntry} {entry : OutlineEntry}
    (hentries : s.service.entries doc = before ++ entry :: after)
    (unrivalled : entry.Unrivalled before) :
    s.service.findDecl? doc (entry.pathIn before) = some entry.decl ↔
      Separable ((entry.namesIn before).map String.toList) := by
  obtain ⟨sub, hsub⟩ := hs.wellMade doc document hopen
  obtain ⟨notImpl, spelled, first⟩ := unrivalled
  have hlisted : (document.tree.outlineEntries (s.service.workspace.originOf? doc)).value =
      before ++ entry :: after := by
    rw [← hentries, Service.entries, hopen]
  have hfind : s.service.findDecl? doc = document.tree.findDecl? := by
    funext name
    rw [Service.findDecl?, hopen, Option.bind_some]
  have hnonempty : entry.namesIn before ≠ [] := OutlineEntry.namesIn_ne_nil
  rw [hfind, ← pathOf_intercalate_eq_iff hnonempty fun name hname => (spelled name hname).2]
  rw [OutlineEntry.pathIn] at first ⊢
  constructor
  · intro hfound
    exact (hsub.suffix_of_findDecl? root hlisted hfound).eq_of_length_le (length_le_pathOf _)
  · intro hread
    have hfilled : ∀ part ∈ pathOf ("::".intercalate (entry.namesIn before)), part ≠ "" :=
      fun part hpart => (spelled part (hread ▸ hpart)).1
    rw [hsub.findDecl?_eq_some_iff root (s.service.workspace.originOf? doc) hfilled, hread]
    refine ⟨entry, ⟨before, after, hlisted, ?_, ?_⟩, rfl⟩
    · exact OutlineEntry.ledToBy_iff_suffix.mpr ⟨notImpl, List.suffix_refl _⟩
    · intro earlier other later hbefore hled
      have hsuffix := (OutlineEntry.ledToBy_iff_suffix.mp hled).2
      obtain ⟨hne, hends⟩ := first earlier other later hbefore
      rcases OutlineEntry.pathIn_of_suffix hnonempty hsuffix with heq | ⟨outer, heq⟩
      · exact hne heq
      · exact hends outer heq

/-! ## Two items, one inside the other -/

/-- What is seen of a document: whether its root is that of a source file, its items with their
depths, and what a path leads to. -/
structure Seen where
  isFile : Bool
  items : List (ElementId × Nat × String × SymbolKind)
  found? : Option ElementId
  deriving DecidableEq

/-- What is seen of the first document. -/
def seenBy (path : String) (s : Session) : Seen where
  isFile := (s.service.document? ⟨1⟩).any fun document =>
    document.tree.elementKind? document.tree.root = some .sourceFile
  items := (s.service.entries ⟨1⟩).map fun entry =>
    (entry.decl, entry.item.depth, entry.item.name, entry.item.presentation.kind)
  found? := s.service.findDecl? ⟨1⟩ path

/-- The item inside is not rivalled by that around it. -/
theorem exists_pair {calls : List Call} {path outer inner : String} {around decl : ElementId}
    {kind kind' : SymbolKind} {found? : Option ElementId}
    (h : (run calls .new).outcome.value.toOption.map (seenBy path ∘ Prod.snd) =
      some ⟨true, [(around, 0, outer, kind), (decl, 1, inner, kind')], found?⟩)
    (spelled : ∀ name ∈ [outer, inner], name ≠ "" ∧ Text.trim name = name)
    (notImpl : kind' ≠ .impl) :
    ∃ (s : Session) (document : Document) (first entry : OutlineEntry), s.Reached ∧
      s.service.document? ⟨1⟩ = some document ∧
      document.tree.elementKind? document.tree.root = some .sourceFile ∧
      s.service.entries ⟨1⟩ = [first] ++ entry :: [] ∧ entry.Unrivalled [first] ∧
      entry.decl = decl ∧ entry.namesIn [first] = [outer, inner] ∧
      s.service.findDecl? ⟨1⟩ path = found? := by
  obtain ⟨_, s, -, hs, hseen⟩ := exists_of_seen h
  obtain ⟨hroot, hlisted, hfound⟩ := Seen.mk.inj hseen
  obtain ⟨document, hopen, hroot⟩ := (Option.any_eq_true _ _).mp hroot
  obtain ⟨first, rest, hentries, hfirst, hrest⟩ := List.map_eq_cons_iff.mp hlisted
  obtain ⟨entry, rest, rfl, hentry, hnil⟩ := List.map_eq_cons_iff.mp hrest
  obtain rfl := List.map_eq_nil_iff.mp hnil
  simp only [Prod.mk.injEq] at hfirst hentry
  obtain ⟨-, hdepth, rfl, -⟩ := hfirst
  obtain ⟨hdecl, hdepth', rfl, rfl⟩ := hentry
  have hnames : entry.namesIn [first] = [first.item.name, entry.item.name] := by
    simp [OutlineEntry.namesIn, DeclVisibility.around, hdepth, hdepth']
  have hpath : entry.pathIn [first] = first.item.name ++ "::" ++ entry.item.name := by
    rw [OutlineEntry.pathIn, hnames, String.intercalate_cons_cons, String.intercalate_singleton]
  have hpathFirst : first.pathIn [] = first.item.name := rfl
  refine ⟨s, document, first, entry, hs, hopen, of_decide_eq_true hroot, hentries,
    ⟨notImpl, hnames ▸ spelled, ?_⟩, hdecl, hnames, hfound⟩
  -- the path of the first item is shorter
  intro earlier other later hbefore
  obtain ⟨rfl, heq⟩ : earlier = [] ∧ other :: later = [first] := by
    cases earlier with
    | nil => exact ⟨rfl, hbefore.symm⟩
    | cons _ earlier =>
      obtain ⟨-, htail⟩ := List.cons.inj hbefore
      simp at htail
  obtain ⟨rfl, -⟩ := List.cons.inj heq
  rw [hpathFirst, hpath]
  have hcolons : "::".length = 2 := rfl
  constructor
  · intro hsame
    have hlength := congrArg String.length hsame
    simp only [String.length_append, hcolons] at hlength
    omega
  · intro front hends
    have hlength := congrArg String.length hends
    simp only [String.length_append, hcolons] at hlength
    omega

theorem addressed_iff_sample : ∃ (s : Session) (document : Document) (first entry : OutlineEntry),
    s.Reached ∧ s.service.document? ⟨1⟩ = some document ∧
    document.tree.symbolKind? document.tree.root = none ∧
    s.service.entries ⟨1⟩ = [first] ++ entry :: [] ∧ entry.Unrivalled [first] ∧
    entry.pathIn [first] = "m::f" ∧ s.service.findDecl? ⟨1⟩ "m::f" = some entry.decl := by
  have heval : (run nested .new).outcome.value.toOption.map (seenBy "" ∘ Prod.snd) =
      some ⟨true, [(⟨3⟩, 0, "m", .module), (⟨2⟩, 1, "f", .function)], none⟩ := by decide +kernel
  obtain ⟨s, document, first, entry, hs, hopen, hroot, hentries, hentry, -, hnames, -⟩ :=
    exists_pair heval (by decide) (by decide)
  have root : document.tree.symbolKind? document.tree.root = none := by
    rw [Forest.symbolKind?, hroot]
    rfl
  have hpath : entry.pathIn [first] = "m::f" := by
    rw [OutlineEntry.pathIn, hnames]
    rfl
  have hfind := addressed_iff hs hopen root hentries hentry
  rw [hnames, hpath] at hfind
  exact ⟨s, document, first, entry, hs, hopen, root, hentries, hentry, hpath,
    hfind.mpr ⟨by decide, by decide⟩⟩

/-- A source file with an implementation for `a::S` and a function `f` in it. -/
def qualifiedText : String :=
  "\x7b\"tree\":\x7b\"kind\":\"SourceFile\",\"children\":[\x7b\"kind\":\"ImplItem\",\"children\":[" ++
  "\x7b\"kind\":\"Ty\",\"children\":[\x7b\"token\":\"Ident\",\"text\":\"a\"\x7d," ++
  "\x7b\"token\":\"ColonColon\"\x7d,\x7b\"token\":\"Ident\",\"text\":\"S\"\x7d]\x7d," ++
  "\x7b\"kind\":\"AssocItemList\",\"children\":[" ++ declText .fnItem "f" "" ++ "]\x7d]\x7d]\x7d\x7d"

/-- The function is listed inside `a::S`, and no other item has its path, but the path leads to
nothing. -/
theorem unaddressed_in_qualified : ∃ (s : Session) (document : Document)
    (first entry : OutlineEntry), s.Reached ∧ s.service.document? ⟨1⟩ = some document ∧
    document.tree.elementKind? document.tree.root = some .sourceFile ∧
    s.service.entries ⟨1⟩ = [first] ++ entry :: [] ∧ entry.Unrivalled [first] ∧
    entry.namesIn [first] = ["a::S", "f"] ∧ entry.pathIn [first] = "a::S::f" ∧
    s.service.findDecl? ⟨1⟩ "a::S::f" = none := by
  have heval : (run [.openJson ⟨1⟩ 7 qualifiedText] .new).outcome.value.toOption.map
      (seenBy "a::S::f" ∘ Prod.snd) =
      some ⟨true, [(⟨4⟩, 0, "a::S", .impl), (⟨2⟩, 1, "f", .method)], none⟩ := by decide +kernel
  obtain ⟨s, document, first, entry, hs, hopen, hroot, hentries, hentry, -, hnames, hfound⟩ :=
    exists_pair heval (by decide) (by decide)
  refine ⟨s, document, first, entry, hs, hopen, hroot, hentries, hentry, hnames, ?_, hfound⟩
  rw [OutlineEntry.pathIn, hnames]
  rfl

end Session

end DeclVisibility
