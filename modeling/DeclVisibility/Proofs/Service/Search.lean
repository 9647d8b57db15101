import DeclVisibility.Proofs.Outline.Listing
import DeclVisibility.Proofs.Outline.Paths
import DeclVisibility.Proofs.Service.Runs

/-!
# The search by name and the outline agree

A path leads to an item of an outline if the names of the item and of what is around it, from the
inside out, are its parts from the last one on (`OutlineItem.LedToBy`). The search by name gives the
declaration of the first item that the path leads to, and a fix is offered by name exactly if that
item is marked fixable (`Session.search_agrees`). Both see the same declarations in the same order
with the same names around them, the search by climbing over parents and the outline by its depths.
-/

namespace DeclVisibility

/-! ## Paths through an outline -/

/-- A path leads to an item that stands behind these items of an outline: the item is no
implementation, and its name and the names of the items around it, from the inside out, are the
parts of the path from the last one on. What is further out is free. -/
structure OutlineItem.LedToBy (item : OutlineItem) (before : List OutlineItem)
    (path : List String) : Prop where
  notImpl : item.presentation.kind ≠ .impl
  names : path.reverse <+:
    (item :: around OutlineItem.depth before.reverse item.depth).map (·.name)

/-- The first entry of an outline that a path leads to. -/
def OutlineEntry.IsFirst (entry : OutlineEntry) (entries : List OutlineEntry)
    (path : List String) : Prop :=
  ∃ before after, entries = before ++ entry :: after ∧
    entry.item.LedToBy (before.map (·.item)) path ∧
    ∀ earlier other later, before = earlier ++ other :: later →
      ¬ other.item.LedToBy (earlier.map (·.item)) path

/-! ## Paths through a forest -/

theorem pathOf_ne_nil (name : String) : pathOf name ≠ [] := by
  rw [pathOf, ne_eq, List.map_eq_nil_iff]
  exact splitPath_ne_nil _

namespace Forest

/-- The name that an outline shows for a declaration. -/
def shownName (f : Forest) (decl : ElementId) : String := (f.symbolName? decl).getD ""

variable {f : Forest} {id : ElementId} {chain : List ElementId}

/-- Only a declaration without a name is shown with an empty one. -/
theorem symbolName?_beq {name : String} (h : name ≠ "") :
    (f.symbolName? id == some name) = true ↔ name = f.shownName id := by
  rw [shownName, beq_iff_eq]
  cases f.symbolName? id with
  | none => simp [h]
  | some other => simp [eq_comm]

theorem EnclosedBy.isEnclosedBy_iff {names : List String} (h : f.EnclosedBy chain id)
    (filled : ∀ name ∈ names, name ≠ "") :
    f.isEnclosedBy names id = true ↔ names <+: chain.map f.shownName := by
  induction names generalizing id chain with
  | nil => simp [isEnclosedBy]
  | cons name outer ih =>
    have hname := filled name List.mem_cons_self
    cases chain with
    | nil => simp [isEnclosedBy, show f.enclosingSymbol? id = none from h]
    | cons a rest =>
      obtain ⟨henclosing, hrest⟩ := h
      rw [isEnclosedBy, henclosing, List.map_cons, List.cons_prefix_cons]
      simp only [Bool.and_eq_true]
      rw [symbolName?_beq hname, ih hrest fun n hn => filled n (List.mem_cons_of_mem _ hn)]

theorem EnclosedBy.matchesPath_iff {path : List String} (h : f.EnclosedBy chain id)
    (nonempty : path ≠ []) (filled : ∀ part ∈ path, part ≠ "") :
    f.matchesPath id path = true ↔ path.reverse <+: (id :: chain).map f.shownName := by
  have hfilled : ∀ part ∈ path.reverse, part ≠ "" :=
    fun part hpart => filled part (List.mem_reverse.mp hpart)
  rw [matchesPath]
  cases hreverse : path.reverse with
  | nil => exact absurd (List.reverse_eq_nil_iff.mp hreverse) nonempty
  | cons last outer =>
    rw [hreverse] at hfilled
    have hlast := hfilled last List.mem_cons_self
    rw [List.map_cons, List.cons_prefix_cons]
    simp only [Bool.and_eq_true]
    rw [symbolName?_beq hlast,
      h.isEnclosedBy_iff fun name hname => hfilled name (List.mem_cons_of_mem _ hname)]

/-- Every symbol but an implementation is a declaration that can carry a visibility. -/
theorem any_isVisibleDecl :
    (f.elementKind? id).any ElementKind.isVisibleDecl = true ↔
      (f.symbolKind? id).isSome ∧ f.symbolKind? id ≠ some .impl := by
  rw [symbolKind?]
  cases f.elementKind? id with
  | none => simp
  | some kind => cases kind <;> decide

end Forest

namespace Tree

/-- Whether a declaration is one that a path leads to. -/
def isLedTo (t : Tree) (path : List String) (id : ElementId) : Bool :=
  (t.elementKind? id).any ElementKind.isVisibleDecl && t.matchesPath id path

variable {t : Tree} {s : Subtree} {path : List String}

/-- The names around an entry that the depths tell are those of the symbols around it. -/
theorem names_around (t : Tree) (origin? : Option Origin) {x : ElementId × List ElementId}
    {before after : List (ElementId × List ElementId)}
    (hsplit : s.symbols [] = before ++ x :: after) :
    (around OutlineItem.depth ((before.map (t.entry origin?)).map (·.item)).reverse
      x.2.length).map (·.name) = x.2.map t.shownName := by
  have hreadable : Subtree.Readable [] (before ++ x :: after) :=
    hsplit ▸ (Subtree.readable_symbols rfl).1
  have hdepth : (OutlineItem.depth ∘ OutlineEntry.item) ∘ t.entry origin? =
      Subtree.symbolDepth := rfl
  have hname : (fun y => y.item.name) ∘ t.entry origin? = t.shownName ∘ Prod.fst := rfl
  have haround := hreadable.readAround
  rw [List.append_nil, Subtree.readAround] at haround
  calc
    _ = (((around Subtree.symbolDepth before.reverse x.2.length).map (t.entry origin?)).map
          (·.item)).map (·.name) := by
      rw [← List.map_reverse, ← List.map_reverse, around_map, around_map, hdepth]
    _ = ((around Subtree.symbolDepth before.reverse x.2.length).map Prod.fst).map t.shownName := by
      rw [List.map_map, List.map_map, List.map_map, ← hname]
      rfl
    _ = x.2.map t.shownName := by rw [haround]

namespace ReadsAs

section Paths
variable (h : t.ReadsAs s) (origin? : Option Origin) (nonempty : path ≠ [])
  (filled : ∀ part ∈ path, part ≠ "")
include h nonempty filled

/-- A path leads to an entry exactly if it leads to the declaration. -/
theorem ledToBy_iff {x : ElementId × List ElementId}
    {before after : List (ElementId × List ElementId)}
    (hsplit : s.symbols [] = before ++ x :: after) :
    (t.entry origin? x).item.LedToBy ((before.map (t.entry origin?)).map (·.item)) path ↔
      t.isLedTo path x.1 = true := by
  have hmem : x ∈ s.symbols [] := by
    rw [hsplit]
    exact List.mem_append_right _ List.mem_cons_self
  have hsymbol : (t.symbolKind? x.1).isSome := by
    have hfst : x.1 ∈ (s.symbols []).map Prod.fst := List.mem_map_of_mem hmem
    rw [h.carries.map_symbols, List.mem_filter] at hfst
    exact hfst.2
  have hmatches := (h.enclosedBy x hmem).matchesPath_iff nonempty filled
  have hnames := names_around t origin? hsplit
  rw [isLedTo, Bool.and_eq_true, Forest.any_isVisibleDecl, hmatches, List.map_cons, ← hnames]
  constructor
  · intro hled
    refine ⟨⟨hsymbol, fun himpl => hled.notImpl ((kind_entry hsymbol).mpr himpl)⟩, ?_⟩
    exact hled.names
  · rintro ⟨⟨-, himpl⟩, hchain⟩
    exact ⟨fun hkind => himpl ((kind_entry hsymbol).mp hkind), hchain⟩

/-- The path leads to no entry of a part of the outline exactly if it leads to no symbol there. -/
theorem forall_not_ledToBy_iff {first rest : List (ElementId × List ElementId)}
    (hsplit : s.symbols [] = first ++ rest) :
    (∀ earlier (entry : OutlineEntry) later,
      first.map (t.entry origin?) = earlier ++ entry :: later →
        ¬ entry.item.LedToBy (earlier.map (·.item)) path) ↔
      ∀ x ∈ first, t.isLedTo path x.1 = false := by
  constructor
  · intro hnone x hx
    obtain ⟨l, r, rfl⟩ := List.append_of_mem hx
    rw [List.append_assoc, List.cons_append] at hsplit
    have hnot := hnone (l.map (t.entry origin?)) (t.entry origin? x) (r.map (t.entry origin?))
      (by rw [List.map_append, List.map_cons])
    rwa [ledToBy_iff h origin? nonempty filled hsplit, Bool.not_eq_true] at hnot
  · intro hnone earlier entry later hentries
    obtain ⟨l, tail, rfl, rfl, htail⟩ := List.map_eq_append_iff.mp hentries
    obtain ⟨x, r, rfl, rfl, rfl⟩ := List.map_eq_cons_iff.mp htail
    rw [List.append_assoc, List.cons_append] at hsplit
    rw [ledToBy_iff h origin? nonempty filled hsplit,
      hnone x (List.mem_append_right _ List.mem_cons_self)]
    exact Bool.false_ne_true

/-- The first entry that a path leads to is that of the first symbol which passes the search. -/
theorem isFirst_iff {entry : OutlineEntry} :
    entry.IsFirst ((s.symbols []).map (t.entry origin?)) path ↔
      ∃ x, (s.symbols []).find? (fun x => t.isLedTo path x.1) = some x ∧
        entry = t.entry origin? x := by
  constructor
  · rintro ⟨before, after, hsplit, hled, hfirst⟩
    obtain ⟨first, rest, hsymbols, rfl, hrest⟩ := List.map_eq_append_iff.mp hsplit
    obtain ⟨x, second, rfl, rfl, rfl⟩ := List.map_eq_cons_iff.mp hrest
    rw [ledToBy_iff h origin? nonempty filled hsymbols] at hled
    rw [forall_not_ledToBy_iff h origin? nonempty filled hsymbols] at hfirst
    exact ⟨x, List.find?_eq_some_iff_append.mpr
      ⟨hled, first, second, hsymbols, by simpa using hfirst⟩, rfl⟩
  · rintro ⟨x, hx, rfl⟩
    obtain ⟨hled, first, second, hsymbols, hfirst⟩ := List.find?_eq_some_iff_append.mp hx
    refine ⟨first.map (t.entry origin?), second.map (t.entry origin?), ?_, ?_, ?_⟩
    · rw [hsymbols, List.map_append, List.map_cons]
    · rwa [ledToBy_iff h origin? nonempty filled hsymbols]
    · rw [forall_not_ledToBy_iff h origin? nonempty filled hsymbols]
      simpa using hfirst

end Paths

theorem findDecl?_eq (h : t.ReadsAs s) (name : String) : t.findDecl? name =
    ((s.symbols []).find? fun x => t.isLedTo (pathOf name) x.1).map Prod.fst := by
  refine h.find?_descendants fun id hid => ?_
  rw [Bool.and_eq_true, Forest.any_isVisibleDecl] at hid
  exact hid.1.1

section Search
variable (h : t.ReadsAs s) (root : t.symbolKind? t.root = none) (origin? : Option Origin)
  {name : String} (filled : ∀ part ∈ pathOf name, part ≠ "")
include h root filled

/-- The search finds the declaration of the first entry that the name leads to. -/
theorem findDecl?_eq_some_iff {decl : ElementId} : t.findDecl? name = some decl ↔
    ∃ entry : OutlineEntry, entry.IsFirst (t.outlineEntries origin?).value (pathOf name) ∧
      entry.decl = decl := by
  rw [h.findDecl?_eq, h.outlineEntries_eq root, Option.map_eq_some_iff]
  constructor
  · rintro ⟨x, hx, rfl⟩
    exact ⟨_, (isFirst_iff h origin? (pathOf_ne_nil name) filled).mpr ⟨x, hx, rfl⟩, rfl⟩
  · rintro ⟨entry, hfirst, rfl⟩
    obtain ⟨x, hx, rfl⟩ := (isFirst_iff h origin? (pathOf_ne_nil name) filled).mp hfirst
    exact ⟨x, hx, rfl⟩

/-- The search finds nothing exactly if the name leads to no entry. -/
theorem findDecl?_eq_none_iff : t.findDecl? name = none ↔
    ∀ before (entry : OutlineEntry) after,
      (t.outlineEntries origin?).value = before ++ entry :: after →
        ¬ entry.item.LedToBy (before.map (·.item)) (pathOf name) := by
  have hwhole : s.symbols [] = s.symbols [] ++ [] := (List.append_nil _).symm
  rw [h.findDecl?_eq, h.outlineEntries_eq root, Option.map_eq_none_iff, List.find?_eq_none,
    forall_not_ledToBy_iff h origin? (pathOf_ne_nil name) filled hwhole]
  simp only [Bool.not_eq_true]

/-- An entry is marked fixable exactly if a fix for its declaration would be offered. -/
theorem fixable_of_isFirst {entry : OutlineEntry}
    (hfirst : entry.IsFirst (t.outlineEntries origin?).value (pathOf name)) :
    entry.item.fixable = (t.offerFix entry.decl none .pub origin?).value.isSome := by
  rw [h.outlineEntries_eq root] at hfirst
  obtain ⟨x, -, rfl⟩ := (isFirst_iff h origin? (pathOf_ne_nil name) filled).mp hfirst
  rfl

end Search

end ReadsAs

end Tree

/-! ## The service -/

/-- The entries of the outline of a document. -/
def Service.entries (s : Service) (doc : Doc) : List OutlineEntry :=
  match s.document? doc with
  | some document => (document.tree.outlineEntries (s.workspace.originOf? doc)).value
  | none => []

theorem Service.outline_eq (s : Service) (doc : Doc) :
    (s.outline doc).value = (s.entries doc).map (·.item) := by
  rw [Service.outline, Service.entries]
  cases s.document? doc <;> rfl

/-- Whether a fix is offered depends neither on how it is titled nor on what it writes. -/
theorem Forest.isSome_offerFix (f : Forest) (decl : ElementId) (name? other? : Option String)
    (scope other : Scope) (origin? : Option Origin) :
    (f.offerFix decl name? scope origin?).value.isSome =
      (f.offerFix decl other? other origin?).value.isSome := by
  have hiff : ∀ (name? : Option String) (scope : Scope),
      (f.offerFix decl name? scope origin?).value.isSome = true ↔ f.Offers decl origin? := by
    intro name? scope
    rw [Option.isSome_iff_exists]
    exact ⟨fun ⟨_, hfix⟩ => (offerFix_eq_some.mp hfix).1,
      fun hoffers => ⟨_, offerFix_eq_some.mpr ⟨hoffers, rfl⟩⟩⟩
  rw [Bool.eq_iff_iff, hiff, hiff]

/-- A fix is offered by a name exactly if the search finds a declaration that one is offered for. -/
theorem Service.isSome_makePublic {s : Service} {doc : Doc} {document : Document}
    (hopen : s.document? doc = some document) (name : String) (scope : Scope) :
    (s.makePublic doc name scope).value.isSome ↔
      ∃ decl, s.findDecl? doc name = some decl ∧
        (document.tree.offerFix decl none .pub (s.workspace.originOf? doc)).value.isSome := by
  rw [makePublic, Service.findDecl?, hopen, Option.bind_some]
  simp only
  cases document.tree.findDecl? name with
  | none => simp
  | some decl =>
    simp only [Option.some.injEq, exists_eq_left']
    rw [document.tree.isSome_offerFix _ _ none _ .pub]

namespace Session

/-- In a document whose root declares nothing, a name whose parts are not empty leads to the
declaration of the first item of the outline that it leads to, and to none if there is no such item.
A fix is offered by that name, whatever it is to write, exactly if that item is marked fixable. -/
theorem search_agrees {s : Session} (hs : s.Reached) {doc : Doc} {document : Document}
    (hopen : s.service.document? doc = some document)
    (root : document.tree.symbolKind? document.tree.root = none) {name : String}
    (filled : ∀ part ∈ pathOf name, part ≠ "") :
    (s.service.outline doc).value = (s.service.entries doc).map (·.item) ∧
    (∀ decl, s.service.findDecl? doc name = some decl ↔
      ∃ entry : OutlineEntry, entry.IsFirst (s.service.entries doc) (pathOf name) ∧
        entry.decl = decl) ∧
    (s.service.findDecl? doc name = none ↔
      ∀ before entry after, s.service.entries doc = before ++ entry :: after →
        ¬ entry.item.LedToBy (before.map (·.item)) (pathOf name)) ∧
    ∀ oneCrate, (s.service.makePublic doc name (.within oneCrate)).value.isSome ↔
      ∃ entry : OutlineEntry, entry.IsFirst (s.service.entries doc) (pathOf name) ∧
        entry.item.fixable = true := by
  obtain ⟨sub, hsub⟩ := hs.wellMade doc document hopen
  have hentries : s.service.entries doc =
      (document.tree.outlineEntries (s.service.workspace.originOf? doc)).value := by
    rw [Service.entries, hopen]
  have hfind : s.service.findDecl? doc name = document.tree.findDecl? name := by
    rw [Service.findDecl?, hopen, Option.bind_some]
  rw [hfind, hentries]
  refine ⟨hentries ▸ s.service.outline_eq doc,
    fun decl => hsub.findDecl?_eq_some_iff root _ filled,
    hsub.findDecl?_eq_none_iff root _ filled, ?_⟩
  intro oneCrate
  rw [Service.isSome_makePublic hopen, hfind]
  constructor
  · rintro ⟨decl, hdecl, hoffer⟩
    obtain ⟨entry, hfirst, rfl⟩ := (hsub.findDecl?_eq_some_iff root _ filled).mp hdecl
    exact ⟨entry, hfirst, (hsub.fixable_of_isFirst root _ filled hfirst).trans hoffer⟩
  · rintro ⟨entry, hfirst, hfixable⟩
    exact ⟨entry.decl, (hsub.findDecl?_eq_some_iff root _ filled).mpr ⟨entry, hfirst, rfl⟩,
      (hsub.fixable_of_isFirst root _ filled hfirst).symm.trans hfixable⟩

theorem search_agrees_sample : ∃ (s : Session) (document : Document) (entry : OutlineEntry),
    s.Reached ∧ s.service.document? ⟨1⟩ = some document ∧
    document.tree.symbolKind? document.tree.root = none ∧ (∀ part ∈ pathOf "m::f", part ≠ "") ∧
    entry.IsFirst (s.service.entries ⟨1⟩) (pathOf "m::f") ∧ entry.item.fixable = true := by
  obtain ⟨s, document, hs, hopen, -, hroot, -, hfix⟩ := nested_reached
  have hfilled : ∀ part ∈ pathOf "m::f", part ≠ "" := by decide +kernel
  obtain ⟨-, -, -, hoffer⟩ := search_agrees hs hopen hroot hfilled
  obtain ⟨entry, hfirst, hfixable⟩ := (hoffer true).mp (Option.isSome_of_eq_some hfix)
  exact ⟨s, document, entry, hs, hopen, hroot, hfilled, hfirst, hfixable⟩

end Session

end DeclVisibility
