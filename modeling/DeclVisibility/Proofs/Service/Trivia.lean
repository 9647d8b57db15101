import DeclVisibility.Proofs.Service.Search
import DeclVisibility.Proofs.Tree.Building
import DeclVisibility.Proofs.Tree.Matching

/-!
# Spaces and comments carry no meaning

In trees that differ in spaces and comments only, the symbols are matched in order, and so is what
is around each of them (`Subtree.Mates.symbols`). Their names are the same, so every search by name
ends at matched declarations (`Tree.Alike.findDecl?`), and the outlines tell the same but for
positions and the texts of parameters (`Tree.Alike.outlineEntries`). With what is known of single
elements, this is all that a tree is asked for (`Tree.Alike.trivia_means_nothing`).
-/

namespace DeclVisibility

/-! ## Symbols -/

namespace Subtree

theorem flatMap_symbols_bareAll (children : List Subtree) (chain : List ElementId)
    (h : ∀ c ∈ children, c.bare.symbols chain = c.symbols chain) :
    (bareAll children).flatMap (symbols chain) = children.flatMap (symbols chain) := by
  refine flatMap_bareAll (fun c hc _ => h c hc) fun c _ htrivia => ?_
  cases c with
  | token leaf => rw [symbols_token]
  | element _ _ _ => cases htrivia

theorem symbols_bare (s : Subtree) : ∀ chain, s.bare.symbols chain = s.symbols chain := by
  induction s with
  | token leaf =>
    intro chain
    rw [bare_token]
  | element id kind children ih =>
    intro chain
    have hall := fun chain => flatMap_symbols_bareAll children chain fun c hc => ih c hc chain
    rw [bare_element]
    cases hkind : SymbolKind.ofElementKind? kind with
    | none => rw [symbols_of_none hkind, symbols_of_none hkind, hall]
    | some symbol => rw [symbols_of_some hkind, symbols_of_some hkind, hall]

theorem listed_eq (s : Subtree) : s.listed = s.children.flatMap (symbols []) := by
  cases s <;> rfl

theorem listed_bare (s : Subtree) : s.bare.listed = s.listed := by
  cases s with
  | token leaf => rw [bare_token]
  | element id kind children =>
    rw [bare_element]
    exact flatMap_symbols_bareAll children [] fun c _ => c.symbols_bare []

/-- Two symbols are related, and so are the symbols around them from the inside out. -/
structure FacesSymbol (Mate : NodeId → NodeId → Prop) (x y : ElementId × List ElementId) :
    Prop where
  symbol : Mate (.element x.1) (.element y.1)
  chain : List.Forall₂ (fun a a' => Mate (.element a) (.element a')) x.2 y.2

namespace Mates

variable {Mate : NodeId → NodeId → Prop} {s s' : Subtree}

theorem symbols (h : Mates Mate s s') {chain chain' : List ElementId}
    (around : List.Forall₂ (fun a a' => Mate (.element a) (.element a')) chain chain') :
    List.Forall₂ (FacesSymbol Mate) (s.symbols chain) (s'.symbols chain') := by
  refine h.induction (motive := fun s s' => ∀ chain chain' : List ElementId,
    List.Forall₂ (fun a a' => Mate (.element a) (.element a')) chain chain' →
      List.Forall₂ (FacesSymbol Mate) (s.symbols chain) (s'.symbols chain')) ?_ ?_ _ _ around
  · intro leaf leaf' chain chain' _
    rw [symbols_token, symbols_token]
    exact .nil
  · intro id id' kind children children' hmate hchildren chain chain' around
    cases hkind : SymbolKind.ofElementKind? kind with
    | none =>
      rw [symbols_of_none hkind, symbols_of_none hkind]
      exact List.rel_flatMap hchildren fun c c' hc => hc.2 _ _ around
    | some symbol =>
      rw [symbols_of_some hkind, symbols_of_some hkind, List.forall₂_cons]
      exact ⟨⟨hmate, around⟩,
        List.rel_flatMap hchildren fun c c' hc => hc.2 _ _ (.cons hmate around)⟩

theorem listed (h : Mates Mate s s') :
    List.Forall₂ (FacesSymbol Mate) s.listed s'.listed := by
  rw [listed_eq, listed_eq]
  exact List.rel_flatMap h.children fun c c' hc => hc.symbols .nil

end Mates

end Subtree

/-! ## Searches -/

/-- Searches in step through related lists find related entries. -/
theorem rel_find? {α β : Type} {Mate : α → β → Prop} {as : List α} {bs : List β} {p : α → Bool}
    {q : β → Bool} (h : List.Forall₂ (fun a b => Mate a b ∧ q b = p a) as bs) :
    Option.Rel Mate (as.find? p) (bs.find? q) := by
  induction h with
  | nil => exact .none
  | @cons a b as bs hab _ ih =>
    rw [List.find?_cons, List.find?_cons, hab.2]
    split
    · exact .some hab.1
    · exact ih

/-- Symbols with the same names around them are enclosed by the same names. -/
theorem Forest.EnclosedBy.isEnclosedBy_congr {f g : Forest} : ∀ {names : List String}
    {a a' : ElementId} {chain chain' : List ElementId}, f.EnclosedBy chain a →
    g.EnclosedBy chain' a' →
    List.Forall₂ (fun c c' => g.symbolName? c' = f.symbolName? c) chain chain' →
    g.isEnclosedBy names a' = f.isEnclosedBy names a
  | [], _, _, _, _, _, _, _ => rfl
  | name :: names, a, a', _, _, h, h', same => by
    rw [isEnclosedBy, isEnclosedBy]
    cases same with
    | nil => rw [show f.enclosingSymbol? a = none from h, show g.enclosingSymbol? a' = none from h']
    | cons hname hrest =>
      obtain ⟨hsymbol, hout⟩ := h
      obtain ⟨hsymbol', hout'⟩ := h'
      rw [hsymbol, hsymbol']
      simp only
      rw [hname, hout.isEnclosedBy_congr hout' hrest]

/-! ## Outlines -/

/-- Two items of outlines tell the same, but for positions and the texts of parameters. -/
structure OutlineItem.Agrees (item item' : OutlineItem) : Prop where
  name : item'.name = item.name
  depth : item'.depth = item.depth
  visibility : item'.visibility = item.visibility
  presentation : item'.presentation = item.presentation
  declarations : item'.declarations.length = item.declarations.length
  fixable : item'.fixable = item.fixable

namespace Tree.Alike

variable {t t' : Tree} {s s' : Subtree} {a a' : ElementId}

section
variable (h : t.Alike s t' s')
include h

/-- A path leads to matched symbols, or to none of the two. -/
theorem isLedTo {x y : ElementId × List ElementId} (hx : x ∈ s.symbols [])
    (hy : y ∈ s'.symbols []) (hxy : Subtree.FacesSymbol (s.Matched s') x y) (path : List String) :
    t'.isLedTo path y.1 = t.isLedTo path x.1 := by
  have hchain := hxy.chain.imp fun c c' hc => h.symbolName? hc
  have henclosed : ∀ names, t'.isEnclosedBy names y.1 = t.isEnclosedBy names x.1 := fun names =>
    (h.reads.enclosedBy x hx).isEnclosedBy_congr (h.reads'.enclosedBy y hy) hchain
  rw [Tree.isLedTo, Tree.isLedTo, h.mirrors.kind hxy.symbol, Forest.matchesPath, Forest.matchesPath]
  split
  · rfl
  · rw [h.symbolName? hxy.symbol, henclosed]

/-- A name leads to matched declarations, or to none in both trees. -/
theorem findDecl? (name : String) :
    Option.Rel (fun a a' => s.Matched s' (.element a) (.element a')) (t.findDecl? name)
      (t'.findDecl? name) := by
  have hsymbols : List.Forall₂ (Subtree.FacesSymbol (s.Matched s')) (s.bare.symbols [])
      (s'.bare.symbols []) := (Subtree.mates_bare h.draft).symbols .nil
  rw [s.symbols_bare, s'.symbols_bare] at hsymbols
  have hstep : List.Forall₂ (fun x y => Subtree.FacesSymbol (s.Matched s') x y ∧
      t'.isLedTo (pathOf name) y.1 = t.isLedTo (pathOf name) x.1) (s.symbols [])
      (s'.symbols []) := by
    rw [List.forall₂_iff_zip] at hsymbols ⊢
    refine ⟨hsymbols.1, fun {x y} hmem => ?_⟩
    obtain ⟨hx, hy⟩ := List.of_mem_zip hmem
    exact ⟨hsymbols.2 hmem, h.isLedTo hx hy (hsymbols.2 hmem) _⟩
  rw [h.reads.findDecl?_eq, h.reads'.findDecl?_eq]
  obtain ⟨hx, hy⟩ | ⟨x, y, hx, hy, hxy⟩ := rel_cases (rel_find? hstep)
  · rw [hx, hy]
    exact .none
  · rw [hx, hy]
    exact .some hxy.symbol

/-- The entries of matched symbols tell the same. -/
theorem entry {x y : ElementId × List ElementId}
    (hxy : Subtree.FacesSymbol (s.Matched s') x y) (origin? : Option Origin) :
    (t.entry origin? x).item.Agrees (t'.entry origin? y).item := by
  have hmirrors := h.mirrors
  have hvisibility := h.visibilityOf hxy.symbol
  refine ⟨?_, hxy.chain.length_eq.symm, hvisibility, ?_,
    hmirrors.length_parameterTexts hxy.symbol,
    hmirrors.isSome_offerFix hxy.symbol hvisibility none .pub origin?⟩
  · exact congrArg (fun name? => name?.getD "") (h.symbolName? hxy.symbol)
  · rw [t.presentation_entry, t'.presentation_entry, hmirrors.symbolKind? hxy.symbol,
      hmirrors.presentationOf hxy.symbol hvisibility]

/-- The outlines list matched declarations in the same order, and tell the same of them. -/
theorem outlineEntries (origin? : Option Origin) :
    List.Forall₂ (fun entry entry' => s.Matched s' (.element entry.decl) (.element entry'.decl) ∧
        entry.item.Agrees entry'.item)
      (t.outlineEntries origin?).value (t'.outlineEntries origin?).value := by
  have hlisted := (Subtree.mates_bare h.draft).listed
  rw [s.listed_bare, s'.listed_bare] at hlisted
  rw [h.reads.outlineEntries_listed, h.reads'.outlineEntries_listed, List.forall₂_map_left_iff,
    List.forall₂_map_right_iff]
  exact hlisted.imp fun x y hxy => ⟨hxy.symbol, h.entry hxy origin?⟩

theorem outline (origin? : Option Origin) :
    List.Forall₂ OutlineItem.Agrees (t.outline origin?).value (t'.outline origin?).value := by
  have hentries := (h.outlineEntries origin?).imp fun _ _ hentry => hentry.2
  have hitems : ∀ u : Tree, (u.outline origin?).value =
      (u.outlineEntries origin?).value.map (·.item) := fun _ => rfl
  rw [hitems, hitems, List.forall₂_map_left_iff, List.forall₂_map_right_iff]
  exact hentries

/-- Every element is matched by one of the other tree. -/
theorem exists_matched (held : t.holds (.element a) = true) :
    ∃ a', s.Matched s' (.element a) (.element a') := by
  have hmem : a ∈ s.elements :=
    List.mem_filterMap.mpr ⟨.element a, h.reads.holds_iff.mp held, rfl⟩
  rw [← s.elements_bare] at hmem
  obtain ⟨node, hnode, heq⟩ := List.mem_filterMap.mp hmem
  cases node with
  | token id => cases heq
  | element id =>
    obtain rfl := Option.some.inj heq
    obtain ⟨before, after, hsplit⟩ := List.append_of_mem hnode
    have hnodes := (Subtree.mates_bare h.draft).nodes
    rw [hsplit] at hnodes
    obtain ⟨-, node', -, -, -, hmatched⟩ := exists_split_of_forall₂ hnodes
    obtain ⟨a', rfl⟩ := hmatched.exists_element h.draft
    exact ⟨a', hmatched⟩

theorem symm : t'.Alike s' t s := ⟨h.reads', h.reads, h.draft.symm⟩

/-- In trees that differ in spaces and comments only, the other nodes are matched one to one in text
order. Matched elements are equally visible, have the same name, and are offered the same fixes; a
visibility goes before matched nodes; a name leads to matched declarations; and the outlines tell
the same but for positions and the texts of parameters. -/
theorem trivia_means_nothing :
    (∀ a, t.holds (.element a) = true → ∃ a', s.Matched s' (.element a) (.element a')) ∧
    (∀ a', t'.holds (.element a') = true → ∃ a, s.Matched s' (.element a) (.element a')) ∧
    (∀ node node' other other', s.Matched s' node node' → s.Matched s' other other' →
      (node = other ↔ node' = other')) ∧
    (∀ a a', s.Matched s' (.element a) (.element a') →
      (t'.visibilityOf a').value = (t.visibilityOf a).value ∧
      t'.symbolName? a' = t.symbolName? a ∧
      ∀ name? scope origin?, (t'.offerFix a' name? scope origin?).value.isSome =
        (t.offerFix a name? scope origin?).value.isSome) ∧
    (∀ node node', s.Matched s' node node' → (t.parent? node).isSome →
      ∃ anchor anchor', (t.anchorOf node).outcome.value = .ok anchor ∧
        (t'.anchorOf node').outcome.value = .ok anchor' ∧ s.Matched s' anchor anchor') ∧
    (∀ name, Option.Rel (fun a a' => s.Matched s' (.element a) (.element a')) (t.findDecl? name)
      (t'.findDecl? name)) ∧
    ∀ origin?, List.Forall₂ OutlineItem.Agrees (t.outline origin?).value
      (t'.outline origin?).value := by
  refine ⟨fun a => h.exists_matched, fun a' held => ?_, fun _ _ _ _ => h.unique, fun a a' hm => ?_,
    fun _ _ => h.anchorOf, h.findDecl?, h.outline⟩
  · obtain ⟨a, hm⟩ := h.symm.exists_matched held
    exact ⟨a, hm.symm⟩
  · have hvisibility := h.visibilityOf hm
    exact ⟨hvisibility, h.symbolName? hm, h.mirrors.isSome_offerFix hm hvisibility⟩

end

end Tree.Alike

/-! ## Loaded trees -/

/-- The tree that a draft is loaded as. -/
def Draft.tree? (draft : Draft) : Option Tree :=
  match draft.events with
  | .error _ => none
  | .ok events => (Tree.ofEvents events).toOption

/-- A loaded tree reads as what is below its root. -/
theorem Draft.exists_reads_of_tree? (draft bare : Draft)
    (h : (draft.tree?.bind Tree.whole?).map (·.bare.draft) = some bare) :
    ∃ t s, draft.tree? = some t ∧ t.ReadsAs s ∧ s.bare.draft = bare := by
  obtain ⟨s, hwhole, hbare⟩ := Option.map_eq_some_iff.mp h
  obtain ⟨t, htree, hwhole⟩ := Option.bind_eq_some_iff.mp hwhole
  refine ⟨t, s, htree, ?_, hbare⟩
  rw [Draft.tree?] at htree
  split at htree
  · cases htree
  · rename_i events hevents
    cases hbuilt : Tree.ofEvents events with
    | error fault =>
      rw [hbuilt] at htree
      cases htree
    | ok built =>
      rw [hbuilt] at htree
      obtain rfl := Option.some.inj htree
      obtain ⟨read, hread⟩ := Tree.readsAs_of_ofEvents (Draft.spelled_of_events hevents) hbuilt
      obtain rfl := Option.some.inj (hwhole.symm.trans hread.whole?)
      exact hread

namespace Tree.Alike

/-- A function with a space behind its keyword. -/
def spaced : Draft :=
  .element .fnItem [.token (.keyword .fnKw) none, .token .space (some " "),
    .element .name [.token .ident (some "f")]]

/-- The function with a comment before it instead, and with a space in its name. -/
def commented : Draft :=
  .element .fnItem [.token .comment (some "/*c*/"), .token (.keyword .fnKw) none,
    .element .name [.token .ident (some "f"), .token .space (some " ")]]

/-- What is left of either function without spaces and comments. -/
def essence : Draft :=
  .element .fnItem [.token (.keyword .fnKw) (some "fn"), .element .name [.token .ident (some "f")]]

/-- The name leads to the function in both trees. -/
theorem trivia_means_nothing_sample : ∃ (t t' : Tree) (s s' : Subtree) (a a' : ElementId),
    spaced.tree? = some t ∧ commented.tree? = some t' ∧ t.Alike s t' s' ∧
    t.findDecl? "f" = some a ∧ t'.findDecl? "f" = some a' ∧
    s.Matched s' (.element a) (.element a') := by
  obtain ⟨t, s, htree, hread, hbare⟩ := spaced.exists_reads_of_tree? essence (by cbv)
  obtain ⟨t', s', htree', hread', hbare'⟩ := commented.exists_reads_of_tree? essence (by cbv)
  have halike : t.Alike s t' s' := ⟨hread, hread', hbare.trans hbare'.symm⟩
  have hfound : spaced.tree?.bind (fun t => t.findDecl? "f") = some ⟨1⟩ := by decide +kernel
  rw [htree, Option.bind_some] at hfound
  obtain ⟨-, -, -, -, -, search, -⟩ := halike.trivia_means_nothing
  obtain ⟨hnone, -⟩ | ⟨a, a', ha, ha', hmatched⟩ := rel_cases (search "f")
  · rw [hfound] at hnone
    cases hnone
  · exact ⟨t, t', s, s', a, a', htree, htree', halike, ha, ha', hmatched⟩

end Tree.Alike

end DeclVisibility
