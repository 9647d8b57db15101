import DeclVisibility.Proofs.Fix.Keeps
import DeclVisibility.Proofs.Fix.Starts
import DeclVisibility.Proofs.Service.Search

/-!
# The outline after a fix

A fix puts in a visibility and a blank, which declare nothing, so the outline lists the same
declarations in the same order and at the same depths (`Subtree.listed_publish`). The item of the
declaration itself tells the visibility that was written (`Fix.Inserts.relists`), the others tell
what they told, and the items behind the place of the edit are moved by what was written
(`Fix.Inserts.moves`). Put together this is the outline of a document after a fix that was just
offered (`Session.outline_after_fix`).
-/

namespace DeclVisibility

/-! ## The same declarations are listed -/

namespace Subtree

variable {anchor : NodeId} {new : Subtree}

theorem symbols_plantAll {ss : List Subtree} {chain : List ElementId}
    (hnew : new.symbols chain = [])
    (h : ∀ c ∈ ss, (c.plant anchor new).symbols chain = c.symbols chain) :
    (plantAll ss anchor new).flatMap (symbols chain) = ss.flatMap (symbols chain) := by
  rw [plantAll_eq, List.flatMap_assoc]
  apply List.flatMap_congr
  intro c hc
  rw [List.flatMap_append, List.flatMap_singleton, h c hc]
  split
  · rw [List.flatMap_singleton, hnew, List.nil_append]
  · rfl

/-- What declares nothing adds no symbol where it is planted. -/
theorem symbols_plant (hnew : ∀ chain, new.symbols chain = []) (s : Subtree) :
    ∀ chain, (s.plant anchor new).symbols chain = s.symbols chain := by
  induction s with
  | token leaf =>
    intro chain
    rw [plant_token]
  | element id kind children ih =>
    intro chain
    rw [plant_element]
    cases hkind : SymbolKind.ofElementKind? kind with
    | none =>
      rw [symbols_of_none hkind, symbols_of_none hkind,
        symbols_plantAll (hnew chain) fun c hc => ih c hc chain]
    | some symbol =>
      rw [symbols_of_some hkind, symbols_of_some hkind,
        symbols_plantAll (hnew _) fun c hc => ih c hc (id :: chain)]

theorem listed_plant (hnew : ∀ chain, new.symbols chain = []) (s : Subtree) :
    (s.plant anchor new).listed = s.listed := by
  cases s with
  | token leaf => rw [plant_token]
  | element id kind children =>
    rw [plant_element]
    exact symbols_plantAll (hnew []) fun c _ => symbols_plant hnew c []

theorem listed_publish (s : Subtree) (w : Inset) : (s.publish w).listed = s.listed := by
  have hvis : ∀ chain, w.visibility.symbols chain = [] := by
    intro chain
    rw [Inset.visibility, symbols_of_none rfl, List.flatMap_map]
    simp
  have hblank : ∀ chain, w.space.symbols chain = [] := fun chain => symbols_token _
  rw [publish, listed_plant hblank, listed_plant hvis]

end Subtree

/-- What an outline lists is held. -/
theorem Tree.ReadsAs.holds_listed {t : Tree} {s : Subtree} (h : t.ReadsAs s)
    {x : ElementId × List ElementId} (hx : x ∈ s.listed) : t.holds (.element x.1) = true := by
  cases s with
  | token leaf => cases hx
  | element id kind children =>
    obtain ⟨c, hc, hx⟩ := List.mem_flatMap.mp hx
    have hfst : x.1 ∈ (c.symbols []).map Prod.fst := List.mem_map_of_mem hx
    rw [(h.carries.child hc).map_symbols] at hfst
    have hnode := Subtree.mem_elements_iff.mp (List.mem_filter.mp hfst).1
    rw [h.holds_iff, Subtree.nodes_element]
    exact List.mem_cons_of_mem _ (List.mem_flatMap.mpr ⟨c, hc, hnode⟩)

/-! ## What the items tell -/

/-- What a fix does to an entry of an outline. The entry of its declaration tells what was written,
and any other tells what it told, but for names and parameters that the declaration stands in. -/
structure Fix.Relists (fix : Fix) (t : Tree) (old new : OutlineEntry) : Prop where
  decl : new.decl = old.decl
  depth : new.item.depth = old.item.depth
  name : fix.Apart t old.decl → new.item.name = old.item.name
  declarations : fix.Apart t old.decl → new.item.declarations = old.item.declarations
  own : old.decl = fix.decl → new.item.visibility = fix.scope.visibility ∧
    new.item.presentation = { old.item.presentation with mark? := some .pub } ∧
    new.item.fixable = false
  other : old.decl ≠ fix.decl → new.item.visibility = old.item.visibility ∧
    new.item.presentation = old.item.presentation ∧ new.item.fixable = old.item.fixable

/-- How an entry of an outline moves when a text is written at a place of a tree. It tells the start
of its declaration in the new text. If its declaration comes before the place, it is where it was,
and otherwise the written text is one more before it. -/
structure OutlineEntry.Moves (written : String) (start : Position) (earlier : List NodeId)
    (t t' : Tree) (old new : OutlineEntry) : Prop where
  starts : ∃ before after, new.item.pos = .ofString before ∧
    t'.text = before ++ t'.nodeText (.element new.decl) ++ after
  kept : .element old.decl ∈ earlier → new.item.pos = old.item.pos
  moved : .element old.decl ∉ earlier → ∃ before between after, start = .ofString before ∧
    t.text = before ++ between ++ after ∧ t'.text = before ++ written ++ between ++ after ∧
    old.item.pos = .ofString (before ++ between) ∧
    new.item.pos = .ofString (before ++ written ++ between)

/-- The position of an entry is the start of its declaration. -/
theorem Tree.pos_entry {t : Tree} {origin? : Option Origin} {x : ElementId × List ElementId}
    {pos : Position} (h : t.offsetOf? (.element x.1) = some pos) :
    (t.entry origin? x).item.pos = pos := by
  have hpos : (t.entry origin? x).item.pos = (t.offsetOf? (.element x.1)).getD .zero := rfl
  rw [hpos, h, Option.getD_some]

theorem Scope.mark_visibility (scope : Scope) : Mark.of scope.visibility = .pub := by
  cases scope <;> rfl

namespace Fix.Inserts

variable {fix : Fix} {t t' : Tree} {s : Subtree} {w : Inset} {origin? : Option Origin}

section Items
variable (h : fix.Inserts t s w t') (readsAs : t.ReadsAs s) (offers : t.Offers fix.decl origin?)
include h readsAs offers

/-- The visibility that was written is the one that is read. -/
theorem visibilityOf_decl : (t'.visibilityOf fix.decl).value = fix.scope.visibility :=
  readsAs.visibility_publish h.readsAs (h.parent? readsAs) (h.anchor_fresh readsAs) h.writes
    offers.isPrivate

theorem fixable_decl : (t'.offerFix fix.decl none .pub origin?).value.isSome = false := by
  have hwritten := readsAs.childElement?_publish h.readsAs (h.parent? readsAs)
    (h.anchor_fresh readsAs) ((t.isPrivate_visibilityOf fix.decl).mp offers.isPrivate)
  rw [Forest.offerFix_of_written (Option.isSome_of_eq_some hwritten), Option.isSome_none]

/-- The declaration is shown as it was, with the mark of what is public. -/
theorem presentationOf_decl (kind : SymbolKind) (hkind : t.symbolKind? fix.decl = some kind)
    (visibility : Visibility) :
    (t'.presentationOf fix.decl kind fix.scope.visibility).value =
      { (t.presentationOf fix.decl kind visibility).value with mark? := some .pub } := by
  have hnotImpl : kind ≠ .impl := by
    rintro rfl
    exact (Forest.any_isVisibleDecl.mp offers.visible).2 hkind
  have hmirrors := h.mirrors readsAs
  have hmate := And.intro (rfl : fix.decl = fix.decl) offers.held
  rw [Tree.value_presentationOf, Tree.value_presentationOf, hmirrors.method? hmate]
  cases hmethod : t.method? fix.decl with
  | none => simp only [Option.map_none, if_neg hnotImpl, fix.scope.mark_visibility]
  | some m =>
    obtain rfl := Forest.method_eq hmethod
    simp only [Option.map_some, hmirrors.isStaticMethod hmate, h.visibilityOf_decl readsAs offers,
      fix.scope.mark_visibility]

/-- The entry of a declaration after the fix. -/
theorem relists {x : ElementId × List ElementId} (held : t.holds (.element x.1) = true) :
    fix.Relists t (t.entry origin? x) (t'.entry origin? x) := by
  have hmirrors := h.mirrors readsAs
  have hmate := And.intro (rfl : x.1 = x.1) held
  have hsymbol := hmirrors.symbolKind? hmate
  refine ⟨rfl, rfl, ?_, h.parameterTexts readsAs held, ?_, ?_⟩
  · intro apart
    exact congrArg (fun name? => name?.getD "") (h.symbolName? readsAs held apart)
  · rintro (heq : x.1 = fix.decl)
    obtain ⟨kind, hkind⟩ :=
      Option.isSome_iff_exists.mp (Forest.any_isVisibleDecl.mp offers.visible).1
    rw [t.presentation_entry, t'.presentation_entry, hsymbol, heq, hkind, Option.getD_some,
      h.visibilityOf_decl readsAs offers]
    refine ⟨?_, h.presentationOf_decl readsAs offers kind hkind _, ?_⟩
    · have hvisibility := h.visibilityOf_decl readsAs offers
      rw [← heq] at hvisibility
      exact hvisibility
    · have hfixable := h.fixable_decl readsAs offers
      rw [← heq] at hfixable
      exact hfixable
  · rintro (hne : x.1 ≠ fix.decl)
    have notVis : t.elementKind? fix.decl ≠ some .vis := by
      intro hvis
      have hvisible := offers.visible
      rw [hvis] at hvisible
      exact absurd hvisible (by decide)
    have hvisibility := congrArg Logged.value (h.visibilityOf_of_ne readsAs held hne notVis)
    refine ⟨hvisibility, ?_, hmirrors.isSome_offerFix hmate hvisibility none .pub origin?⟩
    rw [t.presentation_entry, t'.presentation_entry, hsymbol,
      hmirrors.presentationOf hmate hvisibility]

end Items

/-- Where the entry of a declaration is after the fix. -/
theorem moves (h : fix.Inserts t s w t') (readsAs : t.ReadsAs s) {earlier later : List NodeId}
    (hsplit : s.nodes = earlier ++ w.anchor :: later) {start : Position}
    (hstart : t.offsetOf? w.anchor = some start) {x : ElementId × List ElementId}
    (held : t.holds (.element x.1) = true) :
    OutlineEntry.Moves fix.scope.written start earlier t t' (t.entry origin? x)
      (t'.entry origin? x) := by
  obtain ⟨pos, hpos⟩ := Option.isSome_iff_exists.mp (readsAs.offsetOf?_isSome held)
  refine ⟨?_, ?_, ?_⟩
  · obtain ⟨y, hy, hid⟩ := h.readsAs.exists_placed (readsAs.parent_publish h.readsAs held).1
    obtain ⟨before, after, hbefore, htext⟩ := h.readsAs.exists_span hy
    rw [hid] at hbefore htext
    exact ⟨before, after, Tree.pos_entry hbefore, htext⟩
  · intro hearly
    have hsame := h.offsetOf?_early readsAs hsplit hearly
    rw [Tree.pos_entry hpos, Tree.pos_entry (hsame.trans hpos)]
  · intro hlate
    have hmem := readsAs.holds_iff.mp held
    rw [hsplit, List.mem_append] at hmem
    obtain ⟨before, between, after, hanchor, htext, htext', hold, hnew⟩ :=
      h.offsetOf?_late readsAs hsplit (hmem.resolve_left hlate)
    exact ⟨before, between, after, Option.some.inj (hstart.symm.trans hanchor), htext, htext',
      Tree.pos_entry hold, Tree.pos_entry hnew⟩

end Fix.Inserts

/-! ## The service -/

namespace Session

/-- Applying a fix that was just offered leaves an outline of the same declarations in the same
order. The item of the declaration tells the visibility that was asked for, the others tell what
they told, and the items behind the place of the edit move with the text. -/
theorem outline_after_fix {s : Session} (hs : s.Reached) {doc : Doc} {document : Document}
    (hopen : s.service.document? doc = some document) {name : String} {oneCrate : Bool} {fix : Fix}
    (offer : (s.service.makePublic doc name (.within oneCrate)).value = some fix)
    {version : Version} {edit : Edit} {service : Service}
    (application : (s.service.apply doc fix).outcome.value = .ok (some (version, edit), service)) :
    (s.service.outline doc).value = (s.service.entries doc).map (·.item) ∧
    (service.outline doc).value = (service.entries doc).map (·.item) ∧
    fix.scope = .within oneCrate ∧
    ∃ changed whole anchor earlier later, service.document? doc = some changed ∧
      document.tree.whole? = some whole ∧ whole.nodes = earlier ++ anchor :: later ∧
      document.tree.anchor? fix.decl = some anchor ∧
      document.tree.offsetOf? anchor = some edit.range.start ∧
      List.Forall₂ (fun old new => fix.Relists document.tree old new ∧
          old.Moves fix.scope.written edit.range.start earlier document.tree changed.tree new)
        (s.service.entries doc) (service.entries doc) := by
  obtain ⟨sub, hsub⟩ := hs.wellMade doc document hopen
  obtain ⟨found, hfound, -, offers, hscope⟩ := Service.makePublic_eq_some offer
  obtain rfl := Option.some.inj (hopen.symm.trans hfound)
  obtain ⟨tree, next, w, hinserts, rfl⟩ := Service.inserts_of_apply hopen hsub application
  obtain ⟨anchor, hanchor, hstart⟩ := Service.start_of_apply hopen hsub application
  obtain rfl := Option.some.inj (hinserts.anchor.symm.trans hanchor)
  have hchanged : (s.service.withDocument doc ⟨next, tree⟩).document? doc = some ⟨next, tree⟩ := by
    rw [Service.document?_withDocument, if_pos rfl]
  have hmem := hsub.holds_iff.mp (Forest.holds_of_parent? (hinserts.parent? hsub))
  obtain ⟨earlier, later, hsplit⟩ := List.append_of_mem hmem
  refine ⟨s.service.outline_eq doc, Service.outline_eq _ doc, hscope, ⟨next, tree⟩, sub, w.anchor,
    earlier, later, hchanged, hsub.whole?, hsplit, hanchor, hstart, ?_⟩
  -- both outlines list what the tree listed before
  have hbefore : s.service.entries doc =
      sub.listed.map (document.tree.entry (s.service.workspace.originOf? doc)) := by
    rw [Service.entries, hopen]
    exact hsub.outlineEntries_listed _
  have hafter : (s.service.withDocument doc ⟨next, tree⟩).entries doc =
      sub.listed.map (tree.entry (s.service.workspace.originOf? doc)) := by
    rw [Service.entries, hchanged, ← sub.listed_publish w]
    exact hinserts.readsAs.outlineEntries_listed _
  rw [hbefore, hafter, List.forall₂_map_left_iff, List.forall₂_map_right_iff, List.forall₂_same]
  intro x hx
  have held := hsub.holds_listed hx
  exact ⟨hinserts.relists hsub offers held, hinserts.moves hsub hsplit hstart held⟩

/-- A function inside a module is made public within its crate. -/
theorem outline_after_fix_sample : ∃ (s : Session) (document : Document) (fix : Fix) (edit : Edit)
    (service : Service), s.Reached ∧ s.service.document? ⟨1⟩ = some document ∧
    (s.service.makePublic ⟨1⟩ "m::f" (.within true)).value = some fix ∧
    (s.service.apply ⟨1⟩ fix).outcome.value = .ok (some (7, edit), service) ∧
    List.Forall₂ (fix.Relists document.tree) (s.service.entries ⟨1⟩) (service.entries ⟨1⟩) := by
  obtain ⟨s, document, hs, hopen, hversion, -, -, offer⟩ := nested_reached
  obtain ⟨sub, hsub⟩ := hs.wellMade _ _ hopen
  obtain ⟨found, hfound, -, offers, -⟩ := Service.makePublic_eq_some offer
  obtain rfl := Option.some.inj (hopen.symm.trans hfound)
  have hnext : nextVersion document.version = .ok 8 := by
    rw [hversion]
    decide
  obtain ⟨edit, tree, application, -⟩ := Service.apply_of_applicable hopen hsub
    (Service.applicable_of_offers hsub offers) offers.named hnext
  rw [hversion] at application
  have hoffer : (s.service.makePublic ⟨1⟩ "m::f" (.within true)).value = some _ := offer
  obtain ⟨-, -, -, _, _, _, _, _, -, -, -, -, -, hitems⟩ :=
    outline_after_fix hs hopen hoffer application
  exact ⟨s, document, _, edit, _, hs, hopen, offer, application, hitems.imp fun _ _ h => h.1⟩

end Session

end DeclVisibility
