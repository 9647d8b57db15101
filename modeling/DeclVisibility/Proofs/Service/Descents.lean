import DeclVisibility.Proofs.Service.Runs
import DeclVisibility.Proofs.Tree.Order

/-!
# The elements below an element, as the loop lists them

In a forest that is made of nested values the loop over a stack comes to an end for every element,
and what it has put out then is the recursive preorder listing (`Forest.MadeOf.traversed`). Nothing
is listed twice, because no node stands twice in nested values, and what is listed is what the links
lead down to, or up from. The list from the root is part of the list of all nodes, along which the
text before a node only grows (`Tree.pairwise_index`), so of the elements that a search looks for it
finds one that starts first (`Tree.ReadsAs.startsNoLater_of_find?`). `Session.descendants_in_preorder`
says all this of the open documents.
-/

namespace DeclVisibility

namespace Forest

variable {f : Forest} {tops : List Subtree} {a b id : ElementId}

/-- Whether the element hangs in the other one. -/
def HangsIn (f : Forest) (a b : ElementId) : Prop := f.parent? (.element a) = some b

/-- Where links agree, an element climbs to those that lead down to it. -/
theorem Linked.climbs_iff (h : f.Linked) : Relation.ReflTransGen f.HangsIn a b ↔
    Relation.ReflTransGen f.Lists (.element b) (.element a) := by
  constructor
  · intro hclimb
    induction hclimb using Relation.ReflTransGen.head_induction_on with
    | refl => exact .refl
    | head hhangs _ ih => exact ih.tail ⟨_, rfl, h.mem_children_iff.mpr hhangs⟩
  · intro hdown
    have hall : ∀ {node : NodeId}, Relation.ReflTransGen f.Lists (.element b) node →
        ∀ c, node = .element c → Relation.ReflTransGen f.HangsIn c b := by
      intro node hdown
      induction hdown with
      | refl =>
        rintro c ⟨⟩
        exact .refl
      | tail _ hlists ih =>
        rintro c rfl
        obtain ⟨parent, rfl, hmem⟩ := hlists
        exact .head (h.mem_children_iff.mp hmem) (ih parent rfl)
    exact hall hdown a rfl

/-- All that the list of an element and those below it is. -/
structure Traversed (f : Forest) (id : ElementId) : Prop where
  /-- However often the loop was repeated, it goes on until the stack is empty and the list is put
  out. -/
  turns_end : ∀ visit, Relation.ReflTransGen f.Turns ⟨[], [id]⟩ visit →
    Relation.ReflTransGen f.Turns visit ⟨f.descendants id, []⟩
  turns_acc : Acc (fun next visit => f.Turns visit next) ⟨[], [id]⟩
  preorder : ∀ listing, f.Preorder [id] listing ↔ listing = f.descendants id
  nodup : (f.descendants id).Nodup
  mem_iff_below : ∀ a, a ∈ f.descendants id ↔
    Relation.ReflTransGen f.Lists (.element id) (.element a)
  mem_iff_climbs : ∀ a, a ∈ f.descendants id ↔ Relation.ReflTransGen f.HangsIn a id

theorem MadeOf.traversed (made : f.MadeOf tops) (held : f.holds (.element id) = true) :
    f.Traversed id := by
  obtain ⟨s, hs, ⟨p, u⟩, hu, hid⟩ := made.exists_placed held
  have hlisting := made.preorder_placed hs hu hid
  have hlist : f.descendants id = u.elements := made.descendants_placed hs hu hid
  have hbelow : ∀ a, a ∈ f.descendants id ↔
      Relation.ReflTransGen f.Lists (.element id) (.element a) := by
    intro a
    rw [hlist, ← hid, ((made.carries s hs).of_placed hu).reaches_iff, Subtree.mem_elements_iff]
  have hnodup := (made.nodup_of_mem hs).sublist (Subtree.nodes_sublist hu)
  rw [← hlist] at hlisting
  exact
    { turns_end := fun _ hturns => hlisting.turns_end hturns
      turns_acc := hlisting.turns_acc
      preorder := fun listing => ⟨fun h => h.unique hlisting, fun h => h ▸ hlisting⟩
      nodup := hlist ▸ (hnodup.sublist u.elements_sublist).of_map
      mem_iff_below := hbelow
      mem_iff_climbs := fun a => by rw [hbelow a, made.linked.climbs_iff] }

end Forest

namespace Tree

/-- Whether the one element starts no later in the text than the other. -/
def StartsNoLater (t : Tree) (a b : ElementId) : Prop :=
  ∃ p q, t.offsetOf? (.element a) = some p ∧ t.offsetOf? (.element b) = some q ∧ p.index ≤ q.index

variable {t : Tree} {s : Subtree}

theorem ReadsAs.startsNoLater (h : t.ReadsAs s) {a b : ElementId} (ha : a ∈ s.elements)
    (hb : b ∈ s.elements) (hle : (Position.ofString (t.textBefore (.element a))).index ≤
      (Position.ofString (t.textBefore (.element b))).index) : t.StartsNoLater a b :=
  ⟨_, _, (h.shows.offsetOf?_of_mem (Subtree.mem_elements_iff.mp ha)).1,
    (h.shows.offsetOf?_of_mem (Subtree.mem_elements_iff.mp hb)).1, hle⟩

/-- Along the list from the root, what comes later starts no earlier. -/
theorem ReadsAs.pairwise_startsNoLater (h : t.ReadsAs s) :
    (t.descendants t.root).Pairwise t.StartsNoLater := by
  have hgrows := t.pairwise_index h.shows.nodup_order
  rw [h.shows.order_eq] at hgrows
  have helements := hgrows.sublist s.elements_sublist
  rw [List.pairwise_map] at helements
  rw [h.descendants_root]
  exact helements.imp_of_mem fun ha hb hle => h.startsNoLater ha hb hle

/-- What a search in the list from the root finds starts no later than all else that it looks
for. -/
theorem ReadsAs.startsNoLater_of_find? (h : t.ReadsAs s) {test : ElementId → Bool}
    {first a : ElementId} (hfind : (t.descendants t.root).find? test = some first)
    (ha : a ∈ t.descendants t.root) (hmatch : test a = true) : t.StartsNoLater first a := by
  have hordered := h.pairwise_startsNoLater
  have hfirst := List.mem_of_find?_eq_some hfind
  obtain ⟨-, before, after, hsplit, hbefore⟩ := List.find?_eq_some_iff_append.mp hfind
  rw [hsplit] at ha hordered
  rcases List.mem_append.mp ha with ha | ha
  · -- what comes before was passed over
    have hpassed := hbefore a ha
    rw [hmatch] at hpassed
    cases hpassed
  · rcases List.mem_cons.mp ha with rfl | ha
    · rw [h.descendants_root] at hfirst
      exact h.startsNoLater hfirst hfirst (Nat.le_refl _)
    · have hrest := (List.pairwise_append.mp hordered).2.1
      exact (List.pairwise_cons.mp hrest).1 a ha

end Tree

namespace Session

variable {s : Session}

/-- In the tree of an open document the list of each element and those below it is the preorder
listing, on which the loop ends. Along that of the root, starts never decrease, and the first match
of a search is one that starts first. -/
theorem descendants_in_preorder (hs : s.Reached) {doc : Doc} {document : Document}
    (hopen : s.service.document? doc = some document) :
    (∀ id, document.tree.holds (.element id) = true → document.tree.Traversed id) ∧
      (document.tree.descendants document.tree.root).Pairwise document.tree.StartsNoLater ∧
      ∀ test first, (document.tree.descendants document.tree.root).find? test = some first →
        ∀ a ∈ document.tree.descendants document.tree.root, test a = true →
          document.tree.StartsNoLater first a := by
  obtain ⟨sub, readsAs⟩ := hs.wellMade doc document hopen
  exact ⟨fun _ held => readsAs.madeOf.traversed held, readsAs.pairwise_startsNoLater,
    fun _ _ hfind _ ha hmatch => readsAs.startsNoLater_of_find? hfind ha hmatch⟩

/-- In the nested run the root comes first, then the module with its name, and the function that
is in the module with its own. -/
theorem descendants_in_preorder_sample : ∃ (s : Session) (document : Document), s.Reached ∧
    s.service.document? ⟨1⟩ = some document ∧
    document.tree.descendants document.tree.root = [⟨4⟩, ⟨3⟩, ⟨0⟩, ⟨2⟩, ⟨1⟩] ∧
    document.tree.Traversed ⟨3⟩ ∧ document.tree.StartsNoLater ⟨3⟩ ⟨2⟩ := by
  have heval : ((run nested .new).outcome.value.toOption.map fun reached =>
      (reached.2.service.document? ⟨1⟩).any fun document =>
        document.tree.holds (.element ⟨3⟩) = true ∧
        document.tree.descendants document.tree.root = [⟨4⟩, ⟨3⟩, ⟨0⟩, ⟨2⟩, ⟨1⟩]) = some true := by
    decide +kernel
  obtain ⟨_, s, -, hs, hseen⟩ := exists_of_seen heval
  obtain ⟨document, hopen, hdocument⟩ := (Option.any_eq_true _ _).mp hseen
  obtain ⟨held, hlist⟩ := of_decide_eq_true hdocument
  obtain ⟨htraversed, hstarts, -⟩ := descendants_in_preorder hs hopen
  refine ⟨s, document, hs, hopen, hlist, htraversed ⟨3⟩ held, ?_⟩
  rw [hlist] at hstarts
  exact List.pairwise_iff_forall_sublist.mp hstarts (by decide)

end Session

end DeclVisibility
