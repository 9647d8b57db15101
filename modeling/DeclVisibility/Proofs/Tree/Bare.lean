import DeclVisibility.Proofs.Fix.Anchor
import DeclVisibility.Proofs.Tree.Drafts
import DeclVisibility.Proofs.Visibility

/-!
# Trees without their spaces and comments

A nested value is bare without the spaces and comments in its child lists (`Subtree.bare`); the
other nodes keep their numbers and their order. What is asked of a tree about the meaning of a
declaration can be read off the bare value: kinds, parents, children of a kind, texts without
trivia, what is written in a visibility (`Tree.ReadsAs.ofTokens_bare`), and the sibling that a walk
back over trivia leads to (`Tree.ReadsAs.prevMeaningful_bare`). The walk back over the modifiers of
a declaration ends at the foremost child that it can reach so (`Tree.ReadsAs.anchorOf_bare`).
-/

namespace DeclVisibility

namespace Subtree

/-- Whether the top is a space or a comment. -/
def isTrivia : Subtree → Bool
  | token leaf => leaf.kind.isTrivia
  | element _ _ _ => false

mutual
/-- The subtree without the spaces and comments below its top. -/
def bare : Subtree → Subtree
  | token leaf => token leaf
  | element id kind children => element id kind (bareAll children)
/-- Subtrees that stand side by side, without spaces and comments. -/
def bareAll : List Subtree → List Subtree
  | [] => []
  | child :: rest => if child.isTrivia then bareAll rest else child.bare :: bareAll rest
end

variable {s : Subtree} {p : Option ElementId}

theorem bareAll_eq : ∀ ss : List Subtree,
    bareAll ss = (ss.filter fun c => !c.isTrivia).map bare
  | [] => rfl
  | c :: rest => by
    rw [bareAll, bareAll_eq rest, List.filter_cons]
    cases c.isTrivia <;> rfl

@[simp] theorem bare_token (leaf : Leaf) : (token leaf).bare = token leaf := by
  rw [bare]

@[simp] theorem bare_element (id : ElementId) (kind : ElementKind) (children : List Subtree) :
    (element id kind children).bare = element id kind (bareAll children) := by
  rw [bare]

@[simp] theorem id_bare (s : Subtree) : s.bare.id = s.id := by
  cases s <;> simp

@[simp] theorem elementKind?_bare (s : Subtree) : s.bare.elementKind? = s.elementKind? := by
  cases s <;> simp [elementKind?]

/-- What spaces and comments add nothing to is the same without them. -/
theorem flatMap_bareAll {α : Type} {f g : Subtree → List α} {ss : List Subtree}
    (kept : ∀ c ∈ ss, c.isTrivia = false → f c.bare = g c)
    (dropped : ∀ c ∈ ss, c.isTrivia = true → g c = []) :
    (bareAll ss).flatMap f = ss.flatMap g := by
  induction ss with
  | nil => rfl
  | cons c rest ih =>
    have hrest := ih (fun d hd => kept d (List.mem_cons_of_mem c hd))
      fun d hd => dropped d (List.mem_cons_of_mem c hd)
    rw [bareAll, List.flatMap_cons, ← hrest]
    cases htrivia : c.isTrivia with
    | true =>
      rw [dropped c List.mem_cons_self htrivia]
      rfl
    | false =>
      rw [← kept c List.mem_cons_self htrivia]
      rfl

/-- No element is lost. -/
theorem elements_bare (s : Subtree) : s.bare.elements = s.elements := by
  induction s with
  | token leaf => rw [bare_token]
  | element id kind children ih =>
    rw [bare_element, elements_element, elements_element,
      flatMap_bareAll (g := elements) fun c hc _ => ih c hc]
    intro c _ htrivia
    cases c with
    | token leaf => rw [elements_token]
    | element _ _ _ => cases htrivia

theorem nodes_bare_sublist (s : Subtree) : s.bare.nodes.Sublist s.nodes := by
  induction s with
  | token leaf => rw [bare_token]
  | element id kind children ih =>
    rw [bare_element, nodes_element, nodes_element]
    apply List.Sublist.cons_cons
    induction children with
    | nil => exact List.Sublist.refl _
    | cons c rest ihr =>
      have hrest := ihr fun d hd => ih d (List.mem_cons_of_mem c hd)
      rw [bareAll]
      split
      · exact hrest.trans (List.sublist_append_right _ _)
      · exact (ih c List.mem_cons_self).append hrest

/-- The tokens of a subtree that carry meaning. -/
theorem leaves_bare (h : s.isTrivia = false) :
    s.bare.leaves = s.leaves.filter fun leaf => !leaf.kind.isTrivia := by
  induction s with
  | token leaf =>
    have hkind : leaf.kind.isTrivia = false := h
    simp [hkind]
  | element id kind children ih =>
    rw [bare_element, leaves_element, leaves_element, List.filter_flatMap,
      flatMap_bareAll fun c hc htrivia => ih c hc htrivia]
    intro c _ htrivia
    cases c with
    | token leaf =>
      have hkind : leaf.kind.isTrivia = true := htrivia
      simp [hkind]
    | element _ _ _ => cases htrivia

theorem nonTriviaText_eq (h : s.isTrivia = false) : s.nonTriviaText = s.bare.text := by
  rw [nonTriviaText, text, leaves_bare h]

/-- What is placed in the bare subtree is what is placed in the whole, made bare. -/
theorem exists_placed_of_bare {s : Subtree} : ∀ {p : Option ElementId}
    {x : Option ElementId × Subtree}, x ∈ s.bare.placed p →
    ∃ u, (x.1, u) ∈ s.placed p ∧ u.bare = x.2 := by
  induction s with
  | token leaf =>
    intro p x hx
    rw [bare_token, placed_token, List.mem_singleton] at hx
    subst hx
    exact ⟨token leaf, self_mem_placed p _, bare_token leaf⟩
  | element id kind children ih =>
    intro p x hx
    rw [bare_element, placed_element, List.mem_cons] at hx
    rcases hx with rfl | hx
    · exact ⟨_, self_mem_placed p _, bare_element id kind children⟩
    · rw [bareAll_eq] at hx
      obtain ⟨_, hbared, hx⟩ := List.mem_flatMap.mp hx
      obtain ⟨c, hc, rfl⟩ := List.mem_map.mp hbared
      have hmem := (List.mem_filter.mp hc).1
      obtain ⟨u, hu, hbare⟩ := ih c hmem hx
      exact ⟨u, placed_trans (child_placed (self_mem_placed p _) hmem) hu, hbare⟩

/-- An element of the bare subtree has the bare children that it has in the whole. -/
theorem exists_element_of_bare {q : Option ElementId} {id : ElementId} {kind : ElementKind}
    {children : List Subtree} (h : (q, element id kind children) ∈ s.bare.placed p) :
    ∃ all, (q, element id kind all) ∈ s.placed p ∧ bareAll all = children := by
  obtain ⟨u, hu, hbare⟩ := exists_placed_of_bare h
  cases u with
  | token leaf =>
    rw [bare_token] at hbare
    cases hbare
  | element id' kind' all =>
    rw [bare_element] at hbare
    obtain ⟨rfl, rfl, rfl⟩ := element.inj hbare
    exact ⟨all, hu, rfl⟩

/-- A child that carries meaning, with the bare children before it. -/
theorem exists_split_of_bareAll {all l r : List Subtree} {c : Subtree}
    (h : bareAll all = l ++ c :: r) :
    ∃ before d after, all = before ++ d :: after ∧ bareAll before = l ∧ d.bare = c := by
  rw [bareAll_eq] at h
  obtain ⟨kept, tail, hsplit, rfl, htail⟩ := List.map_eq_append_iff.mp h
  obtain ⟨d, rest, rfl, rfl, rfl⟩ := List.map_eq_cons_iff.mp htail
  obtain ⟨before, tail, rfl, rfl, htail⟩ := List.filter_eq_append_iff.mp hsplit
  -- what is skipped on the way to the child leaves nothing behind
  obtain ⟨skipped, after, rfl, hskipped, -, -⟩ := List.filter_eq_cons_iff.mp htail
  refine ⟨before ++ skipped, d, after, (List.append_assoc _ _ _).symm, ?_, rfl⟩
  rw [bareAll_eq, List.filter_append, List.filter_eq_nil_iff.mpr hskipped, List.append_nil]

theorem filter_bareAll (wanted : ElementKind) (all : List Subtree) :
    (bareAll all).filter (fun c => c.elementKind? = some wanted) =
      (all.filter fun c => c.elementKind? = some wanted).map bare := by
  rw [bareAll_eq, List.filter_map, List.filter_filter]
  congr 1
  apply List.filter_congr
  intro c _
  cases c <;> simp [elementKind?, isTrivia]

/-! ## The foremost modifier -/

/-- From a child back over the children before it, the nearest first, up to an attribute. -/
def foremost : List Subtree → Subtree → Subtree
  | [], child => child
  | earlier :: before, child =>
    if earlier.elementKind? = some .attr then child else foremost before earlier

/-- The token at the top as it is read, whatever it hangs in. -/
def word? : Subtree → Option Token
  | token leaf => some ⟨leaf.kind, leaf.text, none⟩
  | element _ _ _ => none

theorem filterMap_word?_bareAll (id : ElementId) (all : List Subtree) :
    (bareAll all).filterMap word? = ((all.filterMap (token? id)).filter fun token =>
      !token.kind.isTrivia).map Token.loose := by
  induction all with
  | nil => rfl
  | cons c rest ih =>
    rw [bareAll]
    cases c with
    | element cid kind below => simpa [isTrivia, word?, token?, List.filterMap_cons] using ih
    | token leaf =>
      cases hkind : leaf.kind.isTrivia <;> simp [isTrivia, word?, token?, Token.loose, hkind, ih]

end Subtree

/-! ## Walks along siblings -/

namespace Forest.MadeOf

variable {f : Forest} {s : Subtree} {q : Option ElementId} {id : ElementId} {kind : ElementKind}
  {children before after : List Subtree} {c : Subtree}

theorem isTrivia_placed (h : f.MadeOf [s]) {x : Option ElementId × Subtree}
    (hx : x ∈ s.placed none) : f.isTrivia x.2.id = x.2.isTrivia := by
  have hrow := h.row_placed List.mem_cons_self hx
  obtain ⟨p, u⟩ := x
  cases u with
  | token leaf =>
    have htoken := token?_of_row? (f := f) hrow
    simp only [Subtree.id_token, Forest.isTrivia, kind?, htoken, Option.map_some]
    rfl
  | element id kind children =>
    have hkind := h.elementKind?_placed List.mem_cons_self hx
    simp only [Subtree.id_element, Forest.isTrivia, kind?, hkind, Option.map_some]
    rfl

section Siblings
variable (h : f.MadeOf [s]) (hx : (q, .element id kind (before ++ c :: after)) ∈ s.placed none)
include h hx

theorem listed_placed :
    f.children id = before.map Subtree.id ++ c.id :: after.map Subtree.id := by
  rw [h.children_placed List.mem_cons_self hx, List.map_append, List.map_cons]

theorem siblingCount_placed : f.siblingCount c.id = (before ++ c :: after).length := by
  rw [h.linked.siblingCount (h.listed_placed hx)]
  simp

/-- The nearest child before another that is no trivia. -/
theorem prevMeaningful_placed : (f.prevMeaningful c.id).value =
    (before.filter fun d => !d.isTrivia).getLast?.map Subtree.id := by
  have hmeant : before.filter ((fun node => !f.isTrivia node) ∘ Subtree.id) =
      before.filter fun d => !d.isTrivia := by
    apply List.filter_congr
    intro d hd
    have hplace := Subtree.child_placed hx (List.mem_append_left _ hd)
    rw [Function.comp_apply, h.isTrivia_placed hplace]
  rw [h.linked.prevMeaningful (h.listed_placed hx), Logged.value_pure, List.filter_map, hmeant,
    List.getLast?_map]

end Siblings

end Forest.MadeOf

/-! ## Reading off the bare value -/

namespace Tree.ReadsAs

variable {t : Tree} {s : Subtree} {q : Option ElementId} {id : ElementId} {kind : ElementKind}
  {children : List Subtree}

theorem nodup_bare (h : t.ReadsAs s) : s.bare.nodes.Nodup := h.nodup.sublist s.nodes_bare_sublist

theorem parent?_bare (h : t.ReadsAs s) {x : Option ElementId × Subtree}
    (hx : x ∈ s.bare.placed none) : t.parent? x.2.id = x.1 := by
  obtain ⟨u, hu, hbare⟩ := Subtree.exists_placed_of_bare hx
  rw [← hbare, Subtree.id_bare]
  exact (h.carries.of_placed hu).parent?

section Element
variable (h : t.ReadsAs s) (hx : (q, .element id kind children) ∈ s.bare.placed none)
include h hx

theorem elementKind?_bare : t.elementKind? id = some kind := by
  obtain ⟨all, hall, -⟩ := Subtree.exists_element_of_bare hx
  exact h.madeOf.elementKind?_placed List.mem_cons_self hall

theorem childElements_bare (wanted : ElementKind) : t.childElements id wanted =
    (children.filter fun c => c.elementKind? = some wanted).filterMap fun c => c.id.element? := by
  obtain ⟨all, hall, rfl⟩ := Subtree.exists_element_of_bare hx
  rw [h.madeOf.childElements_placed List.mem_cons_self hall, Subtree.filter_bareAll,
    List.filterMap_map]
  simp only [Function.comp_def, Subtree.id_bare]

theorem nonTriviaText_bare : t.nonTriviaText id = (Subtree.element id kind children).text := by
  obtain ⟨all, hall, rfl⟩ := Subtree.exists_element_of_bare hx
  have hsub := h.madeOf.subtree? List.mem_cons_self hall
  rw [Subtree.id_element] at hsub
  rw [Forest.nonTriviaText, hsub, ← Subtree.bare_element]
  exact Subtree.nonTriviaText_eq rfl

/-- A visibility is read off the tokens in it that carry meaning. -/
theorem ofTokens_bare : (Visibility.ofTokens (t.tokenChildren id)).value =
    (Visibility.ofTokens (children.filterMap Subtree.word?)).value := by
  obtain ⟨all, hall, rfl⟩ := Subtree.exists_element_of_bare hx
  rw [Visibility.ofTokens_eq, h.madeOf.tokenChildren_eq List.mem_cons_self hall,
    Subtree.filterMap_word?_bareAll id]

end Element

/-- The sibling that carries meaning next before another is the one next before it in the bare
value. -/
theorem prevMeaningful_bare (h : t.ReadsAs s) {before after : List Subtree} {c : Subtree}
    (hx : (q, .element id kind (before ++ c :: after)) ∈ s.bare.placed none) :
    (t.prevMeaningful c.id).value = before.getLast?.map Subtree.id := by
  obtain ⟨all, hall, hbare⟩ := Subtree.exists_element_of_bare hx
  obtain ⟨first, d, rest, rfl, rfl, rfl⟩ := Subtree.exists_split_of_bareAll hbare
  rw [Subtree.id_bare, h.madeOf.prevMeaningful_placed hall, Subtree.bareAll_eq, List.getLast?_map,
    Option.map_map]
  simp only [Function.comp_def, Subtree.id_bare]

theorem kind?_eq_attr_bare (h : t.ReadsAs s) {x : Option ElementId × Subtree}
    (hx : x ∈ s.bare.placed none) :
    t.kind? x.2.id = some (.element .attr) ↔ x.2.elementKind? = some .attr := by
  obtain ⟨p, u⟩ := x
  cases u with
  | token leaf =>
    rw [Subtree.id_token, Forest.kind?, Option.map_eq_some_iff]
    simp [Subtree.elementKind?]
  | element id kind children =>
    rw [Subtree.id_element, Forest.kind?, h.elementKind?_bare hx]
    simp [Subtree.elementKind?]

/-- The walk back over modifiers ends at the foremost one. `fuel` is enough for all the children
before. -/
theorem backOverModifiers_bare (h : t.ReadsAs s) : ∀ (before : List Subtree) {after : List Subtree}
    {c : Subtree} {fuel : Nat},
    (q, .element id kind (before.reverse ++ c :: after)) ∈ s.bare.placed none →
    before.length ≤ fuel →
    (t.backOverModifiers fuel c.id).value = (Subtree.foremost before c).id
  | [], after, c, fuel, hx, _ => by
    cases fuel with
    | zero => rfl
    | succ fuel =>
      rw [Forest.backOverModifiers, Logged.value_bind, h.prevMeaningful_bare hx]
      rfl
  | d :: before, after, c, fuel, hx, room => by
    rw [List.length_cons] at room
    obtain ⟨fuel, rfl⟩ : ∃ n, fuel = n + 1 := ⟨fuel - 1, by omega⟩
    -- the nearest child before is the last one in text order
    rw [Forest.backOverModifiers, Logged.value_bind, h.prevMeaningful_bare hx, List.reverse_cons,
      List.getLast?_append, List.getLast?_singleton]
    rw [List.reverse_cons, List.append_assoc, List.singleton_append] at hx
    have hattr := h.kind?_eq_attr_bare
      (Subtree.child_placed hx (List.mem_append_right _ List.mem_cons_self))
    have hback := h.backOverModifiers_bare before hx (Nat.le_of_succ_le_succ room)
    simp only [Option.some_or, Option.map_some, hattr, Subtree.foremost]
    split
    · rfl
    · exact hback

/-- The node to insert a visibility before is the foremost child before the name that can be reached
from it without meeting an attribute. -/
theorem anchorOf_bare (h : t.ReadsAs s) {before after : List Subtree} {c : Subtree}
    (hx : (q, .element id kind (before.reverse ++ c :: after)) ∈ s.bare.placed none) :
    (t.anchorOf c.id).outcome.value = .ok (Subtree.foremost before c).id := by
  have hparent : t.parent? c.id = some id :=
    h.parent?_bare (Subtree.child_placed hx (List.mem_append_right _ List.mem_cons_self))
  have hroom : before.length ≤ t.siblingCount c.id := by
    obtain ⟨all, hall, hbare⟩ := Subtree.exists_element_of_bare hx
    obtain ⟨first, d, rest, rfl, hfirst, rfl⟩ := Subtree.exists_split_of_bareAll hbare
    have hshort := congrArg List.length hfirst
    rw [Subtree.bareAll_eq, List.length_map, List.length_reverse] at hshort
    have hle := List.length_filter_le (fun c : Subtree => !c.isTrivia) first
    rw [Subtree.id_bare, h.madeOf.siblingCount_placed hall, List.length_append]
    omega
  rw [Forest.anchorOf, hparent]
  simp only [Attempt.value_ofLogged]
  rw [h.backOverModifiers_bare before hx hroom]

end Tree.ReadsAs

end DeclVisibility
