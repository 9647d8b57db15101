import DeclVisibility.Proofs.Tree.Soundness
import DeclVisibility.Proofs.Tree.Walk

/-!
# The events that build a tree

A builder takes in exactly the events of one element, with every token and every other element
inside it (`Event.IsElement`), and the walk over the tree that comes of them meets the same events
again (`Tree.ofEvents_replays`).

One way, what belongs inside an element adds children to the innermost open one
(`Builder.run_inside`), and each token and each finished element takes the next number. The other
way, the events that lead from open elements to a finished root close these elements one after the
other (`Event.Closes`, `Builder.closes_of_run`): an event that would do anything else is a fault,
and so is asking for the tree too early.
-/

namespace DeclVisibility

/-! ## Words -/

namespace Event

/-- What an element can have inside: tokens and whole elements, side by side. -/
inductive Inside : List Event → Prop
  | nil : Inside []
  | token (kind : TokenKind) (text : String) {rest : List Event} (others : Inside rest) :
      Inside (.token kind text :: rest)
  | element (kind : ElementKind) {inner rest : List Event} (below : Inside inner)
      (others : Inside rest) : Inside (.start kind :: (inner ++ .finish :: rest))

/-- The events of one element: its start, what is inside it, and its finish. -/
def IsElement (events : List Event) : Prop :=
  ∃ kind inner, Inside inner ∧ events = .start kind :: (inner ++ [.finish])

/-- The events finish this many open elements, the innermost first, and nothing comes after. -/
inductive Closes : Nat → List Event → Prop
  | nil : Closes 0 []
  | finish {count : Nat} {inner rest : List Event} (below : Inside inner)
      (others : Closes count rest) : Closes (count + 1) (inner ++ .finish :: rest)

variable {count : Nat} {events : List Event}

theorem Closes.token (h : Closes (count + 1) events) (kind : TokenKind) (text : String) :
    Closes (count + 1) (.token kind text :: events) := by
  cases h with
  | finish below others => exact .finish (.token kind text below) others

/-- With an element started before them, the events finish one element less. -/
theorem Closes.start (h : Closes (count + 2) events) (kind : ElementKind) :
    Closes (count + 1) (.start kind :: events) := by
  cases h with
  | @finish _ inner _ below others =>
    cases others with
    | @finish _ inner' rest below' others' =>
      have hinside := Inside.element kind below below'
      have hclosed := Closes.finish hinside others'
      rwa [List.cons_append, List.append_assoc, List.cons_append] at hclosed

/-- The text of a token that is met. -/
def text? : Event → Option String
  | .token _ text => some text
  | _ => none

end Event

/-! ## The walk over a subtree -/

namespace Subtree

mutual
/-- The walk over the subtree: an element starts, its children are walked over in their order, and
it finishes. Every event comes with the node that it is about. -/
def tour : Subtree → List (Event × NodeId)
  | token leaf => [(.token leaf.kind leaf.text, .token leaf.id)]
  | element id kind children =>
    (.start kind, .element id) :: (tourAll children ++ [(.finish, .element id)])
/-- The walk over subtrees that stand side by side. -/
def tourAll : List Subtree → List (Event × NodeId)
  | [] => []
  | child :: rest => child.tour ++ tourAll rest
end

/-- The tokens that a walk meets, in order. -/
def tokensMet (walk : List (Event × NodeId)) : List TokenId := walk.filterMap (·.2.token?)

/-- The elements that finish in a walk, in order. -/
def finished (walk : List (Event × NodeId)) : List ElementId :=
  (walk.filter (·.1 = .finish)).filterMap (·.2.element?)

theorem tourAll_eq : ∀ ss : List Subtree, tourAll ss = ss.flatMap tour
  | [] => rfl
  | s :: rest => by rw [tourAll, tourAll_eq rest, List.flatMap_cons]

section Equations
variable (leaf : Leaf) (id : ElementId) (kind : ElementKind) (children : List Subtree)
variable (walk walk' : List (Event × NodeId))

@[simp] theorem tour_token :
    (token leaf).tour = [(.token leaf.kind leaf.text, .token leaf.id)] := by
  rw [tour]

@[simp] theorem tour_element : (element id kind children).tour =
    (.start kind, .element id) :: (children.flatMap tour ++ [(.finish, .element id)]) := by
  rw [tour, tourAll_eq]

theorem tokensMet_append : tokensMet (walk ++ walk') = tokensMet walk ++ tokensMet walk' :=
  List.filterMap_append

theorem finished_append : finished (walk ++ walk') = finished walk ++ finished walk' := by
  rw [finished, List.filter_append, List.filterMap_append, finished, finished]

theorem tokensMet_token : tokensMet (token leaf).tour = [leaf.id] := by
  rw [tour_token]
  rfl

theorem tokensMet_element :
    tokensMet (element id kind children).tour = tokensMet (children.flatMap tour) := by
  rw [tour_element, ← List.singleton_append, tokensMet_append, tokensMet_append]
  exact List.append_nil _

theorem finished_token : finished (token leaf).tour = [] := by
  rw [tour_token]
  rfl

theorem finished_element :
    finished (element id kind children).tour = finished (children.flatMap tour) ++ [id] := by
  rw [tour_element, ← List.singleton_append, finished_append, finished_append]
  rfl

end Equations

/-- The text is that of the tokens that are met. -/
theorem texts_tour (s : Subtree) :
    (s.tour.map Prod.fst).filterMap Event.text? = s.leaves.map (·.text) := by
  induction s with
  | token leaf =>
    rw [tour_token, leaves_token]
    rfl
  | element id kind children ih =>
    have hall : ((children.flatMap tour).map Prod.fst).filterMap Event.text? =
        (children.flatMap leaves).map (·.text) := by
      rw [List.map_flatMap, List.filterMap_flatMap, List.map_flatMap]
      exact List.flatMap_congr ih
    rw [tour_element, leaves_element, List.map_cons, List.map_append, List.filterMap_cons,
      List.filterMap_append, hall]
    exact List.append_nil _

/-- What finishes in a walk over a part finishes in the walk over the whole, in the same order. -/
theorem finished_sublist {s : Subtree} : ∀ {p : Option ElementId} {x : Option ElementId × Subtree},
    x ∈ s.placed p → (finished x.2.tour).Sublist (finished s.tour) := by
  induction s with
  | token leaf =>
    intro p x hx
    rw [placed_token, List.mem_singleton] at hx
    rw [hx]
  | element id kind children ih =>
    intro p x hx
    rw [placed_element, List.mem_cons] at hx
    rcases hx with rfl | hx
    · exact List.Sublist.refl _
    · obtain ⟨c, hc, hxc⟩ := List.mem_flatMap.mp hx
      have hchild := ih c hc hxc
      obtain ⟨l, r, rfl⟩ := List.append_of_mem hc
      rw [finished_element, List.flatMap_append, List.flatMap_cons, finished_append,
        finished_append, List.append_assoc, List.append_assoc]
      exact (hchild.trans (List.sublist_append_left _ _)).trans (List.sublist_append_right _ _)

end Subtree

/-! ## Words that are taken in -/

namespace Forest

theorem size_setParent (f : Forest) (node : NodeId) (parent : ElementId) :
    (f.setParent node parent).tokens.size = f.tokens.size ∧
      (f.setParent node parent).elements.size = f.elements.size := by
  cases node <;> simp [setParent]

theorem size_foldl_setParent (parent : ElementId) : ∀ (nodes : List NodeId) (f : Forest),
    (nodes.foldl (fun g child => g.setParent child parent) f).tokens.size = f.tokens.size ∧
      (nodes.foldl (fun g child => g.setParent child parent) f).elements.size = f.elements.size
  | [], f => ⟨rfl, rfl⟩
  | node :: rest, f => by
    obtain ⟨htokens, helements⟩ := size_foldl_setParent parent rest (f.setParent node parent)
    obtain ⟨htokens', helements'⟩ := f.size_setParent node parent
    exact ⟨htokens.trans htokens', helements.trans helements'⟩

end Forest

namespace Builder

/-- From one builder to the next, the tokens that a walk meets and the elements that finish in it
took the numbers that follow those given out before, in order. -/
structure Numbers (b next : Builder) (walk : List (Event × NodeId)) : Prop where
  tokens : (List.range next.forest.tokens.size).map TokenId.mk =
    (List.range b.forest.tokens.size).map TokenId.mk ++ Subtree.tokensMet walk
  elements : (List.range next.forest.elements.size).map ElementId.mk =
    (List.range b.forest.elements.size).map ElementId.mk ++ Subtree.finished walk

variable {b mid next : Builder} {outside : ElementKind} {kids : List NodeId}
  {outer : List (ElementKind × List NodeId)} {tops : List Subtree}

theorem numbers_nil (b : Builder) : b.Numbers b [] :=
  ⟨(List.append_nil _).symm, (List.append_nil _).symm⟩

theorem Numbers.append {first second : List (Event × NodeId)} (h : b.Numbers mid first)
    (h' : mid.Numbers next second) : b.Numbers next (first ++ second) where
  tokens := by rw [h'.tokens, h.tokens, Subtree.tokensMet_append, List.append_assoc]
  elements := by rw [h'.elements, h.elements, Subtree.finished_append, List.append_assoc]

theorem numbers_token {kind : TokenKind} {text : String} {id : TokenId}
    (h : b.forest.addToken kind text = (id, next.forest)) :
    b.Numbers next (Subtree.token ⟨id, kind, text⟩).tour := by
  obtain ⟨hid, hforest⟩ := Prod.mk.inj h
  have htokens : next.forest.tokens.size = b.forest.tokens.size + 1 := by
    rw [← hforest]
    exact Table.size_push _ _
  have helements : next.forest.elements = b.forest.elements := by rw [← hforest]
  rw [← hid]
  constructor
  · rw [htokens, Subtree.tokensMet_token, List.range_succ, List.map_append]
    rfl
  · rw [helements, Subtree.finished_token, List.append_nil]

theorem size_close (f : Forest) (kind : ElementKind) (children : List NodeId) :
    (close f kind children).2.tokens.size = f.tokens.size ∧
      (close f kind children).2.elements.size = f.elements.size + 1 := by
  obtain ⟨htokens, helements⟩ := Forest.size_foldl_setParent (f.addBareElement kind).1 children
    (f.addBareElement kind).2
  refine ⟨htokens, ?_⟩
  have hset : (close f kind children).2.elements.size =
      (children.foldl (fun g child => g.setParent child (f.addBareElement kind).1)
        (f.addBareElement kind).2).elements.size := Table.size_modify _ _ _
  rw [hset, helements, Forest.addBareElement, Table.size_push]

/-- An element takes the number that follows those of the elements below it. -/
theorem Numbers.close {kind : ElementKind} {subs : List Subtree} {id : ElementId} {f : Forest}
    (h : b.Numbers mid (subs.flatMap Subtree.tour))
    (hclose : Builder.close mid.forest kind (subs.map Subtree.id) = (id, f)) :
    (List.range f.tokens.size).map TokenId.mk = (List.range b.forest.tokens.size).map TokenId.mk ++
        Subtree.tokensMet (Subtree.element id kind subs).tour ∧
      (List.range f.elements.size).map ElementId.mk =
        (List.range b.forest.elements.size).map ElementId.mk ++
          Subtree.finished (Subtree.element id kind subs).tour := by
  have hid : ElementId.mk mid.forest.elements.size = id := congrArg Prod.fst hclose
  obtain ⟨htokens, helements⟩ := size_close mid.forest kind (subs.map Subtree.id)
  rw [hclose] at htokens helements
  constructor
  · rw [htokens, Subtree.tokensMet_element, h.tokens]
  · rw [helements, Subtree.finished_element, List.range_succ, List.map_append, h.elements,
      List.append_assoc, ← hid]
    rfl

/-- What belongs inside an element adds children to the innermost open one, and the walk over these
meets the events again. -/
theorem run_inside {events : List Event} (h : Event.Inside events) :
    ∀ {b : Builder} {outside : ElementKind} {kids : List NodeId}
      {outer : List (ElementKind × List NodeId)} {tops : List Subtree},
      b.At outside kids outer tops → ∀ rest, ∃ next subs, run (events ++ rest) b = run rest next ∧
        next.At outside (kids ++ subs.map Subtree.id) outer (subs ++ tops) ∧
        (subs.flatMap Subtree.tour).map Prod.fst = events ∧
        b.Numbers next (subs.flatMap Subtree.tour) := by
  induction h with
  | nil =>
    intro b outside kids outer tops hb rest
    exact ⟨b, [], rfl, by simpa using hb, rfl, b.numbers_nil⟩
  | @token kind text others _ ih =>
    intro b outside kids outer tops hb rest
    obtain ⟨mid, id, hstep, hadd, hmid⟩ := hb.token kind text
    obtain ⟨next, subs, hrun, hnext, htour, hnumbers⟩ := ih hmid rest
    refine ⟨next, .token ⟨id, kind, text⟩ :: subs, ?_, ⟨hnext.unfinished, ?_, ?_⟩, ?_, ?_⟩
    · rw [List.cons_append, run_cons_of_ok hstep, hrun]
    · rw [hnext.opened, List.append_assoc]
      rfl
    · exact hnext.madeOf.perm List.perm_middle
    · rw [List.flatMap_cons, List.map_append, htour, Subtree.tour_token]
      rfl
    · rw [List.flatMap_cons]
      exact (numbers_token hadd).append hnumbers
  | @element kind inner others _ _ ihinner ihothers =>
    intro b outside kids outer tops hb rest
    obtain ⟨started, hstart, hsame, hstarted⟩ := hb.start kind
    obtain ⟨filled, subs, hrun, hfilled, htour, hnumbers⟩ :=
      ihinner hstarted (.finish :: (others ++ rest))
    obtain ⟨mid, id, hfinish, hclose, hmid⟩ := hfilled.finish
    obtain ⟨next, more, hrun', hnext, htour', hnumbers'⟩ := ihothers hmid rest
    have hclosed := hnumbers.close hclose
    rw [hsame] at hclosed
    refine ⟨next, .element id kind subs :: more, ?_, ⟨hnext.unfinished, ?_, ?_⟩, ?_, ?_⟩
    · rw [List.cons_append, List.append_assoc, List.cons_append, run_cons_of_ok hstart, hrun,
        run_cons_of_ok hfinish, hrun']
    · rw [hnext.opened, List.append_assoc]
      rfl
    · exact hnext.madeOf.perm List.perm_middle
    · rw [List.flatMap_cons, List.map_append, htour', Subtree.tour_element]
      simp [htour]
    · rw [List.flatMap_cons]
      exact Numbers.append ⟨hclosed.1, hclosed.2⟩ hnumbers'

/-! ## No others -/

theorem run_cons_eq_ok {event : Event} {rest : List Event} {built : Builder}
    (h : run (event :: rest) b = .ok built) :
    ∃ next, b.step event = .ok next ∧ run rest next = .ok built := by
  rw [run] at h
  split at h
  · cases h
  · rename_i next hstep
    exact ⟨next, hstep, h⟩

/-- Nothing comes after the finish of the root. -/
theorem eq_nil_of_finished {events : List Event} {built : Builder} {root : ElementId}
    (whole : b.root = some root) (opened : b.opened = []) (h : run events b = .ok built) :
    events = [] := by
  cases events with
  | nil => rfl
  | cons event rest =>
    obtain ⟨next, hstep, -⟩ := run_cons_eq_ok h
    cases event with
    | start kind =>
      rw [step, start, whole] at hstep
      cases hstep
    | token kind text =>
      rw [step, token, opened] at hstep
      cases hstep
    | finish =>
      rw [step, finish, opened] at hstep
      cases hstep

/-- Events that lead from open elements to a tree finish all of them. -/
theorem closes_of_run {events : List Event} {built : Builder} {t : Tree}
    {frame : ElementKind × List NodeId} (hrun : run events b = .ok built)
    (hbuild : built.build = .ok t) (unfinished : b.root = none)
    (opened : b.opened = frame :: outer) : Event.Closes (outer.length + 1) events := by
  induction events generalizing b frame outer with
  | nil =>
    obtain rfl := Except.ok.inj hrun
    rw [build, opened] at hbuild
    cases hbuild
  | cons event rest ih =>
    obtain ⟨next, hstep, hrest⟩ := run_cons_eq_ok hrun
    cases event with
    | start kind =>
      rw [step, start, unfinished] at hstep
      obtain rfl := Except.ok.inj hstep
      have hopened : (kind, []) :: b.opened = (kind, []) :: frame :: outer := by rw [opened]
      exact (ih hrest rfl hopened).start kind
    | token kind text =>
      rw [step, token, opened] at hstep
      obtain rfl := Except.ok.inj hstep
      exact (ih hrest unfinished rfl).token kind text
    | finish =>
      rw [step, finish, opened] at hstep
      cases outer with
      | nil =>
        -- the outermost element finishes, so the rest is empty
        obtain rfl := Except.ok.inj hstep
        obtain rfl := eq_nil_of_finished rfl rfl hrest
        exact .finish .nil .nil
      | cons parent further =>
        obtain rfl := Except.ok.inj hstep
        exact .finish .nil (ih hrest unfinished rfl)

end Builder

/-! ## The tree -/

/-- The walk over the whole tree meets these events. Tokens are numbered as they are met, elements
as they finish, so that an element has a larger number than all elements below it and the root has
the largest. Every child names the element that lists it, and the text is that of the tokens. -/
structure Tree.Replays (t : Tree) (events : List Event) : Prop where
  walk : ∃ s, t.whole? = some s ∧ s.tour.map Prod.fst = events ∧
    Subtree.tokensMet s.tour = (List.range t.tokens.size).map TokenId.mk ∧
    Subtree.finished s.tour = (List.range t.elements.size).map ElementId.mk
  below : ∀ id id', Relation.TransGen t.Lists (.element id) (.element id') → id'.num < id.num
  root : t.holds (.element t.root) = true ∧
    ∀ id, t.holds (.element id) = true → id.num ≤ t.root.num
  parent : ∀ id, ∀ node ∈ t.children id, t.parent? node = some id
  text : t.text = String.join (events.filterMap Event.text?)

namespace Tree

variable {t : Tree} {kind : ElementKind} {subs : List Subtree} {events : List Event}

/-- Where elements are numbered as they finish, a child has a smaller number than its parent. -/
theorem num_lt_of_lists (made : t.toForest.MadeOf [.element t.root kind subs])
    (elements : Subtree.finished (Subtree.element t.root kind subs).tour =
      (List.range t.elements.size).map ElementId.mk) {id id' : ElementId}
    (h : t.Lists (.element id) (.element id')) : id'.num < id.num := by
  obtain ⟨_, heq, hchild⟩ := h
  obtain rfl := NodeId.element.inj heq
  obtain ⟨s, hs, q, k, children, hx⟩ :=
    made.exists_placed_element (Forest.holds_of_mem_children hchild)
  rw [made.children_placed hs hx] at hchild
  rw [List.mem_singleton] at hs
  subst hs
  obtain ⟨c, hc, hid⟩ := List.mem_map.mp hchild
  have hordered : ((List.range t.elements.size).map ElementId.mk).Pairwise
      fun a b => a.num < b.num := List.pairwise_map.mpr List.pairwise_lt_range
  rw [← elements] at hordered
  have hbelow := hordered.sublist (Subtree.finished_sublist hx)
  rw [Subtree.finished_element, List.pairwise_append] at hbelow
  refine hbelow.2.2 id' ?_ id List.mem_cons_self
  -- the child finishes in the walk over the children
  obtain ⟨l, r, rfl⟩ := List.append_of_mem hc
  rw [List.flatMap_append, List.flatMap_cons, Subtree.finished_append, Subtree.finished_append]
  apply List.mem_append_right
  apply List.mem_append_left
  cases c with
  | token leaf => cases hid
  | element cid ckind below =>
    obtain rfl := NodeId.element.inj hid
    rw [Subtree.finished_element]
    exact List.mem_append_right _ List.mem_cons_self

theorem num_lt_of_below (lists : ∀ {id id' : ElementId},
    t.Lists (.element id) (.element id') → id'.num < id.num) {node : NodeId} {id : ElementId}
    (h : Relation.TransGen t.Lists (.element id) node) :
    ∀ id', node = .element id' → id'.num < id.num := by
  induction h with
  | single hlists =>
    rintro id' rfl
    exact lists hlists
  | tail _ hlists ih =>
    rintro id' rfl
    obtain ⟨parent, rfl, hchild⟩ := hlists
    have hparent := ih parent rfl
    have hnum := lists ⟨parent, rfl, hchild⟩
    omega

theorem replays (made : t.toForest.MadeOf [.element t.root kind subs])
    (walk : (Subtree.element t.root kind subs).tour.map Prod.fst = events)
    (tokens : Subtree.tokensMet (Subtree.element t.root kind subs).tour =
      (List.range t.tokens.size).map TokenId.mk)
    (elements : Subtree.finished (Subtree.element t.root kind subs).tour =
      (List.range t.elements.size).map ElementId.mk) : t.Replays events where
  walk := ⟨_, made.subtree? List.mem_cons_self (Subtree.self_mem_placed none _), walk, tokens,
    elements⟩
  below id id' h := num_lt_of_below (num_lt_of_lists made elements) h id' rfl
  root := by
    -- the root is the last element to finish
    rw [Subtree.finished_element] at elements
    have hsize : t.elements.size ≠ 0 := by
      intro hzero
      rw [hzero] at elements
      simp at elements
    obtain ⟨n, hn⟩ := Nat.exists_eq_succ_of_ne_zero hsize
    rw [hn, List.range_succ, List.map_append] at elements
    obtain ⟨-, hlast⟩ := List.append_inj' elements rfl
    obtain ⟨hroot, -⟩ := List.cons.inj hlast
    simp only [Forest.holds, Table.has, decide_eq_true_eq, hroot, hn]
    exact ⟨Nat.lt_succ_self n, fun id hid => Nat.le_of_lt_succ hid⟩
  parent _ _ hnode := made.mem_children_iff.mp hnode
  text := by
    have hwhole := made.subtree? List.mem_cons_self (Subtree.self_mem_placed none _)
    have htext : t.text = (Subtree.element t.root kind subs).text := by
      rw [Tree.text, Forest.nodeText]
      simp only [Subtree.id_element] at hwhole
      rw [hwhole]
    rw [htext, Subtree.text, Subtree.textOfLeaves, ← Subtree.texts_tour, walk]

/-- The events of one element are taken in. The forest that comes of them is made of that element,
and nodes are numbered as the walk over it meets them. -/
theorem exists_made_of_isElement (h : Event.IsElement events) :
    ∃ t kind subs, Tree.ofEvents events = .ok t ∧
      t.toForest.MadeOf [.element t.root kind subs] ∧
      (Subtree.element t.root kind subs).tour.map Prod.fst = events ∧
      Subtree.tokensMet (Subtree.element t.root kind subs).tour =
        (List.range t.tokens.size).map TokenId.mk ∧
      Subtree.finished (Subtree.element t.root kind subs).tour =
        (List.range t.elements.size).map ElementId.mk := by
  obtain ⟨kind, inner, hinner, rfl⟩ := h
  have hstart : Builder.new.step (.start kind) = .ok ⟨.empty, [(kind, [])], none⟩ := rfl
  have hfirst : Builder.At ⟨.empty, [(kind, [])], none⟩ kind [] [] [] :=
    ⟨rfl, rfl, Forest.empty_madeOf⟩
  obtain ⟨filled, subs, hrun, hfilled, htour, hnumbers⟩ :=
    Builder.run_inside hinner hfirst [.finish]
  rw [List.append_nil, List.nil_append] at hfilled
  obtain ⟨built, t, hfinish, hbuild, hclose, hmade⟩ := hfilled.build
  obtain ⟨htokens, helements⟩ := hnumbers.close hclose
  refine ⟨t, kind, subs, ?_, hmade, ?_, htokens.symm, helements.symm⟩
  · rw [Tree.ofEvents, Builder.run_cons_of_ok hstart, hrun, hfinish]
    exact hbuild
  · rw [Subtree.tour_element, List.map_cons, List.map_append, htour]
    rfl

/-- The events of one element are taken in, and the tree that comes of them replays them. -/
theorem exists_of_isElement (h : Event.IsElement events) :
    ∃ t, Tree.ofEvents events = .ok t ∧ t.Replays events := by
  obtain ⟨t, kind, subs, hevents, hmade, hwalk, htokens, helements⟩ := exists_made_of_isElement h
  exact ⟨t, hevents, replays hmade hwalk htokens helements⟩

/-- Only the events of one element build a tree. -/
theorem isElement_of_ofEvents (h : Tree.ofEvents events = .ok t) : Event.IsElement events := by
  rw [Tree.ofEvents] at h
  split at h
  · cases h
  · rename_i built hrun
    cases events with
    | nil =>
      obtain rfl := Except.ok.inj hrun
      cases h
    | cons event rest =>
      obtain ⟨next, hstep, hrest⟩ := Builder.run_cons_eq_ok hrun
      cases event with
      | start kind =>
        obtain rfl := Except.ok.inj hstep
        cases Builder.closes_of_run hrest h rfl rfl with
        | finish below others =>
          cases others with
          | nil => exact ⟨kind, _, below, rfl⟩
      | token kind text => cases hstep
      | finish => cases hstep

/-- The forest of a tree that was built is made of the root and what is below it. -/
theorem madeOf_of_ofEvents (h : Tree.ofEvents events = .ok t) :
    ∃ s, t.toForest.MadeOf [s] ∧ s.id = .element t.root := by
  obtain ⟨u, kind, subs, hu, hmade, -⟩ := exists_made_of_isElement (isElement_of_ofEvents h)
  obtain rfl := Except.ok.inj (h.symm.trans hu)
  exact ⟨_, hmade, rfl⟩

/-- A sequence of events meets no fault exactly if it is that of one element, and then the tree
replays it. -/
theorem ofEvents_replays (events : List Event) :
    ((∃ t, Tree.ofEvents events = .ok t) ↔ Event.IsElement events) ∧
      ∀ t, Tree.ofEvents events = .ok t → t.Replays events := by
  refine ⟨⟨?_, ?_⟩, ?_⟩
  · rintro ⟨t, ht⟩
    exact isElement_of_ofEvents ht
  · intro h
    obtain ⟨t, ht, -⟩ := exists_of_isElement h
    exact ⟨t, ht⟩
  · intro t ht
    obtain ⟨u, hu, hreplays⟩ := exists_of_isElement (isElement_of_ofEvents ht)
    obtain rfl := Except.ok.inj (ht.symm.trans hu)
    exact hreplays

end Tree

end DeclVisibility
