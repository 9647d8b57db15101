import DeclVisibility.Proofs.Exchange.Draft
import DeclVisibility.Proofs.Tree.Building
import DeclVisibility.Proofs.Tree.Drafts

/-!
# A draft builds the tree that it is the draft of

The events of a walk over a draft meet no fault, and the tree that they build has the draft with all
texts written out (`Tree.exists_of_events`). Inside the walk, the events of a node add to the
children of the innermost open element one subtree, which has the draft of the node
(`Builder.run_walk`).
-/

namespace DeclVisibility

namespace Draft

mutual
/-- The draft with the fixed spellings written out. -/
def writtenOut : Draft → Draft
  | token kind text? => .token kind (some (text?.getD (kind.spelling?.getD "")))
  | element kind children => .element kind (writtenOutAll children)
/-- Drafts with the fixed spellings written out. -/
def writtenOutAll : List Draft → List Draft
  | [] => []
  | child :: rest => child.writtenOut :: writtenOutAll rest
end

theorem writtenOutAll_eq : ∀ ds : List Draft, writtenOutAll ds = ds.map writtenOut
  | [] => rfl
  | d :: rest => by rw [writtenOutAll, writtenOutAll_eq rest, List.map_cons]

@[simp] theorem writtenOut_element (kind : ElementKind) (children : List Draft) :
    (element kind children).writtenOut = .element kind (children.map writtenOut) := by
  rw [writtenOut, writtenOutAll_eq]

/-- What is written out is nested as before. -/
theorem nesting_writtenOut_le {d : Draft} :
    ∀ {n : Nat}, d.nesting ≤ n → d.writtenOut.nesting ≤ n := by
  induction d with
  | token kind text? =>
    intro n _
    rw [writtenOut, nesting_token]
    exact Nat.zero_le n
  | element kind children ih =>
    intro n h
    cases n with
    | zero =>
      rw [nesting] at h
      cases h
    | succ n =>
      rw [nesting_element_le] at h
      rw [writtenOut_element, nesting_element_le]
      intro d hd
      obtain ⟨c, hc, rfl⟩ := List.mem_map.mp hd
      exact ih c hc (h c hc)

theorem eq_of_tokenText {kind : TokenKind} {text? : Option String} {text : String}
    (h : tokenText kind text? = .ok text) : text = text?.getD (kind.spelling?.getD "") := by
  cases text? with
  | none =>
    cases hspelling : kind.spelling? with
    | none =>
      simp only [tokenText, hspelling] at h
      cases h
    | some spelling =>
      simp only [tokenText, hspelling] at h
      exact (Except.ok.inj h).symm
  | some given =>
    cases hspelling : kind.spelling? with
    | none =>
      simp only [tokenText, hspelling] at h
      exact (Except.ok.inj h).symm
    | some spelling =>
      simp only [tokenText, hspelling] at h
      split at h
      · exact (Except.ok.inj h).symm
      · cases h

end Draft

namespace Builder

/-- What a builder has built inside an open element: the children of this element so far, and what
else there is. -/
structure At (b : Builder) (kind : ElementKind) (kids : List NodeId)
    (outer : List (ElementKind × List NodeId)) (tops : List Subtree) : Prop where
  unfinished : b.root = none
  opened : b.opened = (kind, kids) :: outer
  madeOf : b.forest.MadeOf tops

variable {b : Builder} {outside : ElementKind} {kids : List NodeId}
  {outer : List (ElementKind × List NodeId)} {tops : List Subtree}

theorem run_cons_of_ok {event : Event} {next : Builder} (h : b.step event = .ok next)
    (rest : List Event) : run (event :: rest) b = run rest next := by
  rw [run, h]

theorem At.token (h : b.At outside kids outer tops) (kind : TokenKind) (text : String) :
    ∃ next id, b.step (.token kind text) = .ok next ∧ b.forest.addToken kind text = (id, next.forest) ∧
      next.At outside (kids ++ [.token id]) outer (.token ⟨id, kind, text⟩ :: tops) := by
  obtain ⟨unfinished, opened, madeOf⟩ := h
  refine ⟨{ b with
      forest := (b.forest.addToken kind text).2
      opened := (outside, kids ++ [.token (b.forest.addToken kind text).1]) :: outer },
    (b.forest.addToken kind text).1, ?_, rfl, unfinished, rfl, madeOf.addToken kind text⟩
  simp only [step, Builder.token, opened]

theorem At.start (h : b.At outside kids outer tops) (kind : ElementKind) :
    ∃ next, b.step (.start kind) = .ok next ∧ next.forest = b.forest ∧
      next.At kind [] ((outside, kids) :: outer) tops := by
  refine ⟨{ b with opened := (kind, []) :: b.opened }, ?_, rfl, h.unfinished, ?_, h.madeOf⟩
  · simp only [step, Builder.start, h.unfinished]
  · rw [h.opened]

/-- Finishing an element inside another one, which gets it as a child. -/
theorem At.finish {kind : ElementKind} {subs : List Subtree}
    (h : b.At kind (subs.map Subtree.id) ((outside, kids) :: outer) (subs ++ tops)) :
    ∃ next id, b.step .finish = .ok next ∧
      close b.forest kind (subs.map Subtree.id) = (id, next.forest) ∧
      next.At outside (kids ++ [.element id]) outer (.element id kind subs :: tops) := by
  obtain ⟨unfinished, opened, madeOf⟩ := h
  refine ⟨{ b with
      forest := (close b.forest kind (subs.map Subtree.id)).2
      opened := (outside, kids ++ [.element (close b.forest kind (subs.map Subtree.id)).1]) ::
        outer },
    (close b.forest kind (subs.map Subtree.id)).1, ?_, rfl, unfinished, rfl,
    (madeOf.addBareElement kind).takeIn⟩
  simp only [step, Builder.finish, opened]

/-- Finishing the outermost element, which is the root of the whole. -/
theorem At.build {kind : ElementKind} {subs : List Subtree}
    (h : b.At kind (subs.map Subtree.id) [] subs) :
    ∃ built t, run [.finish] b = .ok built ∧ built.build = .ok t ∧
      close b.forest kind (subs.map Subtree.id) = (t.root, t.toForest) ∧
      t.toForest.MadeOf [.element t.root kind subs] := by
  obtain ⟨unfinished, opened, madeOf⟩ := h
  rw [← List.append_nil subs] at madeOf
  have hmade := (madeOf.addBareElement kind).takeIn
  refine ⟨⟨(close b.forest kind (subs.map Subtree.id)).2, [],
    some (close b.forest kind (subs.map Subtree.id)).1⟩, _, ?_, rfl, rfl, hmade⟩
  simp only [run, step, Builder.finish, opened]

mutual
/-- The events of a node add one subtree with the draft of the node. -/
theorem run_walk : ∀ {d : Draft} {events : List Event}, d.walk = .ok events →
    ∀ {b : Builder} {outside : ElementKind} {kids : List NodeId}
      {outer : List (ElementKind × List NodeId)} {tops : List Subtree},
      b.At outside kids outer tops → ∀ rest, ∃ next sub, run (events ++ rest) b = run rest next ∧
        next.At outside (kids ++ [sub.id]) outer (sub :: tops) ∧ sub.draft = d.writtenOut
  | .token kind text?, events, h, b, outside, kids, outer, tops, hb, rest => by
    rw [Draft.walk] at h
    split at h
    · cases h
    · rename_i text htext
      obtain rfl := Except.ok.inj h
      obtain ⟨next, id, hstep, -, hnext⟩ := hb.token kind text
      refine ⟨next, .token ⟨id, kind, text⟩, run_cons_of_ok hstep rest, hnext, ?_⟩
      rw [Subtree.draft_token, Draft.eq_of_tokenText htext, Draft.writtenOut]
  | .element kind children, events, h, b, outside, kids, outer, tops, hb, rest => by
    rw [Draft.walk] at h
    split at h
    · cases h
    · rename_i inner hinner
      obtain rfl := Except.ok.inj h
      obtain ⟨started, hstart, -, hstarted⟩ := hb.start kind
      obtain ⟨filled, subs, hrun, hfilled, hdrafts⟩ :=
        run_walkAll hinner hstarted (.finish :: rest)
      obtain ⟨next, id, hfinish, -, hnext⟩ := hfilled.finish
      refine ⟨next, .element id kind subs, ?_, hnext, ?_⟩
      · rw [List.cons_append, List.cons_append, run_cons_of_ok hstart, List.append_assoc,
          List.singleton_append, hrun, run_cons_of_ok hfinish]
      · rw [Subtree.draft_element, hdrafts, Draft.writtenOut_element]
/-- The events of nodes that stand side by side add a subtree for each. -/
theorem run_walkAll : ∀ {ds : List Draft} {events : List Event}, Draft.walkAll ds = .ok events →
    ∀ {b : Builder} {outside : ElementKind} {kids : List NodeId}
      {outer : List (ElementKind × List NodeId)} {tops : List Subtree},
      b.At outside kids outer tops → ∀ rest, ∃ next subs, run (events ++ rest) b = run rest next ∧
        next.At outside (kids ++ subs.map Subtree.id) outer (subs ++ tops) ∧
        subs.map Subtree.draft = ds.map Draft.writtenOut
  | [], events, h, b, outside, kids, outer, tops, hb, rest => by
    rw [Draft.walkAll] at h
    obtain rfl := Except.ok.inj h
    exact ⟨b, [], rfl, by simpa using hb, rfl⟩
  | child :: others, events, h, b, outside, kids, outer, tops, hb, rest => by
    rw [Draft.walkAll] at h
    split at h
    · cases h
    · rename_i first hfirst
      split at h
      · cases h
      · rename_i later hlater
        obtain rfl := Except.ok.inj h
        obtain ⟨mid, sub, hrun, hmid, hdraft⟩ := run_walk hfirst hb (later ++ rest)
        obtain ⟨next, subs, hrun', hnext, hdrafts⟩ := run_walkAll hlater hmid rest
        refine ⟨next, sub :: subs, ?_, ⟨hnext.unfinished, ?_, ?_⟩, ?_⟩
        · rw [List.append_assoc, hrun, hrun']
        · rw [hnext.opened, List.map_cons, List.append_assoc, List.singleton_append]
        · exact hnext.madeOf.perm List.perm_middle
        · rw [List.map_cons, List.map_cons, hdraft, hdrafts]
end

end Builder

/-- The events of a draft build a tree, and it has the draft with all texts written out. -/
theorem Tree.exists_of_events {d : Draft} {events : List Event} (h : d.events = .ok events) :
    ∃ t s, Tree.ofEvents events = .ok t ∧ Tree.ReadsAs t s ∧ s.draft = d.writtenOut := by
  cases d with
  | token kind text? => cases h
  | element kind children =>
    have hwalk : (Draft.element kind children).walk = .ok events := h
    rw [Draft.walk] at hwalk
    split at hwalk
    · cases hwalk
    · rename_i inner hinner
      have hevents := Except.ok.inj hwalk
      -- the root is started outside of every other element
      have hstart : Builder.new.step (.start kind) = .ok ⟨.empty, [(kind, [])], none⟩ := rfl
      have hfirst : Builder.At ⟨.empty, [(kind, [])], none⟩ kind [] [] [] :=
        ⟨rfl, rfl, Forest.empty_madeOf⟩
      obtain ⟨filled, subs, hrun, hfilled, hdrafts⟩ :=
        Builder.run_walkAll hinner hfirst [.finish]
      rw [List.append_nil, List.nil_append] at hfilled
      obtain ⟨built, t, hfinish, hbuild, -, hmade⟩ := hfilled.build
      have hof : Tree.ofEvents events = .ok t := by
        rw [Tree.ofEvents, ← hevents, List.cons_append, Builder.run_cons_of_ok hstart, hrun,
          hfinish]
        exact hbuild
      -- the tree reads as a nested value, which can only be the one that was just built
      obtain ⟨s, hs⟩ := Tree.readsAs_of_ofEvents (Draft.spelled_of_events h) hof
      have hwhole : t.whole? = some (.element t.root kind subs) :=
        hmade.subtree? List.mem_cons_self (Subtree.self_mem_placed none _)
      obtain rfl := Option.some.inj (hs.whole?.symm.trans hwhole)
      refine ⟨t, _, hof, hs, ?_⟩
      rw [Subtree.draft_element, hdrafts, Draft.writtenOut_element]

namespace Subtree

variable {s : Subtree}

/-- The draft of a subtree has its texts written out already. -/
theorem writtenOut_draft (s : Subtree) : s.draft.writtenOut = s.draft := by
  induction s with
  | token leaf => rw [draft_token, Draft.writtenOut, Option.getD_some]
  | element id kind children ih =>
    rw [draft_element, Draft.writtenOut_element, List.map_map]
    congr 1
    exact List.map_congr_left ih

/-- A subtree whose tokens are spelled as their kinds demand can be walked over. -/
theorem Spelled.exists_walk (h : s.Spelled) : ∃ events, s.draft.walk = .ok events := by
  induction s with
  | token leaf =>
    have hspells := spelled_token.mp h
    have htext : Draft.tokenText leaf.kind (some leaf.text) = .ok leaf.text := by
      cases hspelling : leaf.kind.spelling? with
      | none => simp only [Draft.tokenText, hspelling]
      | some spelling =>
        simp only [Draft.tokenText, hspelling]
        rw [if_pos (hspells spelling hspelling)]
    exact ⟨_, by rw [draft_token, Draft.walk, htext]⟩
  | element id kind children ih =>
    have hall : ∃ events, Draft.walkAll (children.map draft) = .ok events := by
      rw [spelled_element] at h
      induction children with
      | nil => exact ⟨[], rfl⟩
      | cons c rest ihr =>
        obtain ⟨first, hfirst⟩ := ih c List.mem_cons_self (h c List.mem_cons_self)
        obtain ⟨others, hothers⟩ := ihr (fun d hd => ih d (List.mem_cons_of_mem _ hd))
          fun d hd => h d (List.mem_cons_of_mem _ hd)
        exact ⟨first ++ others, by rw [List.map_cons, Draft.walkAll, hfirst, hothers]⟩
    obtain ⟨inner, hinner⟩ := hall
    exact ⟨_, by rw [draft_element, Draft.walk, hinner]⟩

end Subtree

theorem Tree.ReadsAs.exists_events {t : Tree} {s : Subtree} (h : t.ReadsAs s) :
    ∃ events, s.draft.events = .ok events := by
  obtain ⟨events, hevents⟩ := h.spelled.exists_walk
  have hroot := h.root
  cases s with
  | token leaf => cases hroot
  | element id kind children =>
    rw [Subtree.draft_element] at hevents ⊢
    exact ⟨events, hevents⟩

end DeclVisibility
