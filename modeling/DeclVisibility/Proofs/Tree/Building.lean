import DeclVisibility.Proofs.Tree.Reading
import DeclVisibility.Tree.Draft

/-!
# What is built is one tree

The events of a walk build a tree that reads as one nested value (`Tree.readsAs_of_ofEvents`).
Inside the walk, the forest is made of the children that the open elements have so far
(`Builder.Builds`); one event keeps that (`Builds.step`), hence a whole walk does (`Builds.run`).
Only spelled tokens come out of a draft (`Draft.spelled_of_walk`).
-/

namespace DeclVisibility

/-- An event with a token spelled as its kind demands. -/
def Event.Spelled : Event → Prop
  | .token kind text => kind.Spells text
  | _ => True

/-! ## Builders -/

namespace Builder

/-- What has been built: the children of the open elements so far, or the whole. -/
inductive Builds (b : Builder) : Prop
  | inside (frames : List (ElementKind × List Subtree)) (unfinished : b.root = none)
      (opened : b.opened = frames.map fun frame => (frame.1, frame.2.map Subtree.id))
      (madeOf : b.forest.MadeOf (frames.flatMap (·.2)))
      (spelled : ∀ s ∈ frames.flatMap (·.2), s.Spelled)
  | finished (s : Subtree) (root : ElementId) (top : s.id = .element root)
      (whole : b.root = some root) (opened : b.opened = []) (madeOf : b.forest.MadeOf [s])
      (spelled : s.Spelled)

variable {b b' : Builder}

theorem builds_new : new.Builds :=
  .inside [] rfl rfl Forest.empty_madeOf (fun _ hs => nomatch hs)

theorem Builds.start {kind : ElementKind} (h : b.Builds) (hstep : b.start kind = .ok b') :
    b'.Builds := by
  cases h with
  | inside frames unfinished opened madeOf spelled =>
    simp only [Builder.start, unfinished, Except.ok.injEq] at hstep
    subst hstep
    refine .inside ((kind, []) :: frames) rfl ?_ madeOf spelled
    rw [List.map_cons, ← opened]
    rfl
  | finished s root top whole opened madeOf spelled =>
    rw [Builder.start, whole] at hstep
    cases hstep

theorem Builds.token {kind : TokenKind} {text : String} (hspells : kind.Spells text)
    (h : b.Builds) (hstep : b.token kind text = .ok b') : b'.Builds := by
  cases h with
  | inside frames unfinished opened madeOf spelled =>
    cases frames with
    | nil =>
      rw [Builder.token, opened] at hstep
      cases hstep
    | cons frame outer =>
      rw [Builder.token, opened, List.map_cons] at hstep
      obtain rfl := Except.ok.inj hstep
      generalize hleaf : Subtree.token ⟨(b.forest.addToken kind text).1, kind, text⟩ = leaf
      have hadd := madeOf.addToken kind text
      rw [hleaf] at hadd
      have hperm : (leaf :: (frame :: outer).flatMap (·.2)).Perm
          (((frame.1, frame.2 ++ [leaf]) :: outer).flatMap (·.2)) := by
        simp only [List.flatMap_cons, List.append_assoc, List.singleton_append]
        exact List.perm_middle.symm
      -- the token joins the children of the innermost open element
      refine .inside ((frame.1, frame.2 ++ [leaf]) :: outer) unfinished ?_ (hadd.perm hperm) ?_
      · simp [← hleaf, Forest.addToken]
      · intro s hs
        rw [← hperm.mem_iff, List.mem_cons] at hs
        rcases hs with rfl | hs
        · rw [← hleaf]
          intro l hl
          rw [Subtree.leaves_token, List.mem_singleton] at hl
          rw [hl]
          exact hspells
        · exact spelled s hs
  | finished s root top whole opened madeOf spelled =>
    rw [Builder.token, opened] at hstep
    cases hstep

theorem Builds.finish (h : b.Builds) (hstep : b.finish = .ok b') : b'.Builds := by
  cases h with
  | inside frames unfinished opened madeOf spelled =>
    cases frames with
    | nil =>
      rw [Builder.finish, opened] at hstep
      cases hstep
    | cons frame outer =>
      obtain ⟨kind, kids⟩ := frame
      -- closing an element is adding it bare and letting it take in its children
      have hclose : (close b.forest kind (kids.map Subtree.id)).2.MadeOf
          (.element (close b.forest kind (kids.map Subtree.id)).1 kind kids ::
            outer.flatMap (·.2)) :=
        (madeOf.addBareElement kind).takeIn
      generalize hclosed : close b.forest kind (kids.map Subtree.id) = closed at hclose
      have hkids : (Subtree.element closed.1 kind kids).Spelled :=
        Subtree.spelled_element.mpr fun c hc => spelled c (List.mem_append_left _ hc)
      cases outer with
      | nil =>
        simp only [Builder.finish, opened, List.map_cons, List.map_nil, hclosed] at hstep
        obtain rfl := Except.ok.inj hstep
        exact .finished _ closed.1 rfl rfl rfl hclose hkids
      | cons parent further =>
        obtain ⟨outside, siblings⟩ := parent
        simp only [Builder.finish, opened, List.map_cons, hclosed] at hstep
        obtain rfl := Except.ok.inj hstep
        have hperm : (Subtree.element closed.1 kind kids ::
            ((outside, siblings) :: further).flatMap (·.2)).Perm
            (((outside, siblings ++ [.element closed.1 kind kids]) :: further).flatMap (·.2)) := by
          simp only [List.flatMap_cons, List.append_assoc, List.singleton_append]
          exact List.perm_middle.symm
        refine .inside ((outside, siblings ++ [.element closed.1 kind kids]) :: further) unfinished
          ?_ (hclose.perm hperm) ?_
        · simp
        · intro s hs
          rw [← hperm.mem_iff, List.mem_cons] at hs
          rcases hs with rfl | hs
          · exact hkids
          · exact spelled s (List.mem_append_right _ hs)
  | finished s root top whole opened madeOf spelled =>
    rw [Builder.finish, opened] at hstep
    cases hstep

/-- One event keeps what has been built in order. -/
theorem Builds.step {event : Event} (hevent : event.Spelled) (h : b.Builds)
    (hstep : b.step event = .ok b') : b'.Builds := by
  cases event with
  | start kind => exact h.start hstep
  | token kind text => exact h.token hevent hstep
  | finish => exact h.finish hstep

theorem Builds.run : ∀ {events : List Event} {b : Builder}, (∀ event ∈ events, event.Spelled) →
    b.Builds → Builder.run events b = .ok b' → b'.Builds
  | [], _, _, h, hrun => by
    rw [Builder.run] at hrun
    exact Except.ok.inj hrun ▸ h
  | event :: rest, b, hevents, h, hrun => by
    rw [Builder.run] at hrun
    split at hrun
    · cases hrun
    · rename_i next hstep
      have hnext := h.step (hevents event List.mem_cons_self) hstep
      exact hnext.run (fun e he => hevents e (List.mem_cons_of_mem _ he)) hrun

theorem Builds.build {t : Tree} (h : b.Builds) (hbuild : b.build = .ok t) :
    ∃ s, t.ReadsAs s := by
  cases h with
  | inside frames unfinished opened madeOf spelled =>
    rw [Builder.build, unfinished] at hbuild
    split at hbuild <;> cases hbuild
  | finished s root top whole opened madeOf spelled =>
    rw [Builder.build, opened, whole] at hbuild
    obtain rfl := Except.ok.inj hbuild
    exact ⟨s, madeOf, top, spelled⟩

end Builder

/-- A tree that was built of spelled tokens reads as one nested value. -/
theorem Tree.readsAs_of_ofEvents {events : List Event} {t : Tree}
    (hevents : ∀ event ∈ events, event.Spelled) (h : Tree.ofEvents events = .ok t) :
    ∃ s, t.ReadsAs s := by
  rw [Tree.ofEvents] at h
  split at h
  · cases h
  · rename_i built hrun
    exact (Builder.builds_new.run hevents hrun).build h

/-! ## Drafts -/

namespace Draft

theorem spells_of_tokenText {kind : TokenKind} {text? : Option String} {text : String}
    (h : tokenText kind text? = .ok text) : kind.Spells text := by
  intro spelling hspelling
  cases text? with
  | none =>
    simp only [tokenText, hspelling, Except.ok.injEq] at h
    exact h.symm
  | some given =>
    simp only [tokenText, hspelling] at h
    split at h
    · rename_i heq
      exact (Except.ok.inj h).symm.trans heq
    · cases h

mutual
/-- A walk over a draft meets only spelled tokens. -/
theorem spelled_of_walk : ∀ {d : Draft} {events : List Event}, d.walk = .ok events →
    ∀ event ∈ events, event.Spelled
  | .token kind text?, events, h, event, hevent => by
    rw [walk] at h
    split at h
    · cases h
    · rename_i text htext
      obtain rfl := Except.ok.inj h
      rw [List.mem_singleton] at hevent
      rw [hevent]
      exact spells_of_tokenText htext
  | .element kind children, events, h, event, hevent => by
    rw [walk] at h
    split at h
    · cases h
    · rename_i inner hinner
      obtain rfl := Except.ok.inj h
      rw [List.cons_append, List.mem_cons, List.mem_append, List.mem_singleton] at hevent
      rcases hevent with rfl | hevent | rfl
      · trivial
      · exact spelled_of_walkAll hinner event hevent
      · trivial
theorem spelled_of_walkAll : ∀ {ds : List Draft} {events : List Event}, walkAll ds = .ok events →
    ∀ event ∈ events, event.Spelled
  | [], events, h, event, hevent => by
    rw [walkAll] at h
    obtain rfl := Except.ok.inj h
    cases hevent
  | child :: rest, events, h, event, hevent => by
    rw [walkAll] at h
    split at h
    · cases h
    · rename_i first hfirst
      split at h
      · cases h
      · rename_i others hothers
        obtain rfl := Except.ok.inj h
        rcases List.mem_append.mp hevent with hevent | hevent
        · exact spelled_of_walk hfirst event hevent
        · exact spelled_of_walkAll hothers event hevent
end

theorem spelled_of_events {d : Draft} {events : List Event} (h : d.events = .ok events) :
    ∀ event ∈ events, event.Spelled := by
  cases d with
  | token kind text? => cases h
  | element kind children => exact spelled_of_walk h

end Draft

end DeclVisibility
