import DeclVisibility.Proofs.Tree.Walk
import DeclVisibility.Service.Basic

/-!
# What is loaded, and what is refused

A draft is loaded as the tree that its events build (`Draft.load`), which is what a service does
when it opens a document (`Service.openJson_of_load`). The tokens of a draft decide: it is loaded
exactly if it is an element and all of them are well spelled, and else the first that is not is
named (`Draft.load_exact`). A walk over the draft either comes to its end, with all tokens well
spelled, or stops at the first that is not, with a misfit that tells what is wrong with it
(`Draft.walk_cases`).

What is loaded is the draft with all texts written out, and this draft has the same events, so it is
loaded as the very same tree.
-/

namespace DeclVisibility

namespace Draft

/-! ## The tokens of a draft -/

mutual
/-- The tokens in text order, each with its kind and with the text that is given for it. -/
def tokens : Draft → List (TokenKind × Option String)
  | token kind text? => [(kind, text?)]
  | element _ children => tokensOfAll children
/-- The tokens of drafts that stand side by side. -/
def tokensOfAll : List Draft → List (TokenKind × Option String)
  | [] => []
  | child :: rest => child.tokens ++ tokensOfAll rest
end

/-- The draft is that of an element. -/
def IsElement (d : Draft) : Prop := ∃ kind children, d = .element kind children

end Draft

/-- A token is well spelled if its text is fixed and is left out or kept to, or if its text is free
and is given. -/
inductive WellSpelled : TokenKind × Option String → Prop
  | leftOut {kind : TokenKind} {spelling : String} (fixed : kind.spelling? = some spelling) :
    WellSpelled (kind, none)
  | keptTo {kind : TokenKind} {spelling : String} (fixed : kind.spelling? = some spelling) :
    WellSpelled (kind, some spelling)
  | given {kind : TokenKind} (free : kind.spelling? = none) (text : String) :
    WellSpelled (kind, some text)

/-- A misfit tells what is wrong with a token: which text is missing, or which two texts differ. -/
inductive Misfit.Tells : Misfit → TokenKind × Option String → Prop
  | missing {kind : TokenKind} (free : kind.spelling? = none) : Tells (.textMissing kind) (kind, none)
  | other {kind : TokenKind} {spelling text : String} (fixed : kind.spelling? = some spelling)
    (ne : text ≠ spelling) : Tells (.misspelled kind spelling text) (kind, some text)

/-- A token that a misfit tells about is not well spelled. -/
theorem Misfit.Tells.not_wellSpelled {misfit : Misfit} {token : TokenKind × Option String}
    (h : misfit.Tells token) : ¬ WellSpelled token := by
  cases h with
  | missing free =>
    rintro ⟨fixed⟩
    rw [free] at fixed
    cases fixed
  | other fixed ne =>
    intro hspelled
    cases hspelled with
    | keptTo fixed' => exact ne (Option.some.inj (fixed'.symm.trans fixed))
    | given free _ =>
      rw [free] at fixed
      cases fixed

/-- A misfit tells about the first of some tokens that is not well spelled. -/
def Misfit.TellsFirst (misfit : Misfit) (tokens : List (TokenKind × Option String)) : Prop :=
  ∃ before token after, tokens = before ++ token :: after ∧ (∀ t ∈ before, WellSpelled t) ∧
    misfit.Tells token

namespace Misfit.TellsFirst

variable {misfit : Misfit} {token : TokenKind × Option String}
  {tokens others : List (TokenKind × Option String)}

theorem singleton (h : misfit.Tells token) : misfit.TellsFirst [token] :=
  ⟨[], token, [], rfl, (fun _ ht => nomatch ht), h⟩

theorem append (h : misfit.TellsFirst tokens) : misfit.TellsFirst (tokens ++ others) := by
  obtain ⟨before, token, after, rfl, hbefore, htells⟩ := h
  exact ⟨before, token, after ++ others, by simp, hbefore, htells⟩

theorem behind (hothers : ∀ t ∈ others, WellSpelled t) (h : misfit.TellsFirst tokens) :
    misfit.TellsFirst (others ++ tokens) := by
  obtain ⟨before, token, after, rfl, hbefore, htells⟩ := h
  refine ⟨others ++ before, token, after, by simp, ?_, htells⟩
  intro t ht
  rcases List.mem_append.mp ht with ht | ht
  · exact hothers t ht
  · exact hbefore t ht

end Misfit.TellsFirst

namespace Draft

/-! ## What a walk makes of the tokens -/

/-- The text of a token is settled if it is well spelled, and else there is a misfit that tells. -/
theorem tokenText_cases (kind : TokenKind) (text? : Option String) :
    (WellSpelled (kind, text?) ∧ ∃ text, tokenText kind text? = .ok text) ∨
      ∃ misfit, misfit.Tells (kind, text?) ∧ tokenText kind text? = .error misfit := by
  cases hspelling : kind.spelling? with
  | none =>
    cases text? with
    | none => exact .inr ⟨_, .missing hspelling, by simp only [tokenText, hspelling]⟩
    | some text => exact .inl ⟨.given hspelling text, text, by simp only [tokenText, hspelling]⟩
  | some spelling =>
    cases text? with
    | none => exact .inl ⟨.leftOut hspelling, spelling, by simp only [tokenText, hspelling]⟩
    | some text =>
      by_cases heq : text = spelling
      · subst heq
        exact .inl ⟨.keptTo hspelling, text, by simp only [tokenText, hspelling, if_true]⟩
      · exact .inr ⟨_, .other hspelling heq, by simp only [tokenText, hspelling, if_neg heq]⟩

mutual
/-- A walk over a draft comes to its end if all tokens are well spelled, and else to a misfit that
tells about the first that is not. -/
theorem walk_cases : ∀ d : Draft,
    ((∀ t ∈ d.tokens, WellSpelled t) ∧ ∃ events, d.walk = .ok events) ∨
      ∃ misfit, misfit.TellsFirst d.tokens ∧ d.walk = .error misfit
  | .token kind text? => by
    rw [tokens, walk]
    rcases tokenText_cases kind text? with ⟨hspelled, text, htext⟩ | ⟨misfit, htells, hmisfit⟩
    · refine .inl ⟨?_, _, by rw [htext]⟩
      intro t ht
      rw [List.mem_singleton.mp ht]
      exact hspelled
    · exact .inr ⟨misfit, .singleton htells, by rw [hmisfit]⟩
  | .element kind children => by
    rw [tokens, walk]
    rcases walkAll_cases children with ⟨hspelled, inner, hinner⟩ | ⟨misfit, htells, hmisfit⟩
    · exact .inl ⟨hspelled, _, by rw [hinner]⟩
    · exact .inr ⟨misfit, htells, by rw [hmisfit]⟩
theorem walkAll_cases : ∀ ds : List Draft,
    ((∀ t ∈ tokensOfAll ds, WellSpelled t) ∧ ∃ events, walkAll ds = .ok events) ∨
      ∃ misfit, misfit.TellsFirst (tokensOfAll ds) ∧ walkAll ds = .error misfit
  | [] => .inl ⟨(fun _ ht => by rw [tokensOfAll] at ht; cases ht), [], by rw [walkAll]⟩
  | child :: rest => by
    rw [tokensOfAll, walkAll]
    rcases walk_cases child with ⟨hchild, first, hfirst⟩ | ⟨misfit, htells, hmisfit⟩
    · -- the first child is in order, so the others decide
      rcases walkAll_cases rest with ⟨hrest, others, hothers⟩ | ⟨misfit, htells, hmisfit⟩
      · refine .inl ⟨?_, _, by rw [hfirst, hothers]⟩
        intro t ht
        rcases List.mem_append.mp ht with ht | ht
        · exact hchild t ht
        · exact hrest t ht
      · exact .inr ⟨misfit, htells.behind hchild, by rw [hfirst, hmisfit]⟩
    · exact .inr ⟨misfit, htells.append, by rw [hmisfit]⟩
end

/-- A text that was settled on stays the text of the token when it is given. -/
theorem tokenText_some {kind : TokenKind} {text? : Option String} {text : String}
    (h : tokenText kind text? = .ok text) : tokenText kind (some text) = .ok text := by
  have hspells := spells_of_tokenText h
  cases hspelling : kind.spelling? with
  | none => simp only [tokenText, hspelling]
  | some spelling => simp only [tokenText, hspelling, if_pos (hspells spelling hspelling)]

mutual
/-- With all texts written out, a draft has the events that it had. -/
theorem walk_writtenOut : ∀ {d : Draft} {events : List Event}, d.walk = .ok events →
    d.writtenOut.walk = .ok events
  | .token kind text?, events, h => by
    rw [walk] at h
    split at h
    · cases h
    · rename_i text htext
      rw [writtenOut, walk, ← eq_of_tokenText htext, tokenText_some htext]
      exact h
  | .element kind children, events, h => by
    rw [walk] at h
    split at h
    · cases h
    · rename_i inner hinner
      rw [writtenOut, walk, walkAll_writtenOut hinner]
      exact h
theorem walkAll_writtenOut : ∀ {ds : List Draft} {events : List Event}, walkAll ds = .ok events →
    walkAll (writtenOutAll ds) = .ok events
  | [], events, h => by
    rw [writtenOutAll]
    exact h
  | child :: rest, events, h => by
    rw [walkAll] at h
    split at h
    · cases h
    · rename_i first hfirst
      split at h
      · cases h
      · rename_i others hothers
        rw [writtenOutAll, walkAll, walk_writtenOut hfirst, walkAll_writtenOut hothers]
        exact h
end

theorem events_writtenOut {d : Draft} {events : List Event} (h : d.events = .ok events) :
    d.writtenOut.events = .ok events := by
  cases d with
  | token kind text? => cases h
  | element kind children => exact walk_writtenOut h

/-! ## Loading -/

/-- The tree that a draft is loaded as, or the misfit that it is refused for. -/
def load (d : Draft) : Except Fault (Except Misfit Tree) :=
  match d.events with
  | .error misfit => .ok (.error misfit)
  | .ok events =>
    match Tree.ofEvents events with
    | .error fault => .error fault
    | .ok t => .ok (.ok t)

theorem load_of_error {d : Draft} {misfit : Misfit} (h : d.events = .error misfit) :
    d.load = .ok (.error misfit) := by
  rw [load, h]

theorem exists_events_of_load {d : Draft} {t : Tree} (h : d.load = .ok (.ok t)) :
    ∃ events, d.events = .ok events ∧ Tree.ofEvents events = .ok t := by
  rw [load] at h
  split at h
  · cases h
  · rename_i events hevents
    split at h
    · cases h
    · rename_i u hu
      obtain rfl := Except.ok.inj (Except.ok.inj h)
      exact ⟨events, hevents, hu⟩

/-- What is loaded reads as one nested value. -/
theorem readsAs_of_load {d : Draft} {t : Tree} (h : d.load = .ok (.ok t)) : ∃ s, t.ReadsAs s := by
  obtain ⟨events, hevents, hbuilt⟩ := exists_events_of_load h
  exact Tree.readsAs_of_ofEvents (spelled_of_events hevents) hbuilt

theorem exists_loaded {d : Draft} {seen : Tree → Bool}
    (h : (match d.load with | .ok (.ok t) => seen t | _ => false) = true) :
    ∃ t, d.load = .ok (.ok t) ∧ seen t = true := by
  split at h
  · rename_i t hload
    exact ⟨t, hload, h⟩
  · cases h

/-- A draft that has events is loaded, and reads as what is written out. -/
theorem load_of_events {d : Draft} {events : List Event} (h : d.events = .ok events) :
    ∃ t, d.load = .ok (.ok t) ∧ d.writtenOut.load = .ok (.ok t) ∧
      t.whole?.map Subtree.draft = some d.writtenOut := by
  obtain ⟨t, s, htree, hreads, hdraft⟩ := Tree.exists_of_events h
  refine ⟨t, ?_, ?_, ?_⟩
  · rw [load, h]
    simp only [htree]
  · rw [load, events_writtenOut h]
    simp only [htree]
  · rw [hreads.whole?, Option.map_some, hdraft]

/-- A draft is loaded exactly if it is an element in which every token is well spelled, and it never
meets a fault. One that is refused is a token, which is named, or it is told about the first of its
tokens that is not well spelled. What is loaded is the draft with all texts written out, and this
one is loaded as the same tree, with the same numbers. -/
theorem load_exact (d : Draft) :
    (∃ result, d.load = .ok result) ∧
    ((∃ t, d.load = .ok (.ok t)) ↔ d.IsElement ∧ ∀ token ∈ d.tokens, WellSpelled token) ∧
    (∀ misfit, d.load = .ok (.error misfit) →
      (∃ kind text?, d = .token kind text? ∧ misfit = .tokenRoot kind) ∨
        d.IsElement ∧ misfit.TellsFirst d.tokens) ∧
    ∀ t, d.load = .ok (.ok t) →
      t.whole?.map Subtree.draft = some d.writtenOut ∧ d.writtenOut.load = .ok (.ok t) := by
  cases d with
  | token kind text? =>
    have hload : (token kind text?).load = .ok (.error (.tokenRoot kind)) := load_of_error rfl
    refine ⟨⟨_, hload⟩, ⟨?_, ?_⟩, ?_, ?_⟩
    · rintro ⟨t, ht⟩
      rw [hload] at ht
      cases Except.ok.inj ht
    · rintro ⟨⟨_, _, helement⟩, -⟩
      cases helement
    · intro misfit hmisfit
      rw [hload] at hmisfit
      exact .inl ⟨kind, text?, rfl, (Except.error.inj (Except.ok.inj hmisfit)).symm⟩
    · intro t ht
      rw [hload] at ht
      cases Except.ok.inj ht
  | element kind children =>
    have helement : (element kind children).IsElement := ⟨kind, children, rfl⟩
    rcases walk_cases (element kind children) with ⟨hspelled, events, hevents⟩ |
      ⟨misfit, htells, hevents⟩
    · obtain ⟨t, hload, hagain, hwhole⟩ :=
        load_of_events (show (element kind children).events = .ok events from hevents)
      refine ⟨⟨_, hload⟩, ⟨fun _ => ⟨helement, hspelled⟩, fun _ => ⟨t, hload⟩⟩, ?_, ?_⟩
      · intro misfit hmisfit
        rw [hload] at hmisfit
        cases Except.ok.inj hmisfit
      · intro t' ht'
        rw [hload] at ht'
        obtain rfl := Except.ok.inj (Except.ok.inj ht')
        exact ⟨hwhole, hagain⟩
    · have hload : (element kind children).load = .ok (.error misfit) := load_of_error hevents
      refine ⟨⟨_, hload⟩, ⟨?_, ?_⟩, ?_, ?_⟩
      · rintro ⟨t, ht⟩
        rw [hload] at ht
        cases Except.ok.inj ht
      · rintro ⟨-, hspelled⟩
        obtain ⟨before, token, after, htokens, -, htoken⟩ := htells
        exact absurd (hspelled token (by rw [htokens]; simp)) htoken.not_wellSpelled
      · intro misfit' hmisfit
        rw [hload] at hmisfit
        obtain rfl := Except.error.inj (Except.ok.inj hmisfit)
        exact .inr ⟨helement, htells⟩
      · intro t ht
        rw [hload] at ht
        cases Except.ok.inj ht

-- the keyword is left out, and the name behind it has no text
example : (element .fnItem [.token (.keyword .fnKw) none,
    .element .name [.token .ident none]]).load.toOption.map (·.toOption.isSome) = some false := by
  decide +kernel

end Draft

/-- Opening a text loads the draft that it holds: a misfit is handed on, and a tree is held with the
version, in the package that the text names. -/
theorem Service.openJson_of_load (s : Service) (doc : Doc) (version : Version) {text : String}
    {input : Exchange.DocumentInput} (h : Exchange.readDocument text = .ok input) :
    s.openJson doc version text = (do
      match ← Attempt.ofExcept input.draft.load with
      | .error misfit => pure (.error (.tree misfit))
      | .ok tree =>
        let held := s.withDocument doc { version, tree }
        let opened ← match input.package? with
          | none => pure held
          | some package => held.setPackage doc package
        pure (.ok opened)) := by
  cases hevents : input.draft.events with
  | error misfit =>
    simp only [openJson, h, Draft.load, hevents]
    rfl
  | ok events =>
    cases hbuilt : Tree.ofEvents events with
    | error fault =>
      simp only [openJson, h, Draft.load, hevents, openInput, hbuilt]
      rfl
    | ok tree =>
      simp only [openJson, h, Draft.load, hevents, openInput, hbuilt]
      cases input.package? <;> rfl

end DeclVisibility
