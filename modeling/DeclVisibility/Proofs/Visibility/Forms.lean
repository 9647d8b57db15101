import DeclVisibility.Proofs.Tree.Lasting
import DeclVisibility.Proofs.Visibility

/-!
# The written forms of a visibility

A visibility is written as `pub`, or as `pub` and a restriction in parentheses, with spaces and
comments anywhere (`Visibility.WrittenAs`). What is written in this way reads as the visibility that
it was written for (`Visibility.WrittenAs.read`): the tokens that carry meaning are the form itself,
what comes before its parenthesis is passed over, and a path ends at the first parenthesis that
closes.
-/

namespace DeclVisibility

/-! ## Forms -/

/-- The tokens between the parentheses that write a restriction. A path is any tokens that carry
meaning and do not close a parenthesis. -/
inductive Restriction.Form : Restriction → List Token → Prop
  | crate {token : Token} (h : token.kind = .keyword .crateKw) : Form .crate [token]
  | super {token : Token} (h : token.kind = .keyword .superKw) : Form .super [token]
  | selfMod {token : Token} (h : token.kind = .keyword .selfKw) : Form .selfMod [token]
  | inPath {token : Token} {path : List Token} (h : token.kind = .keyword .inKw)
      (meant : ∀ part ∈ path, part.kind.isTrivia = false)
      (inside : ∀ part ∈ path, part.kind ≠ .punct .rightParen) :
      Form (.inPath (String.join (path.map (·.text)))) (token :: path)

/-- The tokens that write a visibility, without spaces and comments. -/
inductive Visibility.Form : Visibility → List Token → Prop
  | pub {word : Token} (hword : word.kind = .keyword .pubKw) : Form .pub [word]
  | restricted {restriction : Restriction} {word opening closing : Token} {inner : List Token}
      (hword : word.kind = .keyword .pubKw) (hopening : opening.kind = .punct .leftParen)
      (hinner : restriction.Form inner) (hclosing : closing.kind = .punct .rightParen) :
      Form (.restricted restriction) (word :: opening :: (inner ++ [closing]))

/-- Tokens with any spaces and comments before, between and after them. -/
inductive Spaced : List Token → List Token → Prop
  | nil : Spaced [] []
  | trivia {core tokens : List Token} {token : Token}
      (h : token.kind = .space ∨ token.kind = .comment) (rest : Spaced core tokens) :
      Spaced core (token :: tokens)
  | core {core tokens : List Token} (token : Token) (rest : Spaced core tokens) :
      Spaced (token :: core) (token :: tokens)

/-- The tokens write the visibility, with spaces and comments anywhere. -/
def Visibility.WrittenAs (v : Visibility) (tokens : List Token) : Prop :=
  ∃ core, v.Form core ∧ Spaced core tokens

/-! ## Reading a form -/

theorem Spaced.refl : ∀ tokens : List Token, Spaced tokens tokens
  | [] => .nil
  | token :: rest => .core token (Spaced.refl rest)

/-- Spaces and comments are all that is filtered out. -/
theorem Spaced.filter_eq {core tokens : List Token} (h : Spaced core tokens)
    (meant : ∀ token ∈ core, token.kind.isTrivia = false) :
    (tokens.filter fun token => !token.kind.isTrivia) = core := by
  induction h with
  | nil => rfl
  | trivia hkind rest ih =>
    rw [List.filter_cons_of_neg, ih meant]
    rcases hkind with hkind | hkind <;> rw [hkind] <;> decide
  | core token rest ih =>
    rw [List.forall_mem_cons] at meant
    rw [List.filter_cons_of_pos, ih meant.2]
    rw [meant.1]
    rfl

variable {tokens : List Token}

theorem Restriction.Form.meant {r : Restriction} (h : r.Form tokens) :
    ∀ token ∈ tokens, token.kind.isTrivia = false := by
  cases h with
  | crate h | super h | selfMod h =>
    rw [List.forall_mem_singleton, h]
    rfl
  | inPath h meant =>
    rw [List.forall_mem_cons, h]
    exact ⟨rfl, meant⟩

theorem Visibility.Form.meant {v : Visibility} (h : v.Form tokens) :
    ∀ token ∈ tokens, token.kind.isTrivia = false := by
  cases h with
  | pub hword =>
    rw [List.forall_mem_singleton, hword]
    rfl
  | restricted hword hopening hinner hclosing =>
    rw [List.forall_mem_cons, List.forall_mem_cons, List.forall_mem_append,
      List.forall_mem_singleton, hword, hopening, hclosing]
    exact ⟨rfl, rfl, hinner.meant, rfl⟩

/-- What stands between the parentheses reads as the restriction, whatever comes after it. -/
theorem Restriction.Form.read {r : Restriction} (h : r.Form tokens) {closing : Token}
    (hclosing : closing.kind = .punct .rightParen) (rest : List Token) :
    Restriction.ofTokens (tokens ++ closing :: rest) = pure (.restricted r) := by
  cases h with
  | crate h | super h | selfMod h =>
    simp only [List.cons_append, Restriction.ofTokens, h]
  | @inPath token path h meant inside =>
    have hpath : ((path ++ closing :: rest).takeWhile fun part => part.kind != .punct .rightParen) =
        path := by
      rw [List.takeWhile_append_of_pos, List.takeWhile_cons_of_neg, List.append_nil]
      · simp [hclosing]
      · simpa using inside
    simp only [List.cons_append, Restriction.ofTokens, h, hpath]

/-- What is written for a visibility reads as the visibility, without a report. -/
theorem Visibility.WrittenAs.read {v : Visibility} (h : v.WrittenAs tokens) :
    Visibility.ofTokens tokens = pure v := by
  obtain ⟨core, hform, hspaced⟩ := h
  rw [Visibility.ofTokens, hspaced.filter_eq hform.meant]
  cases hform with
  | pub hword =>
    rw [List.dropWhile_cons_of_pos (by simp [hword])]
    rfl
  | restricted hword hopening hinner hclosing =>
    rw [List.dropWhile_cons_of_pos (by simp [hword]),
      List.dropWhile_cons_of_neg (by simp [hopening]), List.drop_one, List.tail_cons,
      hinner.read hclosing]

/-- The fixed tokens of a scope write its visibility. -/
theorem Scope.writtenAs (scope : Scope) (parent? : Option ElementId) :
    scope.visibility.WrittenAs
      (scope.kinds.map fun kind => ⟨kind, kind.spelling?.getD "", parent?⟩) := by
  refine ⟨_, ?_, Spaced.refl _⟩
  cases scope with
  | pub => exact .pub rfl
  | crateOnly => exact .restricted rfl rfl (.crate rfl) rfl

/-! ## Declarations -/

namespace Forest

/-- A declaration has the visibility that is written in its first visibility element. -/
theorem visibilityOf_eq_of_writtenAs {f : Forest} {decl vis : ElementId} {v : Visibility}
    (hvis : f.childElement? decl .vis = some vis) (written : v.WrittenAs (f.tokenChildren vis)) :
    f.visibilityOf decl = pure v := by
  rw [visibilityOf, hvis]
  exact written.read

/-- A declaration is private exactly if it has no visibility element. -/
theorem visibilityOf_eq_priv_iff {f : Forest} {decl : ElementId} :
    (f.visibilityOf decl).value = .priv ↔
      ∀ child, .element child ∈ f.children decl → f.elementKind? child ≠ some .vis := by
  have hpriv := f.isPrivate_visibilityOf decl
  rw [Visibility.isPrivate, beq_iff_eq] at hpriv
  rw [hpriv, childElement?, List.find?_eq_none]
  constructor
  · intro hnone child hchild
    have hmem : child ∈ f.elementChildren decl := List.mem_filterMap.mpr ⟨_, hchild, rfl⟩
    simpa using hnone child hmem
  · intro hnone child hchild
    simpa using hnone child (mem_children_of_elementChildren hchild)

/-- Reading undoes writing. What is written in the first visibility element of a declaration, with
spaces and comments anywhere, is the visibility of the declaration, which is private exactly if it
has no such element. Every forest takes a new visibility element, which is written as its scope; and
from then on, through every growth that puts nothing into the element, a declaration that has it as
its first visibility element has the visibility of the scope. -/
theorem visibility_as_written (f : Forest) (decl : ElementId) :
    (∀ vis v, f.childElement? decl .vis = some vis → Visibility.WrittenAs v (f.tokenChildren vis) →
      f.visibilityOf decl = pure v) ∧
    ((f.visibilityOf decl).value = .priv ↔
      ∀ child, .element child ∈ f.children decl → f.elementKind? child ≠ some .vis) ∧
    ∀ scope, ∃ vis g, f.addVisibility scope = .ok (vis, g) ∧
      scope.visibility.WrittenAs (g.tokenChildren vis) ∧
      ∀ changes h, grown? changes g = some h → (∀ change ∈ changes, change.into? ≠ some vis) →
        ∀ owner, h.childElement? owner .vis = some vis →
          h.visibilityOf owner = pure scope.visibility := by
  refine ⟨fun vis v => visibilityOf_eq_of_writtenAs, visibilityOf_eq_priv_iff, fun scope => ?_⟩
  obtain ⟨vis, g, hadd, owns, htokens⟩ := f.addVisibility_owns scope
  have hwritten : scope.visibility.WrittenAs (g.tokenChildren vis) := by
    rw [htokens]
    exact scope.writtenAs (some vis)
  refine ⟨vis, g, hadd, hwritten, fun changes h grown apart owner hvis => ?_⟩
  apply visibilityOf_eq_of_writtenAs hvis
  rw [tokenChildren_grown owns grown apart]
  exact hwritten

end Forest

/-- The visibility `pub(in a::b)`, written with spaces and a comment. -/
def Visibility.spacedPath : List (TokenKind × String) :=
  [(.keyword .pubKw, "pub"), (.space, " "), (.punct .leftParen, "("), (.comment, "/*)*/"),
    (.keyword .inKw, "in"), (.space, " "), (.ident, "a"), (.punct .colonColon, "::"), (.space, " "),
    (.ident, "b"), (.punct .rightParen, ")"), (.space, " ")]

theorem Visibility.writtenAs_spacedPath (parent? : Option ElementId) :
    (Visibility.restricted (.inPath "a::b")).WrittenAs
      (spacedPath.map fun part => ⟨part.1, part.2, parent?⟩) := by
  let path : List Token :=
    [⟨.ident, "a", parent?⟩, ⟨.punct .colonColon, "::", parent?⟩, ⟨.ident, "b", parent?⟩]
  have hpath : Restriction.Form (.inPath (String.join (path.map (·.text))))
      (⟨.keyword .inKw, "in", parent?⟩ :: path) :=
    .inPath rfl (by simp [path, TokenKind.isTrivia]) (by simp [path])
  have htext : String.join (path.map (·.text)) = "a::b" := rfl
  rw [htext] at hpath
  exact ⟨_, .restricted rfl rfl hpath rfl,
    .core _ <| .trivia (.inl rfl) <| .core _ <| .trivia (.inr rfl) <| .core _ <|
      .trivia (.inl rfl) <| .core _ <| .core _ <| .trivia (.inl rfl) <| .core _ <| .core _ <|
      .trivia (.inl rfl) .nil⟩

/-- A function with that visibility and a structure that is private. -/
def Draft.pathVisible : Draft :=
  .element .sourceFile
    [.element .fnItem
      [.element .vis (Visibility.spacedPath.map fun part => .token part.1 (some part.2)),
        .token .ident (some "f")],
      .element .structItem [.token .ident (some "S")]]

theorem Forest.visibility_as_written_sample : ∃ t vis g h, Draft.pathVisible.load = .ok (.ok t) ∧
    t.visibilityOf ⟨1⟩ = pure (.restricted (.inPath "a::b")) ∧ (t.visibilityOf ⟨2⟩).value = .priv ∧
    t.addVisibility .crateOnly = .ok (vis, g) ∧
    Forest.grown? [.space, .insert ⟨2⟩ (.element vis) (.token ⟨13⟩)] g = some h ∧
    h.visibilityOf ⟨2⟩ = pure (.restricted .crate) := by
  have hload : ∃ t, Draft.pathVisible.load = .ok (.ok t) ∧
      (decide (t.childElement? ⟨1⟩ .vis = some ⟨0⟩ ∧ t.children ⟨2⟩ = [.token ⟨13⟩] ∧
        t.tokenChildren ⟨0⟩ = Visibility.spacedPath.map fun part => ⟨part.1, part.2, some ⟨0⟩⟩) &&
        match t.addVisibility .crateOnly with
        | .ok (vis, g) => (Forest.grown? [.space, .insert ⟨2⟩ (.element vis) (.token ⟨13⟩)] g).any
          fun h => decide (vis ≠ ⟨2⟩ ∧ h.childElement? ⟨2⟩ .vis = some vis)
        | .error _ => false) = true :=
    Draft.exists_loaded (by decide +kernel)
  obtain ⟨t, hload, hseen⟩ := hload
  rw [Bool.and_eq_true, decide_eq_true_eq] at hseen
  obtain ⟨⟨hvis, hchildren, htokens⟩, hgrown⟩ := hseen
  obtain ⟨hread, -, -⟩ := Forest.visibility_as_written t.toForest ⟨1⟩
  obtain ⟨-, hpriv, hadded⟩ := Forest.visibility_as_written t.toForest ⟨2⟩
  obtain ⟨vis, g, hadd, -, hlasts⟩ := hadded .crateOnly
  rw [hadd] at hgrown
  obtain ⟨h, hh, hhung⟩ := (Option.any_eq_true _ _).mp hgrown
  obtain ⟨hne, howner⟩ := of_decide_eq_true hhung
  refine ⟨t, vis, g, h, hload, hread ⟨0⟩ _ hvis ?_, hpriv.mpr ?_, hadd, hh, ?_⟩
  · rw [htokens]
    exact Visibility.writtenAs_spacedPath _
  · rw [hchildren]
    simp
  · exact hlasts _ h hh (by simp [Change.into?, Ne.symm hne]) ⟨2⟩ howner

end DeclVisibility
