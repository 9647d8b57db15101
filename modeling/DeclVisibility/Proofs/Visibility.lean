import DeclVisibility.Proofs.Tree.Reading
import DeclVisibility.Visibility

/-!
# Reading and writing visibilities

A declaration is private exactly if it has no visibility element, since what is written in one
never reads as private (`Forest.isPrivate_visibilityOf`). The tokens that write a scope
(`Scope.Writes`) read as that scope (`Scope.Writes.read`), are spelled as their kinds demand, and
have the text `Scope.text`. Adding them to a forest makes one more top (`MadeOf.addVisibility`).
-/

namespace DeclVisibility

/-! ## Reading -/

theorem Restriction.ofTokens_ne_priv (tokens : List Token) :
    (Restriction.ofTokens tokens).value ≠ .priv := by
  cases tokens with
  | nil =>
    rw [Restriction.ofTokens]
    exact fun h => by cases h
  | cons first rest =>
    rw [Restriction.ofTokens]
    split <;> exact fun h => by cases h

theorem Visibility.ofTokens_ne_priv (tokens : List Token) :
    (Visibility.ofTokens tokens).value ≠ .priv :=
  Restriction.ofTokens_ne_priv _

/-- The token by itself, whatever it hangs in. -/
def Token.loose (token : Token) : Token := { token with parent := none }

theorem Restriction.ofTokens_loose (tokens : List Token) :
    (Restriction.ofTokens (tokens.map Token.loose)).value =
      (Restriction.ofTokens tokens).value := by
  cases tokens with
  | nil => rfl
  | cons first rest =>
    have hpath : ((rest.map Token.loose).takeWhile fun token =>
        token.kind != .punct .rightParen).map (·.text) =
          (rest.takeWhile fun token => token.kind != .punct .rightParen).map (·.text) := by
      rw [List.takeWhile_map, List.map_map]
      rfl
    simp only [List.map_cons, Restriction.ofTokens, hpath]
    rfl

/-- Only the kinds and texts of the tokens that carry meaning are read. -/
theorem Visibility.ofTokens_eq (tokens : List Token) : (Visibility.ofTokens tokens).value =
    (Visibility.ofTokens ((tokens.filter fun token => !token.kind.isTrivia).map
      Token.loose)).value := by
  have hkept : (fun token : Token => !token.kind.isTrivia) ∘ Token.loose =
      fun token => !token.kind.isTrivia := rfl
  rw [Visibility.ofTokens, Visibility.ofTokens, List.filter_map, hkept, List.filter_filter]
  simp only [Bool.and_self]
  rw [List.dropWhile_map, ← List.map_drop, Restriction.ofTokens_loose]
  rfl

/-- A declaration is private exactly if no visibility is written in it. -/
theorem Forest.isPrivate_visibilityOf (f : Forest) (decl : ElementId) :
    (f.visibilityOf decl).value.isPrivate = true ↔ f.childElement? decl .vis = none := by
  rw [Forest.visibilityOf, Visibility.isPrivate, beq_iff_eq]
  cases f.childElement? decl .vis with
  | none => simp
  | some vis => simpa using Visibility.ofTokens_ne_priv _

/-! ## Writing -/

namespace Scope

/-- The text that is written for a scope. -/
def text : Scope → String
  | pub => "pub"
  | crateOnly => "pub(crate)"

/-- Whether these tokens write the scope: the right kinds in the right order, each spelled as it is
fixed. -/
def Writes (scope : Scope) (leaves : List Leaf) : Prop :=
  leaves.map (fun leaf => (leaf.kind, leaf.text)) =
    scope.kinds.map fun kind => (kind, kind.spelling?.getD "")

variable {scope : Scope} {leaves : List Leaf}

theorem Writes.text (h : scope.Writes leaves) : Subtree.textOfLeaves leaves = scope.text := by
  have htexts : leaves.map (·.text) = scope.kinds.map fun kind => kind.spelling?.getD "" := by
    have hsnd := congrArg (List.map Prod.snd) h
    simpa [List.map_map, Function.comp_def] using hsnd
  rw [Subtree.textOfLeaves, htexts]
  cases scope <;> rfl

theorem Writes.spells (h : scope.Writes leaves) : ∀ leaf ∈ leaves, leaf.kind.Spells leaf.text := by
  intro leaf hleaf
  have hmem : (leaf.kind, leaf.text) ∈ scope.kinds.map fun kind => (kind, kind.spelling?.getD "") := by
    rw [← h]
    exact List.mem_map_of_mem hleaf
  obtain ⟨kind, -, heq⟩ := List.mem_map.mp hmem
  obtain ⟨rfl, htext⟩ := Prod.mk.inj heq
  intro spelling hspelling
  rw [← htext, hspelling, Option.getD_some]

/-- What is written for a scope reads as the scope, whatever the tokens hang in. -/
theorem Writes.read (h : scope.Writes leaves) (parent? : Option ElementId) :
    (Visibility.ofTokens (leaves.map fun leaf => ⟨leaf.kind, leaf.text, parent?⟩)).value =
      scope.visibility := by
  -- the tokens differ from the fixed ones in nothing that is read
  have htokens : leaves.map (fun leaf => (⟨leaf.kind, leaf.text, parent?⟩ : Token)) =
      scope.kinds.map fun kind => ⟨kind, kind.spelling?.getD "", parent?⟩ := by
    have hpairs := congrArg (List.map fun x => (⟨x.1, x.2, parent?⟩ : Token)) h
    simpa [List.map_map, Function.comp_def] using hpairs
  rw [htokens]
  cases scope <;> rfl

end Scope

namespace Forest

variable {f : Forest} {tops : List Subtree}

/-- Tokens of fixed spelling join a forest as tops of their own. -/
theorem MadeOf.addFixedTokens : ∀ (kinds : List TokenKind) {f : Forest} {tops : List Subtree},
    f.MadeOf tops → ∃ leaves : List Leaf,
      (Forest.addFixedTokens kinds f).1 = (leaves.map Subtree.token).map Subtree.id ∧
      leaves.map (fun leaf => (leaf.kind, leaf.text)) =
        kinds.map (fun kind => (kind, kind.spelling?.getD "")) ∧
      (Forest.addFixedTokens kinds f).2.MadeOf (leaves.map Subtree.token ++ tops)
  | [], _, _, h => ⟨[], rfl, rfl, h⟩
  | kind :: rest, f, tops, h => by
    have hfirst := h.addToken kind (kind.spelling?.getD "")
    obtain ⟨leaves, hids, hkinds, hmade⟩ := MadeOf.addFixedTokens rest hfirst
    refine ⟨⟨(f.addToken kind (kind.spelling?.getD "")).1, kind, kind.spelling?.getD ""⟩ :: leaves,
      ?_, ?_, ?_⟩
    · rw [Forest.addFixedTokens, List.map_cons, List.map_cons, ← hids]
      rfl
    · rw [List.map_cons, List.map_cons, hkinds]
    · exact hmade.perm List.perm_middle

/-- A visibility that writes a scope joins a forest as a top of its own. -/
theorem MadeOf.addVisibility (h : f.MadeOf tops) (scope : Scope) :
    ∃ vis leaves g, f.addVisibility scope = .ok (vis, g) ∧ scope.Writes leaves ∧
      g.MadeOf (.element vis .vis (leaves.map Subtree.token) :: tops) := by
  obtain ⟨leaves, hids, hwrites, hmade⟩ := MadeOf.addFixedTokens scope.kinds h
  obtain ⟨g, hadd, hg⟩ := hmade.addElement .vis
  rw [← hids] at hadd
  exact ⟨_, leaves, g, hadd, hwrites, hg⟩

end Forest

end DeclVisibility
