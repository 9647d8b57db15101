import DeclVisibility.Proofs.Outcome

/-!
# Computations that break nothing

Two of the reports say that a tree is broken (`Report.isBreach`): a node names a parent that does
not list it, or a declaration of the tree has no position. A computation is clean if it makes
neither (`Logged.Clean`), and an attempt succeeds if it gives a value and is clean on the way
(`Attempt.Succeeds`). Both are put together from their parts, one lemma for each way to build a
computation; the later part of an attempt has to succeed only on what the earlier one gives.
-/

namespace DeclVisibility

/-- Whether the report says that a tree is broken. -/
def Report.isBreach : Report → Bool
  | brokenLink _ _ | unreachableDeclaration _ => true
  | _ => false

variable {α β : Type}

namespace Logged

/-- No report of the computation says that a tree is broken. -/
def Clean (x : Logged α) : Prop := ∀ r ∈ x.reports, r.isBreach = false

theorem Clean.pure (a : α) : (Pure.pure a : Logged α).Clean := fun _ h => nomatch h

theorem Clean.report {r : Report} (h : r.isBreach = false) : (Logged.report r).Clean := by
  intro other hother
  rw [reports_report, List.mem_singleton] at hother
  rw [hother, h]

theorem Clean.bind {x : Logged α} {next : α → Logged β} (hx : x.Clean)
    (hnext : (next x.value).Clean) : (x >>= next).Clean := by
  intro r hr
  rw [reports_bind, List.mem_append] at hr
  rcases hr with hr | hr
  · exact hx r hr
  · exact hnext r hr

end Logged

namespace Attempt

/-- The attempt gives a value, and no report on the way says that a tree is broken. -/
structure Succeeds (x : Attempt α) : Prop where
  value : ∃ a, x.outcome.value = .ok a
  clean : x.outcome.Clean

namespace Succeeds

theorem pure (a : α) : (Pure.pure a : Attempt α).Succeeds := ⟨⟨a, rfl⟩, .pure _⟩

theorem ofLogged {x : Logged α} (h : x.Clean) : (Attempt.ofLogged x).Succeeds := by
  refine ⟨⟨x.value, value_ofLogged x⟩, ?_⟩
  rw [outcome_ofLogged]
  exact h

theorem ofExcept {x : Except Fault α} (h : ∃ a, x = .ok a) : (Attempt.ofExcept x).Succeeds :=
  ⟨h, fun _ hr => nomatch hr⟩

theorem bind {x : Attempt α} {next : α → Attempt β} (hx : x.Succeeds)
    (hnext : ∀ a, x.outcome.value = .ok a → (next a).Succeeds) : (x >>= next).Succeeds := by
  obtain ⟨a, ha⟩ := hx.value
  obtain ⟨⟨b, hb⟩, hclean⟩ := hnext a ha
  refine ⟨⟨b, by rw [value_bind_of_ok ha, hb]⟩, ?_⟩
  intro r hr
  rw [outcome_bind, ha] at hr
  rcases List.mem_append.mp hr with hr | hr
  · exact hx.clean r hr
  · exact hclean r hr

end Succeeds

end Attempt

end DeclVisibility
