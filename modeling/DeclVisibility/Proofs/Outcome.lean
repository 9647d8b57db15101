import DeclVisibility.Report

/-!
# What an attempt comes to

The value of an attempt, its reports left aside: how it comes about from the values of the parts
(`Attempt.value_bind_eq_ok`). A later part runs only on what the earlier one gave, so an attempt
that gives a value is taken apart from the front.
-/

namespace DeclVisibility

/-- What is seen of a value shows that there is one. -/
theorem exists_ok_of_seen {ε α β : Type} {x : Except ε α} {see : α → β} {seen : β}
    (h : x.toOption.map see = some seen) : ∃ a, x = .ok a ∧ see a = seen := by
  cases x with
  | error cause => cases h
  | ok a => exact ⟨a, rfl, Option.some.inj h⟩

namespace Attempt

variable {α β : Type}

@[simp] theorem value_pure (a : α) : (pure a : Attempt α).outcome.value = .ok a := rfl

@[simp] theorem value_ofLogged (x : Logged α) : (ofLogged x).outcome.value = .ok x.value := by
  rw [outcome_ofLogged]

@[simp] theorem value_ofExcept (x : Except Fault α) : (ofExcept x).outcome.value = x := rfl

/-- Two parts give a value exactly if the first gives one and the second does on it. -/
theorem value_bind_eq_ok {x : Attempt α} {next : α → Attempt β} {b : β} :
    (x >>= next).outcome.value = .ok b ↔
      ∃ a, x.outcome.value = .ok a ∧ (next a).outcome.value = .ok b := by
  rw [outcome_bind]
  cases h : x.outcome.value with
  | ok a => simp
  | error fault => simp

/-- After a part that gives a value, the whole is what the rest gives on it. -/
theorem value_bind_of_ok {x : Attempt α} {next : α → Attempt β} {a : α}
    (h : x.outcome.value = .ok a) :
    (x >>= next).outcome.value = (next a).outcome.value := by
  rw [outcome_bind, h]

/-- After a part that meets a fault, nothing more is done. -/
theorem value_bind_of_error {x : Attempt α} {next : α → Attempt β} {fault : Fault}
    (h : x.outcome.value = .error fault) : (x >>= next).outcome.value = .error fault := by
  rw [outcome_bind, h]

end Attempt

end DeclVisibility
