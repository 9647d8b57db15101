import DeclVisibility.Proofs.Json.Value

/-!
# Values that were read are not too deep

What is read of every entry holds of all that a loop reads (`forall_of_items`), and what every
member keeps the loop over members keeps (`inv_of_members`). So a value has no more levels than its
reader was told to go down (`levels_of_value`).
-/

namespace DeclVisibility.Json

theorem Read.map_eq_ok {α β : Type} {f : α → β} {read : Read α} {cs rest : List Char} {b : β} :
    Read.map f read cs = .ok (b, rest) ↔ ∃ a, read cs = .ok (a, rest) ∧ f a = b := by
  rw [Read.map]
  split
  · rename_i heq
    simp [heq]
  · rename_i heq
    simp only [heq, Except.ok.injEq, Prod.mk.injEq]
    constructor
    · rintro ⟨rfl, rfl⟩
      exact ⟨_, ⟨rfl, rfl⟩, rfl⟩
    · rintro ⟨a, ⟨rfl, rfl⟩, rfl⟩
      exact ⟨rfl, rfl⟩

theorem misshapen_ne_ok {α : Type} (cs : List Char) (result : α × List Char) :
    misshapen cs ≠ .ok result := by
  intro h
  rw [misshapen] at h
  split at h
  · cases h
  · split at h
    · cases h
    · split at h <;> cases h

theorem forall_of_items {α : Type} {read : Read α} {P : α → Prop}
    (each : ∀ cs a rest, read cs = .ok (a, rest) → P a) :
    ∀ {fuel : Nat} {first : Bool} {cs rest : List Char} {as : List α},
      items read fuel first cs = .ok (as, rest) → ∀ a ∈ as, P a
  | 0, _, _, _, _, h => by cases h
  | fuel + 1, first, cs, rest, as, h => by
    rw [items] at h
    split at h
    · cases h
    · obtain ⟨rfl, -⟩ := Prod.mk.inj (Except.ok.inj h)
      exact List.forall_mem_nil P
    · split at h
      · cases h
      · rename_i a _ hread
        split at h
        · cases h
        · rename_i others _ hothers
          obtain ⟨rfl, -⟩ := Prod.mk.inj (Except.ok.inj h)
          exact List.forall_mem_cons.mpr ⟨each _ _ _ hread, forall_of_items each hothers⟩

theorem inv_of_members {κ σ : Type} {key : Read κ} {plan : σ → κ → Except Cause (Read σ)}
    (inv : σ → Prop) (kept : ∀ gathered k read, plan gathered k = .ok read → inv gathered →
      ∀ cs after rest, read cs = .ok (after, rest) → inv after) :
    ∀ {fuel : Nat} {first : Bool} {gathered after : σ} {cs rest : List Char},
      members key plan fuel first gathered cs = .ok (after, rest) → inv gathered → inv after
  | 0, _, _, _, _, _, h, _ => by cases h
  | fuel + 1, first, gathered, after, cs, rest, h, hinv => by
    rw [members] at h
    split at h
    · cases h
    · obtain ⟨rfl, -⟩ := Prod.mk.inj (Except.ok.inj h)
      exact hinv
    · split at h
      · cases h
      · split at h
        · cases h
        · rename_i read hplan
          split at h
          · cases h
          · split at h
            · cases h
            · rename_i next _ hread
              exact inv_of_members inv kept h (kept _ _ _ hplan hinv _ _ _ hread)

theorem levels_of_map {α : Type} {f : α → Value} (flat : ∀ a, (f a).levels = 0) {read : Read α}
    {cs rest : List Char} {v : Value} (h : Read.map f read cs = .ok (v, rest)) : v.levels = 0 := by
  obtain ⟨a, -, rfl⟩ := Read.map_eq_ok.mp h
  exact flat a

theorem levels_of_scalar {cs rest : List Char} {v : Value} (h : scalar cs = .ok (v, rest)) :
    v.levels = 0 := by
  rw [scalar.eq_def] at h
  split at h
  · cases h
  · split at h
    · exact levels_of_map (fun _ => by rw [Value.levels]) h
    split at h
    · exact levels_of_map (fun _ => by rw [Value.levels]) h
    split at h
    · exact levels_of_map (fun _ => by rw [Value.levels]) h
    split at h
    · exact levels_of_map (fun _ => by rw [Value.levels]) h
    split at h
    · exact levels_of_map (fun _ => by rw [Value.levels]) h
    · cases h

/-- A value has at most as many levels as its reader goes down. -/
theorem levels_of_value : ∀ {depth : Nat} {cs rest : List Char} {v : Value},
    value depth cs = .ok (v, rest) → v.levels ≤ depth
  | 0, cs, rest, v, h => by
    rw [value.eq_1] at h
    split at h
    · cases h
    · cases h
    · exact Nat.le_of_eq (levels_of_scalar h)
  | depth + 1, cs, rest, v, h => by
    rw [value.eq_2] at h
    split at h
    · obtain ⟨items, hitems, rfl⟩ := Read.map_eq_ok.mp h
      rw [Value.levels_array_le]
      exact forall_of_items (fun _ _ _ => levels_of_value) hitems
    · obtain ⟨gathered, hmembers, rfl⟩ := Read.map_eq_ok.mp h
      rw [Value.levels_object_le]
      have hall : ∀ m ∈ gathered, m.2.levels ≤ depth := by
        refine inv_of_members (fun ms => ∀ m ∈ ms, m.2.levels ≤ depth) ?_ hmembers
          (List.forall_mem_nil _)
        intro before key read hplan hbefore cs after rest hread
        obtain rfl := Except.ok.inj hplan
        obtain ⟨w, hw, rfl⟩ := Read.map_eq_ok.mp hread
        exact List.forall_mem_cons.mpr ⟨levels_of_value hw, hbefore⟩
      exact fun m hm => hall m (List.mem_reverse.mp hm)
    · exact Nat.le_trans (Nat.le_of_eq (levels_of_scalar h)) (Nat.zero_le _)

end DeclVisibility.Json
