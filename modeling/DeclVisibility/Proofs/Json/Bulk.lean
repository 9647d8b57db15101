import DeclVisibility.Proofs.Json.Bytes

/-!
# The bytes of a value

A string takes up its own bytes and two quotes, a list its items and two brackets, and an object its
members, each with a quoted key and a colon, and two braces: `Value.bulk`, which no text of the value
undercuts (`spends_value`). So is it with the other shapes that a document is read in: optional
values, records in either form, and the values that are read over.
-/

namespace DeclVisibility.Json

variable {α : Type}

/-! ## Values -/

namespace Value

mutual
/-- The bytes that a value takes up at least: a string has quotes, a list brackets, and an object
braces, with a quoted key and a colon for each member. -/
def bulk : Value → Nat
  | null | bool _ | number _ => 0
  | string s => s.utf8ByteSize + 2
  | array items => bulkOfItems items + 2
  | object members => bulkOfMembers members + 2
/-- The bytes that items take up. -/
def bulkOfItems : List Value → Nat
  | [] => 0
  | item :: rest => item.bulk + bulkOfItems rest
/-- The bytes that members take up. -/
def bulkOfMembers : List (String × Value) → Nat
  | [] => 0
  | (key, value) :: rest => key.utf8ByteSize + 3 + value.bulk + bulkOfMembers rest
end

theorem bulkOfItems_eq : ∀ items : List Value, bulkOfItems items = totalCost bulk items
  | [] => rfl
  | item :: rest => by rw [bulkOfItems, bulkOfItems_eq rest, totalCost]

/-- The bytes that a member takes up. -/
def bulkOfMember (member : String × Value) : Nat := member.1.utf8ByteSize + 3 + member.2.bulk

theorem bulkOfMembers_eq : ∀ members : List (String × Value),
    bulkOfMembers members = totalCost bulkOfMember members
  | [] => rfl
  | (key, value) :: rest => by rw [bulkOfMembers, bulkOfMembers_eq rest, totalCost, bulkOfMember]

end Value

/-- What is read behind its first character, or behind the blanks, takes up a byte more with it. -/
theorem spends_scalar : scalar.Spends Value.bulk := by
  have hflat : ∀ {α : Type} {f : α → Value} (flat : ∀ a, (f a).bulk = 0) {read : Read α},
      read.Shrinks → ∀ {c : Char} {cs rest : List Char} {v : Value},
      Read.map f read cs = .ok (v, rest) → v.bulk + byteCount rest ≤ byteCount (c :: cs) := by
    intro α f flat read hshrinks c cs rest v h
    obtain ⟨a, ha, rfl⟩ := Read.map_eq_ok.mp h
    have hle := hshrinks _ _ _ ha
    rw [flat, byteCount_cons]
    omega
  intro cs v rest h
  rw [scalar.eq_def] at h
  split at h
  · cases h
  · rename_i c cs
    split at h
    · exact hflat (fun _ => by rw [Value.bulk]) (shrinks_word _) h
    split at h
    · exact hflat (fun _ => by rw [Value.bulk]) (shrinks_word _) h
    split at h
    · exact hflat (fun _ => by rw [Value.bulk]) (shrinks_word _) h
    split at h
    · obtain ⟨s, hs, rfl⟩ := Read.map_eq_ok.mp h
      have hle : s.utf8ByteSize + 1 + byteCount rest ≤ byteCount cs := spends_readText _ _ _ hs
      have hpos := c.utf8Size_pos
      rw [Value.bulk, byteCount_cons]
      omega
    split at h
    · obtain ⟨n, hn, rfl⟩ := Read.map_eq_ok.mp h
      have hle := shrinks_readNumber _ _ _ hn
      rw [Value.bulk]
      omega
    · cases h

/-- A value takes up its bulk. -/
theorem spends_value : ∀ depth, (value depth).Spends Value.bulk
  | 0 => by
    intro cs v rest h
    rw [value.eq_1] at h
    split at h
    · cases h
    · cases h
    · exact Nat.le_trans (spends_scalar _ _ _ h) (byteCount_skipGap cs)
  | depth + 1 => by
    intro cs v rest h
    rw [value.eq_2] at h
    split at h
    · rename_i hskip
      obtain ⟨items, hitems, rfl⟩ := Read.map_eq_ok.mp h
      have hfirst := byteCount_of_skipGap hskip
      have hle : totalCost Value.bulk items + 1 + byteCount rest ≤ byteCount _ :=
        spends_list (spends_value depth) _ _ _ hitems
      rw [Value.bulk, Value.bulkOfItems_eq]
      omega
    · rename_i hskip
      obtain ⟨gathered, hgathered, rfl⟩ := Read.map_eq_ok.mp h
      have hfirst := byteCount_of_skipGap hskip
      have hle := size_of_object (totalCost Value.bulkOfMember) spends_readText ?_ hgathered
      · rw [Value.bulk, Value.bulkOfMembers_eq, totalCost_reverse]
        rw [totalCost] at hle
        omega
      · intro gathered key read hplan cs after rest hread
        obtain rfl := Except.ok.inj hplan
        obtain ⟨w, hw, rfl⟩ := Read.map_eq_ok.mp hread
        have hone := spends_value depth _ _ _ hw
        simp only [totalCost, Value.bulkOfMember]
        omega
    · exact Nat.le_trans (spends_scalar _ _ _ h) (byteCount_skipGap cs)

/-! ## Other shapes -/

theorem shrinks_skipScalar : skipScalar.Shrinks := by
  intro cs a rest h
  rw [skipScalar.eq_def] at h
  split at h
  · cases h
  · rename_i c cs
    have hbehind : ∀ {read : Read Unit}, read.Shrinks → read cs = .ok (a, rest) →
        byteCount rest ≤ byteCount (c :: cs) := fun hread h =>
      Nat.le_trans (hread _ _ _ h) (Nat.le_add_left _ _)
    split at h
    · exact hbehind (shrinks_word _) h
    split at h
    · exact hbehind (shrinks_word _) h
    split at h
    · exact hbehind (shrinks_word _) h
    split at h
    · exact hbehind shrinks_skipText h
    split at h
    · exact shrinks_skipNumber _ _ _ h
    · cases h

theorem shrinks_skipNested : ∀ fuel, (skipNested fuel).Shrinks
  | 0 => by
    intro cs a rest h
    rw [skipNested.eq_1] at h
    split at h
    · cases h
    · cases h
    · exact Nat.le_trans (shrinks_skipScalar _ _ _ h) (byteCount_skipGap cs)
  | fuel + 1 => by
    intro cs a rest h
    rw [skipNested.eq_2] at h
    split at h
    · rename_i hskip
      have hfirst := byteCount_of_skipGap hskip
      have hle := (shrinks_list (shrinks_skipNested fuel)).map _ _ _ _ h
      omega
    · rename_i hskip
      have hfirst := byteCount_of_skipGap hskip
      have hle := shrinks_object shrinks_skipText ?_ () _ _ _ h
      · omega
      · intro _ _ read hread
        obtain rfl := Except.ok.inj hread
        exact shrinks_skipNested fuel
    · exact Nat.le_trans (shrinks_skipScalar _ _ _ h) (byteCount_skipGap cs)

theorem shrinks_skipValue : skipValue.Shrinks := fun cs => shrinks_skipNested cs.length cs

theorem shrinks_string : string.Shrinks := by
  intro cs s rest h
  rw [string] at h
  split at h
  · rename_i hskip
    have hle := spends_readText.shrinks _ _ _ h
    have hfirst := byteCount_of_skipGap hskip
    omega
  · exact absurd h (misshapen_ne_ok _ _)

theorem shrinks_optional {read : Read α} (hread : read.Shrinks) : (optional read).Shrinks := by
  intro cs a rest h
  rw [optional] at h
  split at h
  · rename_i hskip
    have hle := (shrinks_word _).map _ _ _ _ h
    have hfirst := byteCount_of_skipGap hskip
    omega
  · exact Nat.le_trans (hread.map _ _ _ _ h) (byteCount_skipGap cs)

/-- A field of a record that is written as a list takes up what its value does. If there is none,
the closing bracket is left. -/
theorem spends_field {read : Read α} {cost : α → Nat} (hread : read.Spends cost) (first : Bool) :
    (field read first).Spends fun a? => (a?.map cost).getD 0 := by
  intro cs a? rest h
  rw [field] at h
  split at h
  · cases h
  · rename_i hnext
    obtain ⟨rfl, rfl⟩ := Prod.mk.inj (Except.ok.inj h)
    have hle := byteCount_of_nextItem_done hnext
    simpa using hle
  · rename_i hnext
    obtain ⟨a, ha, rfl⟩ := Read.map_eq_ok.mp h
    exact Nat.le_trans (hread _ _ _ ha) (byteCount_of_nextItem_entry hnext)

theorem shrinks_field {read : Read α} (hread : read.Shrinks) (first : Bool) :
    (field read first).Shrinks :=
  (spends_field hread.spends first).shrinks

theorem spends_closeRecord : closeRecord.Spends fun _ => 1 := by
  intro cs a rest h
  rw [closeRecord] at h
  split at h
  · cases h
  · rename_i hskip
    split at h
    · obtain ⟨-, rfl⟩ := Prod.mk.inj (Except.ok.inj h)
      rw [Nat.add_comm]
      exact byteCount_of_skipGap hskip
    · cases h

/-- A record takes up what it does in either form, and the opening bracket or brace one. -/
theorem spends_record {asList asObject : Nat → Read α} {cost : α → Nat}
    (hlist : ∀ depth, (asList depth).Spends cost) (hobject : ∀ depth, (asObject depth).Spends cost)
    (depth : Nat) : (record asList asObject depth).Spends fun a => cost a + 1 := by
  intro cs a rest h
  show cost a + 1 + byteCount rest ≤ byteCount cs
  rw [record] at h
  split at h
  · rename_i hskip
    have hfirst := byteCount_of_skipGap hskip
    cases depth with
    | zero => cases h
    | succ inner =>
      have hle := hlist inner _ _ _ h
      omega
  · rename_i hskip
    have hfirst := byteCount_of_skipGap hskip
    cases depth with
    | zero => cases h
    | succ inner =>
      have hle := hobject inner _ _ _ h
      omega
  · exact absurd h (misshapen_ne_ok _ _)

/-- What was read as a whole takes up no more than the text. -/
theorem cost_le_of_whole {read : Read α} {cost : α → Nat} (hread : read.Spends cost)
    {text : String} {a : α} (h : whole read text = .ok a) : cost a ≤ text.utf8ByteSize := by
  rw [whole] at h
  split at h
  · cases h
  · rename_i found rest hfound
    split at h
    · obtain rfl := Except.ok.inj h
      have hle := hread _ _ _ hfound
      rw [byteCount_toList] at hle
      omega
    · cases h

end DeclVisibility.Json
