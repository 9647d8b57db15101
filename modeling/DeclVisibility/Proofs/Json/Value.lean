import DeclVisibility.Json.Printer
import DeclVisibility.Json.Reader
import DeclVisibility.Proofs.Json.Text

/-!
# Written values read back

A value without numbers, written with an entry per line, reads as itself, provided that the reader
is told to go as deep as the value is nested (`value_prettyChars`). The loops over items and over
members take one round for each entry (`items_prettyItems`, `members_prettyMembers`), and the text
has a character for each round at least.
-/

namespace DeclVisibility.Json

namespace Value

mutual
/-- How many lists and objects are nested in each other, the value included. -/
def levels : Value → Nat
  | array items => levelsOfItems items + 1
  | object members => levelsOfMembers members + 1
  | null | bool _ | number _ | string _ => 0
/-- The most levels among items. -/
def levelsOfItems : List Value → Nat
  | [] => 0
  | item :: rest => max item.levels (levelsOfItems rest)
/-- The most levels among the values of members. -/
def levelsOfMembers : List (String × Value) → Nat
  | [] => 0
  | (_, value) :: rest => max value.levels (levelsOfMembers rest)
end

theorem levelsOfItems_le {n : Nat} : ∀ {items : List Value},
    levelsOfItems items ≤ n ↔ ∀ v ∈ items, v.levels ≤ n
  | [] => by simp [levelsOfItems]
  | item :: rest => by
    rw [levelsOfItems, Nat.max_le, levelsOfItems_le, List.forall_mem_cons]

theorem levelsOfMembers_le {n : Nat} : ∀ {members : List (String × Value)},
    levelsOfMembers members ≤ n ↔ ∀ m ∈ members, m.2.levels ≤ n
  | [] => by simp [levelsOfMembers]
  | (key, value) :: rest => by
    rw [levelsOfMembers, Nat.max_le, levelsOfMembers_le, List.forall_mem_cons]

theorem levels_array_le {n : Nat} {items : List Value} :
    (array items).levels ≤ n + 1 ↔ ∀ v ∈ items, v.levels ≤ n := by
  rw [levels, Nat.add_le_add_iff_right, levelsOfItems_le]

theorem levels_object_le {n : Nat} {members : List (String × Value)} :
    (object members).levels ≤ n + 1 ↔ ∀ m ∈ members, m.2.levels ≤ n := by
  rw [levels, Nat.add_le_add_iff_right, levelsOfMembers_le]

/-- No number is in the value. -/
inductive Numberless : Value → Prop
  | null : Numberless null
  | bool (b : Bool) : Numberless (bool b)
  | string (s : String) : Numberless (string s)
  | array {items : List Value} (each : ∀ v ∈ items, Numberless v) : Numberless (array items)
  | object {members : List (String × Value)} (each : ∀ m ∈ members, Numberless m.2) :
    Numberless (object members)

/-- The written form starts with a character that is no blank and closes no list. -/
theorem Numberless.exists_first {v : Value} (h : v.Numberless) (k : Nat) :
    ∃ c tail, v.prettyChars k = c :: tail ∧ isGap c = false ∧ c ≠ ']' := by
  cases h with
  | null => exact ⟨'n', _, rfl, by decide, by decide⟩
  | bool b =>
    cases b
    · exact ⟨'f', _, rfl, by decide, by decide⟩
    · exact ⟨'t', _, rfl, by decide, by decide⟩
  | string s => exact ⟨'"', _, rfl, by decide, by decide⟩
  | @array items each =>
    cases items with
    | nil => exact ⟨'[', _, rfl, by decide, by decide⟩
    | cons item rest => exact ⟨'[', _, rfl, by decide, by decide⟩
  | @object members each =>
    cases members with
    | nil => exact ⟨'\x7b', _, rfl, by decide, by decide⟩
    | cons m rest => exact ⟨'\x7b', _, rfl, by decide, by decide⟩

end Value

/-! ## Blanks -/

theorem skipGap_cons {c : Char} (h : isGap c = false) (cs : List Char) :
    skipGap (c :: cs) = c :: cs := by
  rw [skipGap, List.dropWhile_cons, h]
  rfl

theorem skipGap_newLine (k : Nat) (cs : List Char) :
    skipGap (Value.newLine k ++ cs) = skipGap cs := by
  apply List.dropWhile_append_of_pos
  intro c hc
  rw [Value.newLine, List.mem_cons, List.mem_replicate] at hc
  rcases hc with rfl | ⟨-, rfl⟩ <;> decide

theorem value_blank (depth : Nat) (cs : List Char) : value depth (' ' :: cs) = value depth cs := by
  have hskip : skipGap (' ' :: cs) = skipGap cs := rfl
  cases depth with
  | zero => rw [value.eq_1, value.eq_1, hskip]
  | succ depth => rw [value.eq_2, value.eq_2, hskip]

theorem value_scalar (depth : Nat) {c : Char} (hgap : isGap c = false) (hlist : c ≠ '[')
    (hobject : c ≠ '\x7b') (cs : List Char) : value depth (c :: cs) = scalar (c :: cs) := by
  cases depth with
  | zero =>
    rw [value.eq_1, skipGap_cons hgap]
    split
    · rename_i heq
      exact absurd (List.cons.inj heq).1 hlist
    · rename_i heq
      exact absurd (List.cons.inj heq).1 hobject
    · rfl
  | succ depth =>
    rw [value.eq_2, skipGap_cons hgap]
    split
    · rename_i heq
      exact absurd (List.cons.inj heq).1 hlist
    · rename_i heq
      exact absurd (List.cons.inj heq).1 hobject
    · rfl

/-! ## Lists -/

theorem nextItem_done (first : Bool) (k : Nat) (rest : List Char) :
    nextItem first (Value.newLine k ++ ']' :: rest) = .ok (.done rest) := by
  rw [nextItem, skipGap_newLine, skipGap_cons (by decide)]
  rfl

theorem nextItem_first {c : Char} (hgap : isGap c = false) (hclose : c ≠ ']') (k : Nat)
    (cs : List Char) : nextItem true (Value.newLine k ++ c :: cs) = .ok (.entry (c :: cs)) := by
  rw [nextItem, skipGap_newLine, skipGap_cons hgap]
  simp only [if_neg hclose, if_true]

theorem nextItem_next {c : Char} (hgap : isGap c = false) (hclose : c ≠ ']') (k : Nat)
    (cs : List Char) :
    nextItem false (',' :: (Value.newLine k ++ c :: cs)) = .ok (.entry (c :: cs)) := by
  have hcomma : isGap ',' = false := by decide
  have hne : ',' ≠ ']' := by decide
  rw [nextItem, skipGap_cons hcomma]
  simp only [if_neg hne, Bool.false_eq_true, if_false, if_true]
  rw [skipGap_newLine, skipGap_cons hgap]
  simp only [if_neg hclose]

/-- The items after the first, and the closing bracket. -/
theorem items_prettyItems {read : Read Value} {k : Nat} {vs : List Value}
    (plain : ∀ v ∈ vs, v.Numberless)
    (reads : ∀ v ∈ vs, ∀ tail, read (v.prettyChars k ++ tail) = .ok (v, tail)) {fuel : Nat}
    (room : vs.length < fuel) (j : Nat) (rest : List Char) :
    items read fuel false (Value.prettyItems k vs ++ (Value.newLine j ++ ']' :: rest)) =
      .ok (vs, rest) := by
  induction vs generalizing fuel with
  | nil =>
    obtain ⟨n, rfl⟩ : ∃ n, fuel = n + 1 := ⟨fuel - 1, by omega⟩
    rw [Value.prettyItems, List.nil_append, items, nextItem_done]
  | cons v vs ih =>
    obtain ⟨n, rfl⟩ : ∃ n, fuel = n + 1 := ⟨fuel - 1, by omega⟩
    obtain ⟨c, tail, hfirst, hgap, hclose⟩ := (plain v List.mem_cons_self).exists_first k
    generalize hothers : Value.prettyItems k vs ++ (Value.newLine j ++ ']' :: rest) = others at ih
    have htext : Value.prettyItems k (v :: vs) ++ (Value.newLine j ++ ']' :: rest) =
        ',' :: (Value.newLine k ++ c :: (tail ++ others)) := by
      simp [Value.prettyItems, hfirst, ← hothers]
    have hread := reads v List.mem_cons_self others
    rw [hfirst, List.cons_append] at hread
    have hrest := ih (fun w hw => plain w (List.mem_cons_of_mem _ hw))
      (fun w hw => reads w (List.mem_cons_of_mem _ hw)) (Nat.lt_of_succ_lt_succ room)
    rw [htext, items, nextItem_next hgap hclose]
    simp only [hread, hrest]

theorem length_prettyItems (k : Nat) :
    ∀ vs : List Value, vs.length ≤ (Value.prettyItems k vs).length
  | [] => Nat.zero_le _
  | v :: vs => by
    have hrest := length_prettyItems k vs
    simp only [Value.prettyItems, List.length_append, List.length_cons]
    omega

/-- A whole list, behind its bracket. -/
theorem list_pretty {read : Read Value} {v : Value} {vs : List Value} {k : Nat}
    (plain : ∀ w ∈ v :: vs, w.Numberless)
    (reads : ∀ w ∈ v :: vs, ∀ tail, read (w.prettyChars k ++ tail) = .ok (w, tail)) (j : Nat)
    (rest : List Char) :
    list read (Value.newLine k ++ (v.prettyChars k ++
      (Value.prettyItems k vs ++ (Value.newLine j ++ ']' :: rest)))) = .ok (v :: vs, rest) := by
  obtain ⟨c, tail, hfirst, hgap, hclose⟩ := (plain v List.mem_cons_self).exists_first k
  have hread := reads v List.mem_cons_self
    (Value.prettyItems k vs ++ (Value.newLine j ++ ']' :: rest))
  rw [hfirst, List.cons_append] at hread
  have hrest := fun n (room : vs.length < n) =>
    items_prettyItems (fun w hw => plain w (List.mem_cons_of_mem _ hw))
      (fun w hw => reads w (List.mem_cons_of_mem _ hw)) room j rest
  have hlength := length_prettyItems k vs
  rw [list, hfirst, List.cons_append, items, nextItem_first hgap hclose]
  simp only [hread]
  rw [hrest]
  simp only [List.length_append, List.length_cons]
  omega

/-! ## Objects -/

theorem nextKey_done (first : Bool) (k : Nat) (rest : List Char) :
    nextKey first (Value.newLine k ++ '\x7d' :: rest) = .ok (.done rest) := by
  rw [nextKey, skipGap_newLine, skipGap_cons (by decide)]
  rfl

theorem nextKey_first (k : Nat) (cs : List Char) :
    nextKey true (Value.newLine k ++ '"' :: cs) = .ok (.entry cs) := by
  rw [nextKey, skipGap_newLine, skipGap_cons (by decide)]
  rfl

theorem nextKey_next (k : Nat) (cs : List Char) :
    nextKey false (',' :: (Value.newLine k ++ '"' :: cs)) = .ok (.entry cs) := by
  have hcomma : isGap ',' = false := by decide
  have hne : ',' ≠ '\x7d' := by decide
  rw [nextKey, skipGap_cons hcomma]
  simp only [if_neg hne, Bool.false_eq_true, if_false, if_true]
  rw [skipGap_newLine, skipGap_cons (by decide)]
  rfl

/-- The written form of a member, behind the opening quote of its key. -/
def memberChars (k : Nat) (m : String × Value) : List Char :=
  m.1.toList.flatMap escapeChar ++ '"' :: ':' :: ' ' :: m.2.prettyChars k

/-- One round of the loop over the members of an object. -/
theorem members_step {depth k : Nat} {m : String × Value} {cs tail : List Char} {first : Bool}
    (reads : value depth (m.2.prettyChars k ++ tail) = .ok (m.2, tail))
    (next : nextKey first cs = .ok (.entry (memberChars k m ++ tail))) (fuel : Nat)
    (gathered : List (String × Value)) :
    members readText (collect (value depth)) (fuel + 1) first gathered cs =
      members readText (collect (value depth)) fuel false (m :: gathered) tail := by
  have hkey := readText_flatMap m.1 (':' :: ' ' :: (m.2.prettyChars k ++ tail))
  have hvalue := (value_blank depth (m.2.prettyChars k ++ tail)).trans reads
  rw [members, next]
  simp only [memberChars, List.append_assoc, List.cons_append, hkey, collect]
  rw [colon, skipGap_cons (by decide)]
  simp only [if_true, Read.map, hvalue]

/-- The members after the first, and the closing brace. -/
theorem members_prettyMembers {depth k : Nat} {ms : List (String × Value)}
    (reads : ∀ m ∈ ms, ∀ tail, value depth (m.2.prettyChars k ++ tail) = .ok (m.2, tail))
    {fuel : Nat} (room : ms.length < fuel) (j : Nat) (rest : List Char)
    (gathered : List (String × Value)) :
    members readText (collect (value depth)) fuel false gathered
      (Value.prettyMembers k ms ++ (Value.newLine j ++ '\x7d' :: rest)) =
        .ok (ms.reverse ++ gathered, rest) := by
  induction ms generalizing fuel gathered with
  | nil =>
    obtain ⟨n, rfl⟩ : ∃ n, fuel = n + 1 := ⟨fuel - 1, by omega⟩
    rw [Value.prettyMembers, List.nil_append, members, nextKey_done]
    rfl
  | cons m ms ih =>
    obtain ⟨n, rfl⟩ : ∃ n, fuel = n + 1 := ⟨fuel - 1, by omega⟩
    generalize hothers : Value.prettyMembers k ms ++ (Value.newLine j ++ '\x7d' :: rest) = others
      at ih
    have htext : Value.prettyMembers k (m :: ms) ++ (Value.newLine j ++ '\x7d' :: rest) =
        ',' :: (Value.newLine k ++ '"' :: (memberChars k m ++ others)) := by
      simp [Value.prettyMembers, writeText, memberChars, ← hothers]
    have hnext := nextKey_next k (memberChars k m ++ others)
    rw [← htext] at hnext
    rw [members_step (reads m List.mem_cons_self others) hnext,
      ih (fun w hw => reads w (List.mem_cons_of_mem _ hw)) (Nat.lt_of_succ_lt_succ room),
      List.reverse_cons, List.append_assoc, List.singleton_append]

theorem length_prettyMembers (k : Nat) :
    ∀ ms : List (String × Value), ms.length ≤ (Value.prettyMembers k ms).length
  | [] => Nat.zero_le _
  | m :: ms => by
    have hrest := length_prettyMembers k ms
    simp only [Value.prettyMembers, List.length_append, List.length_cons]
    omega

/-- A whole object, behind its brace. The members are gathered with the last one first. -/
theorem object_pretty {depth k : Nat} {m : String × Value} {ms : List (String × Value)}
    (reads : ∀ w ∈ m :: ms, ∀ tail, value depth (w.2.prettyChars k ++ tail) = .ok (w.2, tail))
    (j : Nat) (rest : List Char) :
    object readText (collect (value depth)) []
      (Value.newLine k ++ '"' :: (memberChars k m ++
        (Value.prettyMembers k ms ++ (Value.newLine j ++ '\x7d' :: rest)))) =
      .ok ((m :: ms).reverse, rest) := by
  have hnext := nextKey_first k
    (memberChars k m ++ (Value.prettyMembers k ms ++ (Value.newLine j ++ '\x7d' :: rest)))
  have hlength := length_prettyMembers k ms
  rw [object, members_step (reads m List.mem_cons_self _) hnext,
    members_prettyMembers (fun w hw => reads w (List.mem_cons_of_mem _ hw)), List.reverse_cons]
  simp only [List.length_append, List.length_cons]
  omega

/-! ## Values -/

/-- A value without numbers reads as itself, if it is not nested deeper than the reader goes. -/
theorem value_prettyChars {v : Value} (h : v.Numberless) {depth : Nat} (room : v.levels ≤ depth)
    (k : Nat) (rest : List Char) : value depth (v.prettyChars k ++ rest) = .ok (v, rest) := by
  induction h generalizing depth k rest with
  | null =>
    exact value_scalar depth (by decide) (by decide) (by decide) _
  | bool b =>
    cases b <;> exact value_scalar depth (by decide) (by decide) (by decide) _
  | string s =>
    have htext : (Value.string s).prettyChars k = writeText s := by
      rw [Value.prettyChars, Value.scalarText]
    have hread := readText_flatMap s rest
    rw [htext, writeText_append, value_scalar depth (by decide) (by decide) (by decide), scalar]
    simp only [Read.map, hread]
    rfl
  | @array items each ih =>
    cases depth with
    | zero => cases room
    | succ depth =>
      rw [Value.levels_array_le] at room
      cases items with
      | nil =>
        rw [Value.prettyChars]
        rfl
      | cons item others =>
        have hlist := list_pretty each (fun w hw tail => ih w hw (room w hw) (k + 1) tail) k rest
        rw [Value.prettyChars]
        simp only [List.cons_append, List.append_assoc, List.nil_append]
        rw [value.eq_2, skipGap_cons (by decide)]
        simp only [Read.map, hlist]
  | @object ms each ih =>
    cases depth with
    | zero => cases room
    | succ depth =>
      rw [Value.levels_object_le] at room
      cases ms with
      | nil =>
        rw [Value.prettyChars]
        rfl
      | cons m others =>
        have hobject := object_pretty (fun w hw tail => ih w hw (room w hw) (k + 1) tail) k rest
        obtain ⟨key, v⟩ := m
        rw [memberChars] at hobject
        rw [Value.prettyChars, writeText]
        simp only [List.cons_append, List.append_assoc, List.nil_append] at hobject ⊢
        rw [value.eq_2, skipGap_cons (by decide)]
        simp only [Read.map, hobject, List.reverse_reverse]

end DeclVisibility.Json
