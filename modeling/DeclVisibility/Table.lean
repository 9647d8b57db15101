import DeclVisibility.Report

/-!
# Append-only tables

A table numbers its rows from zero in the order in which they were added. Rows are never removed,
so a number that was given out stays good; a row may be overwritten. `get?_push` and `get?_set`
say what the two changes do to every row.
-/

namespace DeclVisibility

/-- Rows numbered from zero in the order of their addition. -/
structure Table (α : Type) where
  rows : Array α := #[]
  deriving Repr

namespace Table

variable {α : Type}

/-- No row. -/
def empty : Table α := ⟨#[]⟩

/-- How many rows there are; also the number that the next row will get. -/
def size (t : Table α) : Nat := t.rows.size

/-- Whether a number was given out. -/
def has (t : Table α) (i : Nat) : Bool := decide (i < t.size)

/-- The row with this number. -/
def get? (t : Table α) (i : Nat) : Option α := t.rows[i]?

/-- The table with one more row, numbered `t.size`. -/
def push (t : Table α) (row : α) : Table α := ⟨t.rows.push row⟩

/-- The table with the row of this number overwritten; without such a row, the table itself. -/
def set (t : Table α) (i : Nat) (row : α) : Table α := ⟨t.rows.setIfInBounds i row⟩

/-- The table with the row of this number changed by a function. -/
def modify (t : Table α) (i : Nat) (change : α → α) : Table α :=
  match t.get? i with
  | some row => t.set i (change row)
  | none => t

/-- The numbers given out, in order. -/
def keys (t : Table α) : List Nat := List.range t.size

/-- The rows with their numbers, in order. -/
def entries (t : Table α) : List (Nat × α) := t.keys.zip t.rows.toList

/-- The number of the first row that passes a test. -/
def findKey? (t : Table α) (test : α → Bool) : Option Nat :=
  (t.entries.find? fun entry => test entry.2).map (·.1)

@[simp] theorem size_push (t : Table α) (row : α) : (t.push row).size = t.size + 1 := by
  simp [size, push]

@[simp] theorem size_set (t : Table α) (i : Nat) (row : α) : (t.set i row).size = t.size := by
  simp [size, set]

theorem get?_push (t : Table α) (row : α) (i : Nat) :
    (t.push row).get? i = if i = t.size then some row else t.get? i := by
  simp only [get?, push, size, Array.getElem?_push]
  rfl

theorem get?_set (t : Table α) (i j : Nat) (row : α) :
    (t.set i row).get? j = if i = j then (t.get? j).map (fun _ => row) else t.get? j := by
  by_cases h : i = j
  · subst h
    by_cases inside : i < t.rows.size <;> simp [get?, set, inside]
  · simp [get?, set, h]

@[simp] theorem size_modify (t : Table α) (i : Nat) (change : α → α) :
    (t.modify i change).size = t.size := by
  unfold modify
  split <;> simp

theorem get?_modify (t : Table α) (i j : Nat) (change : α → α) :
    (t.modify i change).get? j = if i = j then (t.get? j).map change else t.get? j := by
  unfold modify
  split
  · rename_i row found
    rw [get?_set]
    by_cases h : i = j
    · subst h
      simp [found]
    · simp [h]
  · rename_i missing
    by_cases h : i = j
    · subst h
      simp [missing]
    · simp [h]

/-! ## Numbers that a table can give out -/

/-- One more than the largest number that a table gives out. -/
def numberLimit : Nat := 4294967295

/-- Refuses the numbers that no table gives out. -/
def checkedNumber (i : Nat) : Except Fault Nat :=
  if i < numberLimit then .ok i else .error .numberTooLarge

/-! ## The written form of a table of texts -/

/-- One row: its number and its text in quotes. -/
def entryText (entry : Nat × String) : String := toString entry.1 ++ ": " ++ Text.quote entry.2

/-- The rows on one line, in braces. -/
def line (t : Table String) : String :=
  "\x7b" ++ ", ".intercalate (t.entries.map entryText) ++ "\x7d"

/-- The rows on a line each, in braces. -/
def block (t : Table String) : String :=
  if t.entries.isEmpty then "\x7b\x7d"
  else
    "\x7b\n" ++ String.join (t.entries.map fun entry => "    " ++ entryText entry ++ ",\n") ++
      "\x7d"

end Table

end DeclVisibility
