import DeclVisibility.Text.Position
import DeclVisibility.Tree.Subtree
import Mathlib.Data.String.Basic

/-!
# Positions add up

The position of a text put after another is the sum of theirs (`Position.ofString_append`), and the
index of a position counts the bytes before it (`Position.index_ofString`). So a walk that adds up
the extents of what it passes is at the position of the text it has passed.

`Text.cutAt?` cuts a text at a byte index, which has to fall between two characters; a cut at the
index of a position gives back the text whose extent the position is (`Text.cutAt?_append`).
-/

namespace DeclVisibility

theorem Text.utf8ByteSize_cons (c : Char) (cs : List Char) :
    (String.ofList (c :: cs)).utf8ByteSize = c.utf8Size + (String.ofList cs).utf8ByteSize := by
  rw [← List.singleton_append, String.ofList_append, String.utf8ByteSize_append,
    ← String.singleton_eq_ofList, String.utf8ByteSize_singleton]

namespace Position

@[simp] theorem add_index (p q : Position) : (p + q).index = p.index + q.index := rfl

@[simp] theorem add_row (p q : Position) : (p + q).row = p.row + q.row := rfl

theorem add_column8 (p q : Position) :
    (p + q).column8 = if 1 ≤ q.row then q.column8 else p.column8 + q.column8 := rfl

theorem add_column16 (p q : Position) :
    (p + q).column16 = if 1 ≤ q.row then q.column16 else p.column16 + q.column16 := rfl

theorem ext {p q : Position} (index : p.index = q.index) (row : p.row = q.row)
    (column8 : p.column8 = q.column8) (column16 : p.column16 = q.column16) : p = q := by
  cases p
  cases q
  simp_all

/-- How columns add up: a line feed in a later piece makes the earlier pieces count for nothing. -/
theorem column_assoc (qRow rRow p q r : Nat) :
    (if 1 ≤ rRow then r else (if 1 ≤ qRow then q else p + q) + r) =
      if 1 ≤ qRow + rRow then (if 1 ≤ rRow then r else q + r)
      else p + (if 1 ≤ rRow then r else q + r) := by
  by_cases hr : 1 ≤ rRow
  · rw [if_pos hr, if_pos hr, if_pos (by omega)]
  · by_cases hq : 1 ≤ qRow
    · rw [if_neg hr, if_neg hr, if_pos hq, if_pos (by omega)]
    · rw [if_neg hr, if_neg hr, if_neg hq, if_neg (by omega), Nat.add_assoc]

theorem add_assoc (p q r : Position) : p + q + r = p + (q + r) := by
  apply ext
  · simp only [add_index]
    omega
  · simp only [add_row]
    omega
  · simp only [add_column8, add_row]
    exact column_assoc _ _ _ _ _
  · simp only [add_column16, add_row]
    exact column_assoc _ _ _ _ _

theorem zero_add (p : Position) : zero + p = p := by
  apply ext
  · exact Nat.zero_add _
  · exact Nat.zero_add _
  · rw [add_column8, show zero.column8 = 0 from rfl, Nat.zero_add, ite_self]
  · rw [add_column16, show zero.column16 = 0 from rfl, Nat.zero_add, ite_self]

theorem add_zero (p : Position) : p + zero = p := rfl

theorem foldl_add (p : Position) (ps : List Position) : ps.foldl (· + ·) p = p + sum ps := by
  induction ps generalizing p with
  | nil => exact (add_zero p).symm
  | cons q rest ih =>
    have hsum : sum (q :: rest) = q + sum rest := by
      rw [sum, List.foldl_cons, zero_add, ih]
    rw [List.foldl_cons, ih, hsum, add_assoc]

theorem ofChars_append (cs ds : List Char) : ofChars (cs ++ ds) = ofChars cs + ofChars ds := by
  rw [ofChars, List.map_append, sum, List.foldl_append, foldl_add]
  rfl

/-- The extent of a text followed by another. -/
theorem ofString_append (s t : String) : ofString (s ++ t) = ofString s + ofString t := by
  rw [ofString, String.toList_append, ofChars_append]
  rfl

/-- The extent of a text that is one character. -/
theorem ofChars_singleton (c : Char) : ofChars [c] = ofChar c := by
  rw [ofChars, List.map_singleton, sum, List.foldl_cons, List.foldl_nil, zero_add]

theorem index_ofChars (cs : List Char) : (ofChars cs).index = (String.ofList cs).utf8ByteSize := by
  induction cs with
  | nil => rfl
  | cons c cs ih =>
    have hc : (ofChars [c]).index = c.utf8Size := by
      rw [ofChars_singleton, ofChar]
      split
      · rename_i h
        rw [h]
        rfl
      · rfl
    rw [← List.singleton_append, ofChars_append, add_index, hc, ih, List.singleton_append,
      Text.utf8ByteSize_cons]

/-- The index of a position is the number of bytes before it. -/
theorem index_ofString (s : String) : (ofString s).index = s.utf8ByteSize := by
  rw [ofString, index_ofChars, String.ofList_toList]

/-- No character takes more units of UTF-16 than bytes of UTF-8. -/
theorem units16_le_utf8Size (c : Char) : units16 c ≤ c.utf8Size := by
  have hpos := c.utf8Size_pos
  rw [units16]
  split
  · exact hpos
  · rename_i hlarge
    -- a character beyond the basic plane is not ASCII, so it takes two bytes at least
    have hne : c.utf8Size ≠ 1 := by
      rw [ne_eq, Char.utf8Size_eq_one_iff]
      intro hsmall
      have hval : c.toNat ≤ 127 := UInt32.le_iff_toNat_le.mp hsmall
      omega
    omega

/-- Rows and columns count nothing that takes no byte. -/
theorem ofChars_le_index (cs : List Char) : (ofChars cs).row ≤ (ofChars cs).index ∧
    (ofChars cs).column8 ≤ (ofChars cs).index ∧ (ofChars cs).column16 ≤ (ofChars cs).index := by
  induction cs with
  | nil => exact ⟨Nat.le_refl _, Nat.le_refl _, Nat.le_refl _⟩
  | cons c cs ih =>
    have hc : (ofChars [c]).row ≤ (ofChars [c]).index ∧
        (ofChars [c]).column8 ≤ (ofChars [c]).index ∧
        (ofChars [c]).column16 ≤ (ofChars [c]).index := by
      rw [ofChars_singleton, ofChar]
      split
      · exact ⟨Nat.le_refl _, Nat.zero_le _, Nat.zero_le _⟩
      · exact ⟨Nat.zero_le _, Nat.le_refl _, units16_le_utf8Size c⟩
    rw [← List.singleton_append, ofChars_append]
    simp only [add_index, add_row, add_column8, add_column16]
    split <;> omega

end Position

namespace Text

/-- The characters before a byte index and those behind it, if the index falls between two
characters. -/
def cutAt? : Nat → List Char → Option (List Char × List Char)
  | 0, cs => some ([], cs)
  | _ + 1, [] => none
  | n + 1, c :: cs =>
    if c.utf8Size ≤ n + 1 then
      (cutAt? (n + 1 - c.utf8Size) cs).map fun parts => (c :: parts.1, parts.2)
    else none

/-- A text is cut behind its first part at the byte index where that part ends. -/
theorem cutAt?_append (cs ds : List Char) :
    cutAt? (String.ofList cs).utf8ByteSize (cs ++ ds) = some (cs, ds) := by
  induction cs with
  | nil => simp [cutAt?]
  | cons c cs ih =>
    have hc := c.utf8Size_pos
    rw [utf8ByteSize_cons]
    -- the index is not zero, so the cut goes past the first character
    obtain ⟨n, hn⟩ : ∃ n, c.utf8Size + (String.ofList cs).utf8ByteSize = n + 1 :=
      ⟨c.utf8Size + (String.ofList cs).utf8ByteSize - 1, by omega⟩
    rw [hn, List.cons_append, cutAt?, if_pos (by omega),
      show n + 1 - c.utf8Size = (String.ofList cs).utf8ByteSize by omega, ih, Option.map_some]

end Text

namespace Subtree

theorem textOfLeaves_append (ls rs : List Leaf) :
    textOfLeaves (ls ++ rs) = textOfLeaves ls ++ textOfLeaves rs := by
  simp [textOfLeaves, String.join_eq, String.ofList_append]

end Subtree

end DeclVisibility
