import DeclVisibility.Proofs.Text.Lines
import DeclVisibility.Text.Bounded

/-!
# Positions of texts in pieces

As long as a text has fewer bytes than the limit, its extent can be counted in 32 bits, whichever
way it is cut into pieces and in whichever order these are put together: no addition on the way
meets a fault, and the sum tells the bytes, the line feeds and the last line of the whole
(`Position.counted_in_pieces`). All four counts of a text are bounded by its bytes
(`Position.fits_ofString`), and where a sum fits, adding with every count checked gives the sum
(`Position.checkedAdd_of_fits`). So every sum that comes up is that of a piece of the text, and
fits.
-/

namespace DeclVisibility

namespace Position

/-! ## Sums that fit -/

/-- All counts of a text fit if that of its bytes does. -/
theorem fits_ofChars {cs : List Char} (short : (ofChars cs).index < limit) : (ofChars cs).Fits := by
  obtain ⟨hrow, hcolumn8, hcolumn16⟩ := ofChars_le_index cs
  exact ⟨short, by omega, by omega, by omega⟩

/-- The extent of a text that has fewer bytes than the limit. -/
theorem fits_ofString {s : String} (short : s.utf8ByteSize < limit) : (ofString s).Fits := by
  rw [← index_ofString] at short
  exact fits_ofChars short

/-- The extent of a text that stays below the limit with one byte more has a written form. -/
theorem displayable_ofString {s : String} (short : s.utf8ByteSize + 1 < limit) :
    (ofString s).Displayable := by
  rw [← index_ofString] at short
  obtain ⟨hrow, hcolumn8, -⟩ := ofChars_le_index s.toList
  rw [ofString] at short ⊢
  exact ⟨by omega, by omega⟩

theorem checkedCount_of_lt {m n : Nat} (h : m + n < limit) : checkedCount m n = .ok (m + n) :=
  if_pos h

/-- A column that is dropped before the sum is one that does not count in it. -/
theorem column_sum (row p q : Nat) :
    (if 1 ≤ row then 0 else p) + q = if 1 ≤ row then q else p + q := by
  split
  · exact Nat.zero_add q
  · rfl

/-- Where a sum fits, no addition on the way to it meets a fault. -/
theorem checkedAdd_of_fits {p q : Position} (h : (p + q).Fits) : p.checkedAdd q = .ok (p + q) := by
  obtain ⟨hindex, hrow, hcolumn8, hcolumn16⟩ := h
  rw [add_column8, ← column_sum] at hcolumn8
  rw [add_column16, ← column_sum] at hcolumn16
  rw [checkedAdd]
  simp only [checkedCount_of_lt hindex, checkedCount_of_lt hrow, checkedCount_of_lt hcolumn8,
    checkedCount_of_lt hcolumn16, column_sum]
  rfl

/-! ## One piece after the other -/

/-- Pieces are added up behind the text before them, as long as the whole is short. -/
theorem foldlM_checkedAdd : ∀ (pieces : List (List Char)) (before : List Char),
    (ofChars (before ++ pieces.flatten)).index < limit →
    (pieces.map ofChars).foldlM checkedAdd (ofChars before) =
      .ok (ofChars (before ++ pieces.flatten))
  | [], before, _ => by
    rw [List.flatten_nil, List.append_nil]
    rfl
  | piece :: rest, before, short => by
    rw [List.flatten_cons, ← List.append_assoc] at short ⊢
    have hfits : (ofChars before + ofChars piece).Fits := by
      rw [← ofChars_append]
      rw [ofChars_append, add_index] at short
      exact fits_ofChars (by omega)
    rw [List.map_cons, List.foldlM_cons, checkedAdd_of_fits hfits, ← ofChars_append]
    exact foldlM_checkedAdd rest (before ++ piece) short

/-- A text is counted character by character. -/
theorem checkedOfString_of_short {s : String} (short : s.utf8ByteSize < limit) :
    checkedOfString s = .ok (ofString s) := by
  have hpieces : (s.toList.map List.singleton).flatten = s.toList := by
    rw [← List.flatMap_def]
    exact List.flatMap_singleton' s.toList
  have hsum := foldlM_checkedAdd (s.toList.map List.singleton) []
  rw [List.nil_append, hpieces, List.map_map] at hsum
  have hchars : ofChars ∘ List.singleton = ofChar := funext ofChars_singleton
  rw [hchars] at hsum
  exact hsum (by rwa [← ofString, index_ofString])

/-- A piece of a short text is short. -/
theorem short_of_mem {pieces : List String} (short : (String.join pieces).utf8ByteSize < limit)
    {piece : String} (h : piece ∈ pieces) : piece.utf8ByteSize < limit := by
  obtain ⟨before, after, rfl⟩ := List.append_of_mem h
  rw [String.join_append, String.join_cons, String.utf8ByteSize_append, String.utf8ByteSize_append]
    at short
  omega

theorem mapM_checkedOfString {pieces : List String}
    (short : ∀ piece ∈ pieces, piece.utf8ByteSize < limit) :
    pieces.mapM checkedOfString = .ok (pieces.map ofString) := by
  induction pieces with
  | nil => rfl
  | cons piece rest ih =>
    rw [List.mapM_cons, checkedOfString_of_short (short piece List.mem_cons_self),
      ih fun other hother => short other (List.mem_cons_of_mem piece hother)]
    rfl

/-- The extents of the pieces of a text add up to that of the text. -/
theorem checkedSum_of_short {pieces : List String}
    (short : (String.join pieces).utf8ByteSize < limit) :
    checkedSum (pieces.map ofString) = .ok (ofString (String.join pieces)) := by
  have hsum := foldlM_checkedAdd (pieces.map String.toList) []
  rw [List.nil_append, ← List.flatMap_def, ← String.toList_join, List.map_map] at hsum
  exact hsum (by rwa [← ofString, index_ofString])

/-- Pieces that are counted when their turn comes are added up as if they had been counted before.
-/
theorem checkedAfter_eq {pieces : List String} (p : Position)
    (short : ∀ piece ∈ pieces, piece.utf8ByteSize < limit) :
    p.checkedAfter pieces = (pieces.map ofString).foldlM checkedAdd p := by
  rw [checkedAfter, List.foldlM_map]
  induction pieces generalizing p with
  | nil => rfl
  | cons piece rest ih =>
    have hrest := fun other hother => short other (List.mem_cons_of_mem piece hother)
    rw [List.foldlM_cons, List.foldlM_cons,
      checkedOfString_of_short (short piece List.mem_cons_self)]
    exact congrArg (p.checkedAdd (ofString piece) >>= ·) (funext fun q => ih q hrest)

end Position

/-! ## In any order -/

/-- Texts that follow one another, put together two at a time. -/
inductive Bracketing where
  | piece (text : String)
  | join (left right : Bracketing)

namespace Bracketing

/-- The texts, one after the other. -/
def text : Bracketing → String
  | piece text => text
  | join left right => left.text ++ right.text

/-- The sum of the extents of the texts, added up as they are put together. -/
def checkedTotal : Bracketing → Except Fault Position
  | piece text => Position.checkedOfString text
  | join left right => do
    let first ← left.checkedTotal
    let second ← right.checkedTotal
    first.checkedAdd second

theorem checkedTotal_of_short : ∀ b : Bracketing, b.text.utf8ByteSize < Position.limit →
    b.checkedTotal = .ok (Position.ofString b.text)
  | piece _, short => Position.checkedOfString_of_short short
  | join left right, short => by
    have hfits := Position.fits_ofString short
    rw [text, String.utf8ByteSize_append] at short
    rw [text, Position.ofString_append] at hfits ⊢
    rw [checkedTotal, checkedTotal_of_short left (by omega), checkedTotal_of_short right (by omega)]
    exact Position.checkedAdd_of_fits hfits

end Bracketing

namespace Position

/-- The position tells the bytes of a text, its line feeds, and the bytes and the units of UTF-16
behind the last of them. -/
structure Counts (p : Position) (s : String) : Prop where
  index : p.index = s.utf8ByteSize
  row : p.row = Text.lineFeeds s
  column8 : p.column8 = (Text.lastLine s).utf8ByteSize
  column16 : p.column16 = (Text.utf16 (Text.lastLine s)).length

theorem counts_ofString (s : String) : (ofString s).Counts s :=
  ⟨index_ofString s, row_ofString s, column8_ofString s, column16_ofString s⟩

/-- The extent of a text of fewer bytes than the limit is counted without a fault. However the text
is cut into pieces, these add up to the same without a fault: when each is added to what was there
before, when their extents are summed up, and when they are put together in any brackets. -/
theorem counted_in_pieces {s : String} (short : s.utf8ByteSize < limit) :
    checkedOfString s = .ok (ofString s) ∧ (ofString s).Counts s ∧
      (∀ pieces : List String, String.join pieces = s →
        zero.checkedAfter pieces = .ok (ofString s) ∧
          pieces.mapM checkedOfString >>= checkedSum = .ok (ofString s)) ∧
      ∀ b : Bracketing, b.text = s → b.checkedTotal = .ok (ofString s) := by
  refine ⟨checkedOfString_of_short short, counts_ofString s, ?_, ?_⟩
  · rintro pieces rfl
    have hsum := checkedSum_of_short short
    have hpieces := fun piece (h : piece ∈ pieces) => short_of_mem short h
    refine ⟨?_, ?_⟩
    · rw [checkedAfter_eq zero hpieces]
      exact hsum
    · rw [mapM_checkedOfString hpieces]
      exact hsum
  · rintro b rfl
    exact b.checkedTotal_of_short short

/-- A line feed in the middle, and characters of two and of four bytes around it. -/
theorem counted_in_pieces_sample : "aé\n😀b".utf8ByteSize < limit ∧
    zero.checkedAfter ["aé\n", "", "😀b"] = .ok ⟨9, 1, 5, 3⟩ ∧
    (Bracketing.join (.piece "a") (.join (.piece "é\n😀") (.piece "b"))).checkedTotal =
      .ok ⟨9, 1, 5, 3⟩ := by
  have short : "aé\n😀b".utf8ByteSize < limit := by decide +kernel
  have hextent : ofString "aé\n😀b" = ⟨9, 1, 5, 3⟩ := by decide +kernel
  obtain ⟨-, -, hpieces, hbrackets⟩ := counted_in_pieces short
  rw [hextent] at hpieces hbrackets
  exact ⟨short, (hpieces ["aé\n", "", "😀b"] (by decide +kernel)).1,
    hbrackets (.join (.piece "a") (.join (.piece "é\n😀") (.piece "b"))) (by decide +kernel)⟩

end Position

end DeclVisibility
