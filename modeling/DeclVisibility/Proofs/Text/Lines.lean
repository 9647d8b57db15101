import DeclVisibility.CommandLine.Request
import DeclVisibility.Proofs.Text.Position
import Mathlib.Data.List.Induction

/-!
# Lines

The row of a position counts the line feeds before it, and its columns count the bytes and the
units of UTF-16 behind the last of them (`Position.row_ofString`, `Position.column8_ofString`,
`Position.column16_ofString`). A text that is cut into lines is cut behind each line feed, whatever
follows it (`Plan.cutLines_append`), so a line at the end is the last one
(`Plan.getLast?_cutLines`). What is left behind the first line is cut as before
(`Plan.lines_rest`).
-/

namespace DeclVisibility

namespace Text

/-- The characters behind the last line feed, all of them if there is none. -/
def lastLineChars (cs : List Char) : List Char := (cs.reverse.takeWhile (· != '\n')).reverse

/-- What stands behind the last line feed of a text. -/
def lastLine (s : String) : String := String.ofList (lastLineChars s.toList)

/-- How many line feeds a text has. -/
def lineFeeds (s : String) : Nat := s.toList.count '\n'

/-- A character in UTF-16: by itself, or as a pair of surrogates beyond the basic plane. -/
def unitsOf (c : Char) : List UInt16 :=
  if c.toNat < 0x10000 then [UInt16.ofNat c.toNat]
  else
    [UInt16.ofNat (0xD800 + (c.toNat - 0x10000) / 0x400),
      UInt16.ofNat (0xDC00 + (c.toNat - 0x10000) % 0x400)]

/-- A text in UTF-16. -/
def utf16 (s : String) : List UInt16 := s.toList.flatMap unitsOf

theorem lastLineChars_feed (cs : List Char) : lastLineChars (cs ++ ['\n']) = [] := by
  simp [lastLineChars]

theorem lastLineChars_of_ne {c : Char} (h : c ≠ '\n') (cs : List Char) :
    lastLineChars (cs ++ [c]) = lastLineChars cs ++ [c] := by
  simp [lastLineChars, h]

end Text

/-- A number is written with digits only. -/
theorem Text.isDigit_of_mem_toString {n : Nat} {c : Char} (h : c ∈ (toString n).toList) :
    c.isDigit = true := by
  rw [Nat.toString_eq_ofList_toDigits, String.toList_ofList] at h
  exact Nat.isDigit_of_mem_toDigits (by omega) (by omega) h

/-- A number is written on one line. -/
theorem Text.feed_notMem_toString (n : Nat) : '\n' ∉ (toString n).toList :=
  fun hmem => absurd (Text.isDigit_of_mem_toString hmem) (by decide)

namespace Position

theorem length_unitsOf (c : Char) : (Text.unitsOf c).length = units16 c := by
  rw [Text.unitsOf, units16]
  split <;> rfl

/-- Rows and columns of a text, which grows at its end. -/
theorem ofChars_lines (cs : List Char) : (ofChars cs).row = cs.count '\n' ∧
    (ofChars cs).column8 = (String.ofList (Text.lastLineChars cs)).utf8ByteSize ∧
    (ofChars cs).column16 = ((Text.lastLineChars cs).flatMap Text.unitsOf).length := by
  induction cs using List.reverseRecOn with
  | nil => exact ⟨rfl, rfl, rfl⟩
  | append_singleton cs c ih =>
    obtain ⟨hrow, hcolumn8, hcolumn16⟩ := ih
    rw [ofChars_append, ofChars_singleton]
    by_cases h : c = '\n'
    · subst h
      -- a line feed starts the columns afresh
      rw [Text.lastLineChars_feed]
      refine ⟨?_, rfl, rfl⟩
      rw [add_row, hrow, List.count_append, List.count_singleton_self]
      rfl
    · have hchar : ofChar c = ⟨c.utf8Size, 0, c.utf8Size, units16 c⟩ := if_neg h
      refine ⟨?_, ?_, ?_⟩
      · rw [add_row, hchar, hrow, List.count_append, List.count_singleton, if_neg (by simpa using h)]
      · rw [Text.lastLineChars_of_ne h, String.ofList_append, String.utf8ByteSize_append, add_column8,
          hchar, if_neg (Nat.not_succ_le_zero 0), hcolumn8, Text.utf8ByteSize_cons]
        rfl
      · rw [Text.lastLineChars_of_ne h, List.flatMap_append, List.length_append, add_column16,
          hchar, if_neg (Nat.not_succ_le_zero 0), hcolumn16, List.flatMap_singleton, length_unitsOf]

theorem row_ofString (s : String) : (ofString s).row = Text.lineFeeds s :=
  (ofChars_lines s.toList).1

theorem column8_ofString (s : String) : (ofString s).column8 = (Text.lastLine s).utf8ByteSize :=
  (ofChars_lines s.toList).2.1

theorem column16_ofString (s : String) :
    (ofString s).column16 = (Text.utf16 (Text.lastLine s)).length := by
  rw [Text.utf16, Text.lastLine, String.toList_ofList]
  exact (ofChars_lines s.toList).2.2

/-- A position whose row and column have a number from 1 is written with these numbers. -/
theorem Displayable.display {p : Position} (h : p.Displayable) :
    p.display = .ok (toString (p.row + 1) ++ ":" ++ toString (p.column8 + 1)) := by
  rw [Position.display, checkedCount, if_pos h.row, checkedCount, if_pos h.column8]
  rfl

/-- A position without a written form meets the one fault that counting can meet. -/
theorem display_of_not_displayable {p : Position} (h : ¬ p.Displayable) :
    p.display = .error .positionOverflow := by
  rw [display, checkedCount, checkedCount]
  by_cases hrow : p.row + 1 < limit
  · rw [if_pos hrow, if_neg fun hcolumn => h ⟨hrow, hcolumn⟩]
    rfl
  · rw [if_neg hrow]
    rfl

/-- A position is written on one line. -/
theorem feed_notMem_display {p : Position} {place : String} (h : p.display = .ok place) :
    '\n' ∉ place.toList := by
  by_cases hdisplayable : p.Displayable
  · obtain rfl := Except.ok.inj (hdisplayable.display.symm.trans h)
    simp only [String.toList_append, List.mem_append, not_or]
    exact ⟨⟨Text.feed_notMem_toString _, by decide⟩, Text.feed_notMem_toString _⟩
  · rw [display_of_not_displayable hdisplayable] at h
    cases h

end Position

namespace CommandLine.Plan

/-- A text is cut behind a line feed, whatever follows. -/
theorem cutLines_append (cs ds : List Char) :
    cutLines (cs ++ '\n' :: ds) = cutLines (cs ++ ['\n']) ++ cutLines ds := by
  induction cs with
  | nil => simp [cutLines]
  | cons c cs ih =>
    rw [List.cons_append, List.cons_append, cutLines, cutLines, ih]
    split
    · rfl
    · -- the text up to the line feed has a first line, which takes the character in
      cases hfirst : cutLines (cs ++ ['\n']) with
      | nil =>
        have hempty := flatten_cutLines (cs ++ ['\n'])
        rw [hfirst] at hempty
        simp at hempty
      | cons line rest => rfl

/-- A line without a line feed in it is cut off as a whole. -/
theorem cutLines_line {line : List Char} (h : '\n' ∉ line) :
    cutLines (line ++ ['\n']) = [line ++ ['\n']] := by
  induction line with
  | nil => rfl
  | cons c line ih =>
    rw [List.mem_cons, not_or] at h
    rw [List.cons_append, cutLines, if_neg (Ne.symm h.1), ih h.2]

/-- The line at the end of a text is its last line. -/
theorem getLast?_cutLines (cs : List Char) {line : List Char} (h : '\n' ∉ line) :
    (cutLines (cs ++ '\n' :: (line ++ ['\n']))).getLast? = some (line ++ ['\n']) := by
  rw [cutLines_append, cutLines_line h, List.getLast?_concat]

/-- The lines of a text, each with the line break at its end. -/
def lines (text : String) : List String := (cutLines text.toList).map String.ofList

/-- The lines behind the first are those of the text behind it. -/
theorem cutLines_rest {cs line : List Char} {rest : List (List Char)}
    (h : cutLines cs = line :: rest) : cutLines rest.flatten = rest := by
  induction cs generalizing line rest with
  | nil => cases h
  | cons c cs ih =>
    rw [cutLines] at h
    split at h
    · obtain ⟨-, rfl⟩ := List.cons.inj h
      rw [flatten_cutLines]
    · split at h
      · obtain ⟨-, rfl⟩ := List.cons.inj h
        rfl
      · rename_i first others hfirst
        obtain ⟨-, rfl⟩ := List.cons.inj h
        exact ih hfirst

theorem lines_rest {text line : String} {rest : List String} (h : lines text = line :: rest) :
    lines (String.join rest) = rest := by
  obtain ⟨first, others, hcut, -, rfl⟩ := List.map_eq_cons_iff.mp h
  rw [lines, String.toList_join, List.flatMap_map]
  simp only [String.toList_ofList, List.flatMap_id', cutLines_rest hcut]

end CommandLine.Plan

end DeclVisibility
