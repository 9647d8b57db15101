import DeclVisibility.Json.Text

/-!
# Written strings read back

Every character is written in a form that reads as that character (`readChars_escapeChar`), so a
string that was written reads as itself, up to its closing quote (`readText_flatMap`).
-/

namespace DeclVisibility.Json

/-- The two digits of a control read as its number. -/
theorem hex4?_hexDigit : ∀ n < 0x20,
    hex4? '0' '0' (hexDigit (n / 16)) (hexDigit (n % 16)) = some n := by
  decide

theorem readChars_control {n : Nat} (h : n < 0x20) (rest : List Char) :
    readChars ('\\' :: 'u' :: '0' :: '0' :: hexDigit (n / 16) :: hexDigit (n % 16) :: rest) =
      withFirst (Char.ofNat n) (readChars rest) := by
  have htrailing : isTrailingHalf n = false := by simp [isTrailingHalf]; omega
  have hleading : isLeadingHalf n = false := by simp [isLeadingHalf]; omega
  rw [readChars]
  simp only [hex4?_hexDigit n h, htrailing, hleading, Bool.false_eq_true, if_false]

theorem readChars_short {c e : Char} (hu : c ≠ 'u') (h : shortEscape? c = some e)
    (rest : List Char) : readChars ('\\' :: c :: rest) = withFirst e (readChars rest) := by
  rw [readChars.eq_6 c rest (fun _ _ _ _ _ heq => absurd heq hu) hu, h]

theorem readChars_plain {c : Char} (hquote : c ≠ '"') (hslash : c ≠ '\\')
    (hcontrol : ¬ c.toNat < 0x20) (rest : List Char) :
    readChars (c :: rest) = withFirst c (readChars rest) := by
  rw [readChars.eq_7 c rest hquote (fun heq => absurd heq hslash)
    (fun _ _ _ _ _ heq => absurd heq hslash) (fun _ heq => absurd heq hslash)
    (fun _ _ heq => absurd heq hslash), if_neg hcontrol]

/-- A written character reads as itself. -/
theorem readChars_escapeChar (c : Char) (rest : List Char) :
    readChars (escapeChar c ++ rest) = withFirst c (readChars rest) := by
  have hshort : ∀ d e : Char, d ≠ 'u' → shortEscape? d = some e → c = e →
      readChars (['\\', d] ++ rest) = withFirst c (readChars rest) := by
    rintro d e hu hd rfl
    exact readChars_short hu hd rest
  rw [escapeChar]
  split
  · exact hshort '"' '"' (by decide) (by decide) ‹_›
  split
  · exact hshort '\\' '\\' (by decide) (by decide) ‹_›
  split
  · exact hshort 'b' '\x08' (by decide) (by decide) ‹_›
  split
  · exact hshort 'f' '\x0c' (by decide) (by decide) ‹_›
  split
  · exact hshort 'n' '\n' (by decide) (by decide) ‹_›
  split
  · exact hshort 'r' '\r' (by decide) (by decide) ‹_›
  split
  · exact hshort 't' '\t' (by decide) (by decide) ‹_›
  split
  · rename_i hcontrol
    have hread := readChars_control hcontrol rest
    rwa [Char.ofNat_toNat] at hread
  · exact readChars_plain ‹_› ‹_› ‹_› rest

/-- A written string reads as itself, up to its closing quote. -/
theorem readChars_flatMap (cs rest : List Char) :
    readChars (cs.flatMap escapeChar ++ '"' :: rest) = .ok (cs, rest) := by
  induction cs with
  | nil => rw [List.flatMap_nil, List.nil_append, readChars]
  | cons c cs ih => rw [List.flatMap_cons, List.append_assoc, readChars_escapeChar, ih, withFirst]

theorem writeText_append (s : String) (rest : List Char) :
    writeText s ++ rest = '"' :: (s.toList.flatMap escapeChar ++ '"' :: rest) := by
  simp [writeText]

theorem readText_flatMap (s : String) (rest : List Char) :
    readText (s.toList.flatMap escapeChar ++ '"' :: rest) = .ok (s, rest) := by
  have hchars := readChars_flatMap s.toList rest
  simp only [readText, Read.map, hchars, String.ofList_toList]

end DeclVisibility.Json
