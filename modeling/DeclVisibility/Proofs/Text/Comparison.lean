import DeclVisibility.Proofs.Text.Sums
import Mathlib.Data.List.TFAE
import Mathlib.Data.Prod.Lex
import Mathlib.Tactic.TFAE

/-!
# Comparing positions of one text

Positions are compared by their byte index alone. Among the positions of one text nothing is lost by
that: whatever is counted from the start of a text and grows with every character orders the
prefixes of the text as their lengths do (`Grows.lt_iff`), and tells them apart (`Grows.eq_iff`).
The bytes grow so, and so does the pair of row and column, in bytes as in units of UTF-16, because a
character that does not end the row takes up room in it. Hence the orders agree, equal indexes mean
equal positions, and a range is empty exactly if it is written with the same place twice
(`Position.compared_by_index`).
-/

namespace DeclVisibility

/-! ## What grows with a text -/

/-- What is told of a text grows whenever characters are added at its end. -/
def Grows {α : Type} [LT α] (measure : List Char → α) : Prop :=
  ∀ cs ds, ds ≠ [] → measure cs < measure (cs ++ ds)

namespace Grows

variable {α : Type} [LinearOrder α] {measure : List Char → α} {p q s : List Char}

/-- Of two prefixes of one text, one goes on where the other ends, unless they are the same. -/
theorem prefix_cases (hp : p <+: s) (hq : q <+: s) :
    p = q ∨ (∃ ds, ds ≠ [] ∧ p ++ ds = q) ∨ ∃ ds, ds ≠ [] ∧ q ++ ds = p := by
  rcases List.prefix_or_prefix_of_prefix hp hq with ⟨ds, hds⟩ | ⟨ds, hds⟩
  · by_cases hnil : ds = []
    · left
      rw [← hds, hnil, List.append_nil]
    · exact .inr (.inl ⟨ds, hnil, hds⟩)
  · by_cases hnil : ds = []
    · left
      rw [← hds, hnil, List.append_nil]
    · exact .inr (.inr ⟨ds, hnil, hds⟩)

theorem length : Grows (List.length : List Char → Nat) := by
  intro cs ds h
  rw [List.length_append]
  have hpos := List.length_pos_iff.mpr h
  omega

/-- Whatever grows tells prefixes of one text apart. -/
theorem eq_iff (grows : Grows measure) (hp : p <+: s) (hq : q <+: s) :
    measure p = measure q ↔ p = q := by
  refine ⟨fun heq => ?_, fun heq => congrArg measure heq⟩
  rcases prefix_cases hp hq with hsame | ⟨ds, hds, rfl⟩ | ⟨ds, hds, rfl⟩
  · exact hsame
  · exact absurd heq (ne_of_lt (grows p ds hds))
  · exact absurd heq (ne_of_gt (grows q ds hds))

/-- Whatever grows orders the prefixes of one text by their length. -/
theorem lt_iff (grows : Grows measure) (hp : p <+: s) (hq : q <+: s) :
    measure p < measure q ↔ p.length < q.length := by
  rcases prefix_cases hp hq with rfl | ⟨ds, hds, rfl⟩ | ⟨ds, hds, rfl⟩
  · exact iff_of_false (lt_irrefl _) (Nat.lt_irrefl _)
  · exact iff_of_true (grows p ds hds) (length p ds hds)
  · exact iff_of_false (lt_asymm (grows q ds hds)) (Nat.lt_asymm (length q ds hds))

end Grows

namespace Position

/-! ## How positions grow -/

/-- A text that is not empty begins a row at least, or takes up room in the one it is in. -/
theorem advances {cs : List Char} (h : cs ≠ []) : 1 ≤ (ofChars cs).row ∨
    (ofChars cs).row = 0 ∧ 1 ≤ (ofChars cs).column8 ∧ 1 ≤ (ofChars cs).column16 := by
  obtain ⟨first, c, rfl⟩ := List.eq_nil_or_concat cs |>.resolve_left h
  rw [List.concat_eq_append, ofChars_append, ofChars_singleton]
  by_cases hc : c = '\n'
  · left
    rw [hc]
    exact Nat.le_add_left 1 _
  · have hchar : ofChar c = ⟨c.utf8Size, 0, c.utf8Size, units16 c⟩ := if_neg hc
    have hbytes := c.utf8Size_pos
    have hunits : 1 ≤ units16 c := by
      rw [units16]
      split <;> omega
    rw [add_row, add_column8, add_column16, hchar, if_neg (Nat.not_succ_le_zero 0),
      if_neg (Nat.not_succ_le_zero 0)]
    dsimp only
    omega

theorem grows_index : Grows fun cs => (ofChars cs).index := by
  intro cs ds h
  obtain ⟨hrow, hcolumn8, -⟩ := ofChars_le_index ds
  have hadvances := advances h
  simp only [ofChars_append, add_index]
  omega

/-- A column that starts afresh with each row, and has room in it for every character, makes a pair
with the row that grows. -/
theorem grows_place (column : Position → Nat)
    (hadd : ∀ p q : Position, column (p + q) = if 1 ≤ q.row then column q else column p + column q)
    (hroom : ∀ cs, cs ≠ [] → 1 ≤ (ofChars cs).row ∨
      (ofChars cs).row = 0 ∧ 1 ≤ column (ofChars cs)) :
    Grows fun cs => toLex ((ofChars cs).row, column (ofChars cs)) := by
  intro cs ds h
  simp only [ofChars_append, Prod.Lex.toLex_lt_toLex, add_row, hadd]
  rcases hroom ds h with hrow | ⟨hrow, hcolumn⟩
  · left
    omega
  · right
    rw [if_neg (by omega)]
    omega

theorem grows_place8 : Grows fun cs => toLex ((ofChars cs).row, (ofChars cs).column8) :=
  grows_place Position.column8 add_column8 fun _ h =>
    (advances h).imp id fun ⟨hrow, hcolumn, _⟩ => ⟨hrow, hcolumn⟩

theorem grows_place16 : Grows fun cs => toLex ((ofChars cs).row, (ofChars cs).column16) :=
  grows_place Position.column16 add_column16 fun _ h =>
    (advances h).imp id fun ⟨hrow, _, hcolumn⟩ => ⟨hrow, hcolumn⟩

/-! ## Written ranges -/

/-- The place of a position as it is written in a range. -/
def dotted (p : Position) : String := toString (p.row + 1) ++ "." ++ toString (p.column8 + 1)

/-- A number is read back from its digits. -/
theorem toString_inj {m n : Nat} (h : toString m = toString n) : m = n := by
  rw [Nat.toString_eq_ofList_toDigits, Nat.toString_eq_ofList_toDigits, String.ofList_inj] at h
  have hread := congrArg (Nat.ofDigitChars 10 · 0) h
  simpa only [Nat.ofDigitChars_toDigits (by decide : 1 < 10) (Nat.le_refl 10)] using hread

/-- A mark that is no digit stands in no number. -/
theorem notMem_toString {c : Char} (h : c.isDigit = false) (n : Nat) : c ∉ (toString n).toList := by
  intro hmem
  rw [Text.isDigit_of_mem_toString hmem] at h
  cases h

theorem toList_dotted (p : Position) : p.dotted.toList =
    (toString (p.row + 1)).toList ++ '.' :: (toString (p.column8 + 1)).toList := by
  rw [dotted, String.toList_append, String.toList_append, List.append_assoc]
  rfl

/-- The written place is that of one row and one column only. -/
theorem dotted_inj {p q : Position} :
    p.dotted = q.dotted ↔ (p.row, p.column8) = (q.row, q.column8) := by
  have hdot := notMem_toString (c := '.') rfl
  rw [← String.toList_inj, toList_dotted, toList_dotted,
    List.append_cons_inj_of_notMem (hdot _) (hdot _), String.toList_inj, String.toList_inj,
    Prod.mk.injEq]
  constructor
  · rintro ⟨hrow, -, hcolumn⟩
    exact ⟨Nat.succ.inj (toString_inj hrow), Nat.succ.inj (toString_inj hcolumn)⟩
  · rintro ⟨hrow, hcolumn⟩
    exact ⟨by rw [hrow], rfl, by rw [hcolumn]⟩

theorem dash_notMem_dotted (p : Position) : '-' ∉ p.dotted.toList := by
  have hdash := notMem_toString (c := '-') rfl
  rw [toList_dotted, List.mem_append, List.mem_cons, not_or, not_or]
  exact ⟨hdash _, by decide, hdash _⟩

end Position

/-- A range is written with the same place twice exactly if that is the place of both its ends. -/
theorem Range.display_twice {r : Range} :
    (∃ place, r.display = place ++ "-" ++ place) ↔ r.start.dotted = r.stop.dotted := by
  have hdisplay : r.display = r.start.dotted ++ "-" ++ r.stop.dotted := by
    simp only [Range.display, Position.dotted, String.append_assoc]
  have hlist : ∀ first second : String,
      (first ++ "-" ++ second).toList = first.toList ++ '-' :: second.toList := by
    intro first second
    rw [String.toList_append, String.toList_append, List.append_assoc]
    rfl
  constructor
  · rintro ⟨place, h⟩
    rw [hdisplay, ← String.toList_inj, hlist, hlist] at h
    -- there is one dash only in what is written, so it is the one in the middle
    obtain ⟨hstart, -, hstop⟩ := (List.append_cons_inj_of_notMem
      (Position.dash_notMem_dotted r.start) (Position.dash_notMem_dotted r.stop)).mp h
    rw [← String.toList_inj, hstart, hstop]
  · intro h
    exact ⟨r.stop.dotted, by rw [hdisplay, h]⟩

namespace Position

/-- A prefix of a short text is counted without a fault. -/
theorem checkedOfString_of_prefix {s t : String} (short : s.utf8ByteSize < limit)
    (h : t.toList <+: s.toList) : checkedOfString t = .ok (ofString t) := by
  obtain ⟨rest, hrest⟩ := h
  apply checkedOfString_of_short
  rw [← index_ofString, ofString, ← hrest, ofChars_append, add_index] at short
  rw [← index_ofString, ofString]
  omega

/-- Of two prefixes of one text of fewer bytes than the limit, the shorter one has the smaller
position, whether this is told by the index alone or by row and column, in bytes or in units of
UTF-16. Their positions are the same by the index exactly if all four counts agree, and the range
between them is empty exactly if it is written with the same place twice. -/
theorem compared_by_index {s p q : String} (short : s.utf8ByteSize < limit)
    (hp : p.toList <+: s.toList) (hq : q.toList <+: s.toList) :
    ∃ a b, checkedOfString p = .ok a ∧ checkedOfString q = .ok b ∧
      [a.order b = .lt, p.length < q.length, p.utf8ByteSize < q.utf8ByteSize,
        toLex (a.row, a.column8) < toLex (b.row, b.column8),
        toLex (a.row, a.column16) < toLex (b.row, b.column16)].TFAE ∧
      (a.sameIndex b = true ↔ a = b) ∧
      ((⟨a, b⟩ : Range).isEmpty = true ↔
        ∃ place, (⟨a, b⟩ : Range).display = place ++ "-" ++ place) := by
  have hsame : (ofString p).sameIndex (ofString q) = true ↔ p.toList = q.toList := by
    rw [sameIndex, beq_iff_eq]
    exact grows_index.eq_iff hp hq
  refine ⟨ofString p, ofString q, checkedOfString_of_prefix short hp,
    checkedOfString_of_prefix short hq, ?_, ?_, ?_⟩
  · have hindex := grows_index.lt_iff hp hq
    have hplace8 := grows_place8.lt_iff hp hq
    have hplace16 := grows_place16.lt_iff hp hq
    tfae_have 1 ↔ 2 := by
      rw [order, Nat.compare_eq_lt]
      exact hindex
    tfae_have 3 ↔ 2 := by
      rw [← index_ofString, ← index_ofString]
      exact hindex
    tfae_have 4 ↔ 2 := hplace8
    tfae_have 5 ↔ 2 := hplace16
    tfae_finish
  · rw [hsame]
    refine ⟨fun h => by rw [ofString, ofString, h], fun h => ?_⟩
    rw [← hsame, sameIndex, h, beq_self_eq_true]
  · rw [Range.isEmpty, hsame, Range.display_twice, dotted_inj]
    exact (grows_place8.eq_iff hp hq).symm

/-- Two prefixes that end in the same row, with characters of several bytes before and behind. -/
theorem compared_by_index_sample : "é\na".toList <+: "é\nab😀".toList ∧
    ∃ a b, checkedOfString "é\na" = .ok a ∧ checkedOfString "é\nab😀" = .ok b ∧
      a.order b = .lt ∧ toLex (a.row, a.column16) < toLex (b.row, b.column16) ∧
      (⟨a, b⟩ : Range).isEmpty = false := by
  have short : "é\nab😀".utf8ByteSize < limit := by decide +kernel
  have hp : "é\na".toList <+: "é\nab😀".toList := ⟨"b😀".toList, by decide +kernel⟩
  obtain ⟨a, b, ha, hb, hless, -, hempty⟩ := compared_by_index short hp (List.prefix_refl _)
  have hlength : "é\na".length < "é\nab😀".length := by decide +kernel
  have hcolumns := (hless.out 1 4).mp hlength
  refine ⟨hp, a, b, ha, hb, (hless.out 1 0).mp hlength, hcolumns, ?_⟩
  rw [Bool.eq_false_iff, ne_eq, hempty, Range.display_twice, dotted_inj]
  exact fun heq => absurd (congrArg toLex heq) (ne_of_lt ((hless.out 1 3).mp hlength))

end Position

end DeclVisibility
