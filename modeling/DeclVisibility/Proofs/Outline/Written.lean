import DeclVisibility.Outline
import DeclVisibility.Proofs.Text.Lines

/-!
# The lines of a written outline

Every item of an outline is written as one row, which ends with a line feed (`exists_rows`), unless
the position of one of them cannot be written (`renderOutline_of_not_displayable`). What stands
before the line feed at the end has no other but those of the name and, for a method, of its
parameters (`OutlineItem.exists_body`). A parameter is written without the blanks at either end of
its text, so a line feed gets into the row if there is something other than blanks on both sides of
it (`Text.lineFeeds_trim`).
-/

namespace DeclVisibility

namespace Text

/-! ## Counting line feeds -/

theorem lineFeeds_append (s t : String) : lineFeeds (s ++ t) = lineFeeds s + lineFeeds t := by
  rw [lineFeeds, String.toList_append, List.count_append, lineFeeds, lineFeeds]

theorem lineFeeds_eq_zero {s : String} : lineFeeds s = 0 ↔ '\n' ∉ s.toList :=
  List.count_eq_zero

theorem lineFeeds_join_eq_zero {texts : List String} :
    lineFeeds (String.join texts) = 0 ↔ ∀ text ∈ texts, lineFeeds text = 0 := by
  induction texts with
  | nil => exact iff_of_true rfl (List.forall_mem_nil _)
  | cons text rest ih =>
    rw [String.join_cons, lineFeeds_append, Nat.add_eq_zero_iff, ih, List.forall_mem_cons]

/-- A separator on one line adds no line feed. -/
theorem lineFeeds_intercalate {separator : String} (h : lineFeeds separator = 0)
    (texts : List String) :
    lineFeeds (separator.intercalate texts) = lineFeeds (String.join texts) := by
  induction texts with
  | nil => rfl
  | cons text rest ih =>
    cases rest with
    | nil => simp
    | cons next rest =>
      rw [String.intercalate_cons_cons, lineFeeds_append, lineFeeds_append, h, ih, Nat.add_zero,
        String.join_cons (l := next :: rest), lineFeeds_append]

/-! ## Blanks at the ends -/

/-- A blank stays when the blanks in front are dropped if there is something else before it. What is
behind it stays with it. -/
theorem exists_split_dropWhile {blank : Char → Bool} {c : Char} (hc : blank c = true)
    (behind : List Char → Prop) {cs : List Char} :
    (∃ before after, cs.dropWhile blank = before ++ c :: after ∧ behind after) ↔
      ∃ before after, cs = before ++ c :: after ∧ before.all blank = false ∧ behind after := by
  induction cs with
  | nil => simp
  | cons d cs ih =>
    by_cases hd : blank d = true
    · rw [List.dropWhile_cons_of_pos hd, ih]
      constructor
      · rintro ⟨before, after, rfl, hbefore, hafter⟩
        exact ⟨d :: before, after, rfl, by rw [List.all_cons, hd, hbefore]; rfl, hafter⟩
      · rintro ⟨before, after, heq, hbefore, hafter⟩
        cases before with
        | nil => cases hbefore
        | cons first before =>
          obtain ⟨rfl, rfl⟩ := List.cons.inj heq
          rw [List.all_cons, hd, Bool.true_and] at hbefore
          exact ⟨before, after, rfl, hbefore, hafter⟩
    · rw [List.dropWhile_cons_of_neg hd]
      constructor
      · rintro ⟨before, after, heq, hafter⟩
        cases before with
        | nil =>
          obtain ⟨rfl, rfl⟩ := List.cons.inj heq
          exact absurd hc hd
        | cons first before =>
          obtain ⟨rfl, rfl⟩ := List.cons.inj heq
          exact ⟨d :: before, after, rfl, by simp [hd], hafter⟩
      · rintro ⟨before, after, heq, -, hafter⟩
        exact ⟨before, after, heq, hafter⟩

/-- A blank is left in a trimmed text if there is something else on both sides of it. -/
theorem mem_trimChars {c : Char} (hc : isBlank c = true) {cs : List Char} : c ∈ trimChars cs ↔
    ∃ before after, cs = before ++ c :: after ∧ before.all isBlank = false ∧
      after.all isBlank = false := by
  rw [← exists_split_dropWhile hc (fun after => after.all isBlank = false), trimChars,
    List.mem_reverse]
  -- the text is trimmed at its end as it is in front, read backwards
  have hback : c ∈ (cs.dropWhile isBlank).reverse.dropWhile isBlank ↔ ∃ before after,
      (cs.dropWhile isBlank).reverse = before ++ c :: after ∧ before.all isBlank = false ∧ True := by
    rw [← exists_split_dropWhile hc fun _ => True, List.mem_iff_append]
    simp only [and_true]
  rw [hback]
  constructor
  · rintro ⟨after, before, heq, hafter, -⟩
    refine ⟨before.reverse, after.reverse, ?_, by rwa [List.all_reverse]⟩
    rw [List.reverse_eq_iff] at heq
    simp [heq]
  · rintro ⟨before, after, heq, hafter⟩
    exact ⟨after.reverse, before.reverse, by simp [heq], by rwa [List.all_reverse], trivial⟩

/-- Whether all that is not blank stands on one line: each line feed has nothing but blanks before
it, or nothing but blanks behind it. -/
def OnOneLine (s : String) : Prop :=
  ∀ before after, s = before ++ "\n" ++ after → isAllBlank before = true ∨ isAllBlank after = true

theorem lineFeeds_trim {s : String} : lineFeeds (trim s) = 0 ↔ OnOneLine s := by
  rw [lineFeeds_eq_zero, trim, String.toList_ofList, mem_trimChars (by decide)]
  constructor
  · intro hnone before after heq
    by_contra hblank
    rw [not_or, Bool.not_eq_true, Bool.not_eq_true] at hblank
    exact hnone ⟨before.toList, after.toList, by rw [heq]; simp, hblank.1, hblank.2⟩
  · rintro honeLine ⟨before, after, heq, hbefore, hafter⟩
    have hs : s = String.ofList before ++ "\n" ++ String.ofList after := by
      rw [← String.toList_inj, heq]
      simp
    have hblank := honeLine _ _ hs
    rw [isAllBlank, isAllBlank, String.toList_ofList, String.toList_ofList, hbefore, hafter] at hblank
    exact hblank.elim Bool.false_ne_true Bool.false_ne_true

end Text

namespace OutlineItem

variable {item : OutlineItem}

/-- The marks stand on one line. -/
theorem lineFeeds_marks (item : OutlineItem) : ∀ mark ∈ item.marks, Text.lineFeeds mark = 0 := by
  intro mark hmark
  have hmem : mark ∈ ["static", "public", "private", "fixable"] := by
    rw [marks, List.mem_append, List.mem_append] at hmark
    rcases hmark with (hmark | hmark) | hmark
    · split at hmark <;> simp_all
    · split at hmark <;> simp_all
    · split at hmark <;> simp_all
  have hall : ∀ mark ∈ ["static", "public", "private", "fixable"], Text.lineFeeds mark = 0 := by
    decide
  exact hall mark hmem

/-- What is told about an item whose position can be written. The only line feeds in it are those of
the name and the parameters. -/
theorem exists_body (h : item.pos.Displayable) : ∃ body, item.body = .ok body ∧
    Text.lineFeeds body = Text.lineFeeds item.name +
      if item.presentation.kind = .method then Text.lineFeeds (String.join item.declarations) else 0 := by
  have hword : Text.lineFeeds item.presentation.kind.word = 0 := by
    cases item.presentation.kind <;> decide
  have hpos := Text.lineFeeds_eq_zero.mpr (Position.feed_notMem_display h.display)
  have hmarks : Text.lineFeeds (" ".intercalate item.marks) = 0 := by
    rw [Text.lineFeeds_intercalate (by decide), Text.lineFeeds_join_eq_zero]
    exact item.lineFeeds_marks
  have hparams : Text.lineFeeds (", ".intercalate item.declarations) =
      Text.lineFeeds (String.join item.declarations) :=
    Text.lineFeeds_intercalate (by decide) _
  have hone : ∀ literal ∈ [" ", "(", ")", "  ", "", "  [", "]"], Text.lineFeeds literal = 0 := by
    decide
  refine ⟨_, by rw [body, h.display]; rfl, ?_⟩
  generalize toString (item.pos.row + 1) ++ ":" ++ toString (item.pos.column8 + 1) = place at hpos
  simp only [Text.lineFeeds_append, hword, hpos]
  split <;> split <;>
    simp only [Text.lineFeeds_append, hparams, hmarks, hone, List.mem_cons, true_or, or_true] <;>
    omega

theorem margin_eq (h : 2 * item.depth ≤ marginLimit) : item.margin = .ok (2 * item.depth) := by
  have hlimit : marginLimit = 65535 := rfl
  rw [margin]
  exact (if_neg (by omega)).trans (if_neg (by omega))

/-- The row of an item is its margin, what is told about it, and a line feed. -/
theorem exists_render (hmargin : 2 * item.depth ≤ marginLimit) (h : item.pos.Displayable) :
    ∃ line, item.render = .ok (line ++ "\n") ∧ Text.lineFeeds line = Text.lineFeeds item.name +
      if item.presentation.kind = .method then Text.lineFeeds (String.join item.declarations) else 0 := by
  obtain ⟨body, hbody, hfeeds⟩ := exists_body h
  have hblanks : Text.lineFeeds (String.ofList (List.replicate (2 * item.depth) ' ')) = 0 := by
    rw [Text.lineFeeds_eq_zero, String.toList_ofList]
    intro hmem
    exact absurd (List.eq_of_mem_replicate hmem) (by decide)
  refine ⟨String.ofList (List.replicate (2 * item.depth) ' ') ++ body, ?_, ?_⟩
  · rw [render, margin_eq hmargin, hbody]
    rfl
  · rw [Text.lineFeeds_append, hblanks, Nat.zero_add, hfeeds]

/-- An item with a margin has no row if its position cannot be written. -/
theorem render_of_not_displayable (hmargin : 2 * item.depth ≤ marginLimit)
    (h : ¬ item.pos.Displayable) : item.render = .error .positionOverflow := by
  rw [render, margin_eq hmargin, body, Position.display_of_not_displayable h]
  rfl

end OutlineItem

/-- An outline whose items all have a margin and a position that can be written is written as a row
for each item, one behind the other. -/
theorem exists_rows {items : List OutlineItem}
    (margins : ∀ item ∈ items, 2 * item.depth ≤ OutlineItem.marginLimit)
    (h : ∀ item ∈ items, item.pos.Displayable) :
    ∃ rows, renderOutline items = .ok (String.join rows) ∧
      List.Forall₂ (fun item row => ∃ line, row = line ++ "\n" ∧
        Text.lineFeeds line = Text.lineFeeds item.name +
          if item.presentation.kind = .method then Text.lineFeeds (String.join item.declarations)
          else 0) items rows := by
  induction items with
  | nil => exact ⟨[], rfl, .nil⟩
  | cons item rest ih =>
    rw [List.forall_mem_cons] at margins h
    obtain ⟨rows, hrows, hlines⟩ := ih margins.2 h.2
    obtain ⟨line, hline, hfeeds⟩ := OutlineItem.exists_render margins.1 h.1
    refine ⟨(line ++ "\n") :: rows, ?_, .cons ⟨line, rfl, hfeeds⟩ hlines⟩
    rw [renderOutline, hline, String.join_cons]
    simp only [hrows]

/-- An outline whose items all have a margin is written unless a position cannot be written. -/
theorem renderOutline_of_not_displayable {items : List OutlineItem}
    (margins : ∀ item ∈ items, 2 * item.depth ≤ OutlineItem.marginLimit) {item : OutlineItem}
    (hitem : item ∈ items) (h : ¬ item.pos.Displayable) :
    renderOutline items = .error .positionOverflow := by
  induction items with
  | nil => cases hitem
  | cons first rest ih =>
    rw [List.forall_mem_cons] at margins
    by_cases hfirst : first.pos.Displayable
    · obtain ⟨line, hline, -⟩ := OutlineItem.exists_render margins.1 hfirst
      have hrest : item ∈ rest := by
        refine (List.mem_cons.mp hitem).resolve_left fun heq => h ?_
        rwa [heq]
      rw [renderOutline, hline]
      simp only [ih margins.2 hrest]
    · rw [renderOutline, OutlineItem.render_of_not_displayable margins.1 hfirst]

/-- Where all items have a margin, the only fault is a position that cannot be written. -/
theorem fault_of_renderOutline {items : List OutlineItem}
    (margins : ∀ item ∈ items, 2 * item.depth ≤ OutlineItem.marginLimit) {fault : Fault}
    (h : renderOutline items = .error fault) : fault = .positionOverflow := by
  by_cases hall : ∀ item ∈ items, item.pos.Displayable
  · obtain ⟨rows, hrows, -⟩ := exists_rows margins hall
    cases hrows.symm.trans h
  · rw [not_forall] at hall
    obtain ⟨item, hitem⟩ := hall
    obtain ⟨hmem, hpos⟩ := Classical.not_imp.mp hitem
    exact Except.error.inj (h.symm.trans (renderOutline_of_not_displayable margins hmem hpos))

end DeclVisibility
