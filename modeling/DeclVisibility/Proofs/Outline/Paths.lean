import DeclVisibility.Symbol
import Mathlib.Data.List.Infix
import Mathlib.Tactic.Tauto

/-!
# Paths as texts

A path is written with pairs of colons between its parts, and read by cutting it at each pair from
the left. What was cut gives the text back when it is joined (`intercalate_splitPath`), but what was
joined is only cut where it was joined if the parts can be told apart (`Separable`): no part has a
pair of colons in it, and none but the last ends in a colon. So names can be read off their path
exactly if they are separable (`pathOf_intercalate_eq_iff`); in any case at least as many parts are
read as names were joined (`length_le_pathOf`).
-/

namespace DeclVisibility

/-- Parts that can be told apart when pairs of colons are put between them. -/
def Separable (parts : List (List Char)) : Prop :=
  (∀ part ∈ parts, ¬ [':', ':'] <:+: part) ∧ ∀ part ∈ parts.dropLast, ¬ [':'] <:+ part

variable {c : Char} {cs part first : List Char} {parts others : List (List Char)}

theorem separable_singleton : Separable [part] ↔ ¬ [':', ':'] <:+: part := by
  simp [Separable]

theorem separable_cons (h : parts ≠ []) : Separable (part :: parts) ↔
    ¬ [':', ':'] <:+: part ∧ ¬ [':'] <:+ part ∧ Separable parts := by
  simp only [Separable, List.dropLast_cons_of_ne_nil h, List.forall_mem_cons]
  tauto

/-! ## Cutting -/

theorem splitPath_ne_nil (cs : List Char) : splitPath cs ≠ [] := by
  fun_cases splitPath cs <;> simp

/-- Two colons at the front end an empty part. -/
theorem splitPath_colons (cs : List Char) : splitPath (':' :: ':' :: cs) = [] :: splitPath cs :=
  rfl

/-- Any other character stands in the first part. -/
theorem splitPath_cons (h : ¬ [':', ':'] <+: c :: cs) :
    ∃ first others, splitPath cs = first :: others ∧ splitPath (c :: cs) = (c :: first) :: others := by
  obtain ⟨first, others, hcs⟩ := List.exists_cons_of_ne_nil (splitPath_ne_nil cs)
  refine ⟨first, others, hcs, ?_⟩
  rw [splitPath, hcs]
  rintro rest rfl rfl
  exact h ⟨rest, rfl⟩

/-- A text starts with two colons, or its first character stands in its first part. -/
theorem splitPath_induction {motive : List Char → Prop} (nil : motive [])
    (colons : ∀ cs, motive cs → motive (':' :: ':' :: cs))
    (cons : ∀ c cs first others, ¬ [':', ':'] <+: c :: cs → splitPath cs = first :: others →
      splitPath (c :: cs) = (c :: first) :: others → motive cs → motive (c :: cs))
    (cs : List Char) : motive cs := by
  induction cs using splitPath.induct with
  | case1 => exact nil
  | case2 cs ih => exact colons cs ih
  | case3 c cs _ hcs => exact absurd hcs (splitPath_ne_nil cs)
  | case4 c cs hfront first others hcs ih =>
    have hnot : ¬ [':', ':'] <+: c :: cs := by
      rintro ⟨rest, hrest⟩
      obtain ⟨rfl, rfl⟩ := List.cons.inj hrest
      exact hfront rest rfl rfl
    obtain ⟨_, _, hcs', hsplit⟩ := splitPath_cons hnot
    obtain ⟨rfl, rfl⟩ := List.cons.inj (hcs'.symm.trans hcs)
    exact cons c cs _ _ hnot hcs hsplit ih

/-- The parts joined give the text back. -/
theorem intercalate_splitPath (cs : List Char) : [':', ':'].intercalate (splitPath cs) = cs := by
  induction cs using splitPath_induction with
  | nil => rfl
  | colons cs ih =>
    rw [splitPath_colons, List.intercalate_cons_of_ne_nil (splitPath_ne_nil cs), ih]
    rfl
  | cons c cs first others _ hcs hsplit ih =>
    rw [hcs] at ih
    rw [hsplit, ← ih]
    cases others with
    | nil => rfl
    | cons next others => rw [List.intercalate_cons_cons, List.intercalate_cons_cons]; rfl

/-- What was cut can be told apart. -/
theorem separable_splitPath (cs : List Char) : Separable (splitPath cs) := by
  induction cs using splitPath_induction with
  | nil => simp [splitPath, separable_singleton]
  | colons cs ih =>
    rw [splitPath_colons, separable_cons (splitPath_ne_nil cs)]
    exact ⟨by simp, by simp, ih⟩
  | cons c cs first others hfront hcs hsplit ih =>
    have hjoin := intercalate_splitPath cs
    rw [hcs] at hjoin ih
    rw [hsplit]
    -- the first part is what the text starts with
    have hunbroken : ¬ [':', ':'] <:+: first → ¬ [':', ':'] <:+: c :: first := by
      intro hfirst hinfix
      refine (List.infix_cons_iff.mp hinfix).elim (fun hprefix => hfront ?_) hfirst
      have hstart : first <+: cs := by
        rw [← hjoin]
        cases others with
        | nil => rw [List.intercalate_singleton]
        | cons next others =>
          rw [List.intercalate_cons_cons, List.append_assoc]
          exact List.prefix_append _ _
      exact hprefix.trans (List.cons_prefix_cons.mpr ⟨rfl, hstart⟩)
    cases others with
    | nil =>
      rw [separable_singleton] at ih ⊢
      exact hunbroken ih
    | cons next others =>
      rw [separable_cons (List.cons_ne_nil _ _)] at ih ⊢
      obtain ⟨hfirst, hend, hrest⟩ := ih
      refine ⟨hunbroken hfirst, fun hsuffix => ?_, hrest⟩
      rcases List.suffix_cons_iff.mp hsuffix with heq | hsuffix
      · -- a colon alone would have its pair behind it
        obtain ⟨rfl, rfl⟩ := List.cons.inj heq
        refine hfront ?_
        rw [← hjoin, List.intercalate_cons_cons]
        exact ⟨_, rfl⟩
      · exact hend hsuffix

/-! ## Cutting what was joined -/

/-- A part that does not run into the colons behind it is cut off whole. -/
theorem splitPath_append (unbroken : ¬ [':', ':'] <:+: part) (ends : ¬ [':'] <:+ part) :
    splitPath (part ++ ':' :: ':' :: cs) = part :: splitPath cs := by
  induction part with
  | nil => rfl
  | cons c part ih =>
    have hfront : ¬ [':', ':'] <+: c :: (part ++ ':' :: ':' :: cs) := by
      intro hprefix
      obtain ⟨rfl, hsecond⟩ := List.cons_prefix_cons.mp hprefix
      cases part with
      | nil => exact ends (List.suffix_refl _)
      | cons next part =>
        obtain ⟨rfl, -⟩ := List.cons_prefix_cons.mp hsecond
        exact unbroken (List.IsPrefix.isInfix ⟨part, rfl⟩)
    obtain ⟨first, others, hcs, hsplit⟩ := splitPath_cons hfront
    have hrest := ih (fun hinfix => unbroken (List.infix_cons hinfix))
      (fun hsuffix => ends (hsuffix.trans (List.suffix_cons c part)))
    obtain ⟨rfl, rfl⟩ := List.cons.inj (hcs.symm.trans hrest)
    rw [List.cons_append, hsplit]

theorem splitPath_of_unbroken (unbroken : ¬ [':', ':'] <:+: part) : splitPath part = [part] := by
  induction part with
  | nil => rfl
  | cons c part ih =>
    obtain ⟨first, others, hcs, hsplit⟩ :=
      splitPath_cons fun hprefix => unbroken hprefix.isInfix
    have hrest := ih fun hinfix => unbroken (List.infix_cons hinfix)
    obtain ⟨rfl, rfl⟩ := List.cons.inj (hcs.symm.trans hrest)
    exact hsplit

/-- Parts that can be told apart are cut where they were joined. -/
theorem splitPath_intercalate (nonempty : parts ≠ []) (h : Separable parts) :
    splitPath ([':', ':'].intercalate parts) = parts := by
  induction parts with
  | nil => exact absurd rfl nonempty
  | cons part rest ih =>
    by_cases hrest : rest = []
    · subst hrest
      rw [List.intercalate_singleton]
      exact splitPath_of_unbroken (separable_singleton.mp h)
    · obtain ⟨unbroken, ends, hseparable⟩ := (separable_cons hrest).mp h
      rw [List.intercalate_cons_of_ne_nil hrest, List.append_assoc]
      exact (splitPath_append unbroken ends).trans (congrArg _ (ih hrest hseparable))

/-! ## How many parts there are -/

/-- One more character in front adds one part or none. -/
theorem length_splitPath_cons (c : Char) (cs : List Char) :
    (splitPath cs).length ≤ (splitPath (c :: cs)).length ∧
      (splitPath (c :: cs)).length ≤ (splitPath cs).length + 1 := by
  induction cs generalizing c with
  | nil =>
    obtain ⟨first, others, hcs, hsplit⟩ := @splitPath_cons c [] (by simp)
    rw [hcs, hsplit]
    simp
  | cons d cs ih =>
    by_cases hfront : [':', ':'] <+: c :: d :: cs
    · obtain ⟨rfl, hsecond⟩ := List.cons_prefix_cons.mp hfront
      obtain ⟨rfl, -⟩ := List.cons_prefix_cons.mp hsecond
      have hrest := ih ':'
      rw [splitPath_colons, List.length_cons]
      omega
    · obtain ⟨first, others, hcs, hsplit⟩ := splitPath_cons hfront
      rw [hcs, hsplit]
      simp

theorem length_splitPath_append (part cs : List Char) :
    (splitPath part).length + (splitPath cs).length ≤
      (splitPath (part ++ ':' :: ':' :: cs)).length := by
  induction part using splitPath_induction with
  | nil =>
    rw [List.nil_append, splitPath_colons, List.length_cons]
    simp [splitPath, Nat.add_comm]
  | colons part ih =>
    rw [List.cons_append, List.cons_append, splitPath_colons, splitPath_colons, List.length_cons,
      List.length_cons]
    omega
  | cons c part first others hfront hpart hsplit ih =>
    rw [hpart] at ih
    rw [hsplit, List.cons_append]
    exact ih.trans (length_splitPath_cons c _).1

/-- At least as many parts are cut as were joined. -/
theorem length_le_splitPath (parts : List (List Char)) :
    parts.length ≤ (splitPath ([':', ':'].intercalate parts)).length := by
  induction parts with
  | nil => exact Nat.zero_le _
  | cons part rest ih =>
    have hpart := List.length_pos_iff.mpr (splitPath_ne_nil part)
    by_cases hrest : rest = []
    · subst hrest
      rw [List.intercalate_singleton]
      exact hpart
    · have happend := length_splitPath_append part ([':', ':'].intercalate rest)
      rw [List.intercalate_cons_of_ne_nil hrest, List.append_assoc, List.length_cons]
      exact (show rest.length + 1 ≤ _ by omega).trans happend

/-! ## Blanks around the parts -/

theorem Text.trimChars_sublist (cs : List Char) : (Text.trimChars cs).Sublist cs := by
  have hback := List.dropWhile_sublist Text.isBlank (l := (cs.dropWhile Text.isBlank).reverse)
  have hfront := List.dropWhile_sublist Text.isBlank (l := cs)
  rw [Text.trimChars]
  exact (List.reverse_reverse (cs.dropWhile Text.isBlank) ▸ hback.reverse).trans hfront

/-- Parts that lose nothing when they are joined trimmed are trimmed. -/
theorem length_intercalate_trim (parts : List (List Char)) :
    ([':', ':'].intercalate (parts.map Text.trimChars)).length ≤
        ([':', ':'].intercalate parts).length ∧
      (([':', ':'].intercalate parts).length ≤
          ([':', ':'].intercalate (parts.map Text.trimChars)).length →
        parts.map Text.trimChars = parts) := by
  induction parts with
  | nil => simp
  | cons part rest ih =>
    have hpart := Text.trimChars_sublist part
    have hle := hpart.length_le
    by_cases hrest : rest = []
    · subst hrest
      simp only [List.map_cons, List.map_nil, List.intercalate_singleton]
      exact ⟨hle, fun hge => congrArg (fun p => [p]) (hpart.eq_of_length_le hge)⟩
    · have hmap : rest.map Text.trimChars ≠ [] := by simpa using hrest
      rw [List.map_cons, List.intercalate_cons_of_ne_nil hrest, List.intercalate_cons_of_ne_nil hmap]
      simp only [List.length_append]
      obtain ⟨hrestLe, hrestEq⟩ := ih
      refine ⟨by omega, fun hge => ?_⟩
      rw [hpart.eq_of_length_le (by omega), hrestEq (by omega)]

/-! ## Names -/

/-- The path of names, read again. -/
theorem pathOf_intercalate (names : List String) : pathOf ("::".intercalate names) =
    (splitPath ([':', ':'].intercalate (names.map String.toList))).map
      (Text.trim ∘ String.ofList) := by
  rw [pathOf, String.toList_intercalate]
  rfl

theorem length_le_pathOf (names : List String) :
    names.length ≤ (pathOf ("::".intercalate names)).length := by
  have hle := length_le_splitPath (names.map String.toList)
  rwa [pathOf_intercalate, List.length_map, ← List.length_map (f := String.toList)]

/-- Names without blanks around them are read off their path exactly if they can be told apart. -/
theorem pathOf_intercalate_eq_iff {names : List String} (nonempty : names ≠ [])
    (trimmed : ∀ name ∈ names, Text.trim name = name) :
    pathOf ("::".intercalate names) = names ↔ Separable (names.map String.toList) := by
  have hnonempty : names.map String.toList ≠ [] := by simpa using nonempty
  rw [pathOf_intercalate]
  constructor
  · intro hread
    generalize hparts : splitPath ([':', ':'].intercalate (names.map String.toList)) = parts at hread
    have hjoin : [':', ':'].intercalate parts = [':', ':'].intercalate (names.map String.toList) :=
      hparts ▸ intercalate_splitPath _
    have hnames : parts.map Text.trimChars = names.map String.toList := by
      rw [← hread, List.map_map]
      exact List.map_congr_left fun part _ => by simp [Text.trim]
    have hsame := (length_intercalate_trim parts).2 (by rw [hnames, hjoin])
    rw [← hnames, hsame, ← hparts]
    exact separable_splitPath _
  · intro hseparable
    rw [splitPath_intercalate hnonempty hseparable, List.map_map]
    calc
      _ = names.map id := List.map_congr_left fun name hname => by simp [trimmed name hname]
      _ = names := List.map_id names

end DeclVisibility
