import DeclVisibility.Proofs.Json.Depth
import DeclVisibility.Proofs.Text.Position

/-!
# What is read takes up bytes of the text

A reader spends at least as many bytes as the value that it gives takes up (`Read.Spends`): what is
left of the text is shorter by them. A string takes up its own bytes and a closing quote, since an
escape is never shorter than the character that it stands for (`spends_readText`); a list takes up
its items (`spends_list`), and an object its members, each with a quoted key and a colon
(`size_of_object`). What is only read over is asked for no more than to leave what follows it
(`Read.Shrinks`).
-/

namespace DeclVisibility.Json

variable {α β κ σ : Type}

/-! ## Bytes of characters -/

@[simp] theorem byteCount_nil : byteCount [] = 0 := rfl

@[simp] theorem byteCount_cons (c : Char) (cs : List Char) :
    byteCount (c :: cs) = c.utf8Size + byteCount cs := rfl

theorem utf8ByteSize_ofList (cs : List Char) :
    (String.ofList cs).utf8ByteSize = byteCount cs := by
  induction cs with
  | nil => rfl
  | cons c cs ih => rw [Text.utf8ByteSize_cons, ih, byteCount_cons]

theorem byteCount_toList (s : String) : byteCount s.toList = s.utf8ByteSize := by
  rw [← utf8ByteSize_ofList, String.ofList_toList]

theorem byteCount_append (cs ds : List Char) :
    byteCount (cs ++ ds) = byteCount cs + byteCount ds := by
  induction cs with
  | nil => rw [List.nil_append, byteCount_nil, Nat.zero_add]
  | cons c cs ih => rw [List.cons_append, byteCount_cons, byteCount_cons, ih, Nat.add_assoc]

theorem byteCount_le_of_suffix {cs rest : List Char} (h : rest <:+ cs) :
    byteCount rest ≤ byteCount cs := by
  obtain ⟨front, rfl⟩ := h
  rw [byteCount_append]
  exact Nat.le_add_left _ _

theorem byteCount_skipGap (cs : List Char) : byteCount (skipGap cs) ≤ byteCount cs :=
  byteCount_le_of_suffix (List.dropWhile_suffix _)

/-- A character behind the blanks is one of the text. -/
theorem byteCount_of_skipGap {cs rest : List Char} {c : Char} (h : skipGap cs = c :: rest) :
    byteCount rest + 1 ≤ byteCount cs := by
  have hle := byteCount_skipGap cs
  have hpos := c.utf8Size_pos
  rw [h, byteCount_cons] at hle
  omega

/-! ## Spending bytes -/

/-- A value takes up as many bytes as its cost, at least. -/
def Read.Spends (cost : α → Nat) (read : Read α) : Prop :=
  ∀ cs a rest, read cs = .ok (a, rest) → cost a + byteCount rest ≤ byteCount cs

/-- No more is left than there was. -/
def Read.Shrinks (read : Read α) : Prop :=
  ∀ cs a rest, read cs = .ok (a, rest) → byteCount rest ≤ byteCount cs

namespace Read

theorem Spends.shrinks {cost : α → Nat} {read : Read α} (h : read.Spends cost) : read.Shrinks :=
  fun cs a rest hread => Nat.le_trans (Nat.le_add_left _ _) (h cs a rest hread)

theorem Shrinks.spends {read : Read α} (h : read.Shrinks) : read.Spends fun _ => 0 :=
  fun cs a rest hread => (Nat.zero_add (byteCount rest)).symm ▸ h cs a rest hread

theorem Shrinks.map {read : Read α} (h : read.Shrinks) (f : α → β) :
    (Read.map f read).Shrinks := by
  intro cs b rest hread
  obtain ⟨a, ha, -⟩ := map_eq_ok.mp hread
  exact h cs a rest ha

end Read

theorem shrinks_word (expected : List Char) : (word expected).Shrinks := by
  induction expected with
  | nil =>
    intro cs a rest h
    obtain ⟨-, rfl⟩ := Prod.mk.inj (Except.ok.inj h)
    exact Nat.le_refl _
  | cons e more ih =>
    intro cs a rest h
    cases cs with
    | nil => cases h
    | cons c cs =>
      rw [word] at h
      split at h
      · exact Nat.le_trans (ih cs a rest h) (Nat.le_add_left _ _)
      · cases h

/-! ## Strings -/

theorem withFirst_eq_ok {c : Char} {tail : Except Cause (List Char × List Char)}
    {cs rest : List Char} :
    withFirst c tail = .ok (cs, rest) ↔ ∃ more, tail = .ok (more, rest) ∧ cs = c :: more := by
  cases tail with
  | error cause => simp [withFirst]
  | ok found =>
    obtain ⟨more, left⟩ := found
    simp only [withFirst, Except.ok.injEq, Prod.mk.injEq]
    constructor
    · rintro ⟨rfl, rfl⟩
      exact ⟨more, ⟨rfl, rfl⟩, rfl⟩
    · rintro ⟨_, ⟨rfl, rfl⟩, rfl⟩
      exact ⟨rfl, rfl⟩

theorem utf8Size_of_shortEscape? {c e : Char} (h : shortEscape? c = some e) : e.utf8Size = 1 := by
  rw [shortEscape?] at h
  repeat' split at h
  all_goals cases h
  all_goals decide

/-- A character of a string takes up no more bytes than what was read for it. -/
theorem byteCount_of_withFirst {c : Char} (taken : List Char) {rest cs left : List Char}
    (hle : c.utf8Size ≤ byteCount taken)
    (ih : ∀ cs left, readChars rest = .ok (cs, left) →
      byteCount cs + 1 + byteCount left ≤ byteCount rest)
    (h : withFirst c (readChars rest) = .ok (cs, left)) :
    byteCount cs + 1 + byteCount left ≤ byteCount (taken ++ rest) := by
  obtain ⟨more, hmore, rfl⟩ := withFirst_eq_ok.mp h
  have hrest := ih more left hmore
  rw [byteCount_append, byteCount_cons]
  omega

/-- An escape is no shorter than its character, and a closing quote follows the last one. -/
theorem spends_readChars : readChars.Spends fun cs => byteCount cs + 1 := by
  -- an escape by number has six characters at least, and no character has more than four bytes
  have hescape : ∀ (e a b c d : Char) (more : List Char),
      e.utf8Size ≤ byteCount ('\\' :: 'u' :: a :: b :: c :: d :: more) := by
    intro e a b c d more
    have hfour := e.utf8Size_le_four
    have ha := a.utf8Size_pos
    have hb := b.utf8Size_pos
    have hslash : '\\'.utf8Size = 1 := rfl
    have hu : 'u'.utf8Size = 1 := rfl
    simp only [byteCount_cons, hslash, hu]
    omega
  intro cs
  fun_induction readChars cs with
  | case2 rest =>
    intro cs left h
    obtain ⟨rfl, rfl⟩ := Prod.mk.inj (Except.ok.inj h)
    exact Nat.le_refl _
  | case9 a b c d _ _ _ _ e f g h _ _ _ _ ih =>
    intro cs left hread
    exact byteCount_of_withFirst _ (hescape _ a b c d ['\\', 'u', e, f, g, h]) ih hread
  | case13 a b c d _ _ _ _ _ ih =>
    intro cs left hread
    exact byteCount_of_withFirst _ (hescape _ a b c d []) ih hread
  | case15 c _ _ _ e he ih =>
    intro cs left hread
    refine byteCount_of_withFirst ['\\', c] ?_ ih hread
    rw [utf8Size_of_shortEscape? he]
    exact Nat.le_add_right 1 _
  | case18 c _ _ _ _ _ _ _ ih =>
    intro cs left hread
    exact byteCount_of_withFirst [c] (Nat.le_refl _) ih hread
  | _ => exact fun _ _ h => nomatch h

/-- A string takes up its own bytes and the closing quote; the opening one was read before. -/
theorem spends_readText : readText.Spends fun s => s.utf8ByteSize + 1 := by
  intro cs s rest h
  obtain ⟨chars, hchars, rfl⟩ := Read.map_eq_ok.mp h
  show (String.ofList chars).utf8ByteSize + 1 + byteCount rest ≤ byteCount cs
  rw [utf8ByteSize_ofList]
  exact spends_readChars cs chars rest hchars

theorem shrinks_skipText : skipText.Shrinks := by
  intro cs
  fun_induction skipText cs with
  | case2 rest =>
    intro a left h
    obtain ⟨-, rfl⟩ := Prod.mk.inj (Except.ok.inj h)
    exact Nat.le_add_left _ _
  | case5 a b c d rest _ _ ih =>
    exact fun _ left h => Nat.le_trans (ih _ left h)
      (byteCount_le_of_suffix (List.suffix_append ['\\', 'u', a, b, c, d] rest))
  | case7 c rest _ _ _ _ ih =>
    exact fun _ left h => Nat.le_trans (ih _ left h)
      (byteCount_le_of_suffix (List.suffix_append ['\\', c] rest))
  | case10 c rest _ _ _ _ _ _ ih =>
    exact fun _ left h => Nat.le_trans (ih _ left h)
      (byteCount_le_of_suffix (List.suffix_cons c rest))
  | _ => exact fun _ _ h => nomatch h

/-! ## Numbers -/

theorem shrinks_scanDigits : scanDigits.Shrinks := by
  intro cs digits rest h
  cases cs with
  | nil => cases h
  | cons c cs =>
    rw [scanDigits] at h
    split at h
    · obtain ⟨-, rfl⟩ := Prod.mk.inj (Except.ok.inj h)
      exact byteCount_le_of_suffix (List.dropWhile_suffix _)
    · cases h

theorem shrinks_scanWhole : scanWhole.Shrinks := by
  intro cs digits rest h
  rw [scanWhole.eq_def] at h
  split at h
  · split at h
    · cases h
    · obtain ⟨-, rfl⟩ := Prod.mk.inj (Except.ok.inj h)
      exact Nat.le_add_left _ _
  · exact shrinks_scanDigits _ _ _ h

theorem shrinks_scanFraction : scanFraction.Shrinks := by
  intro cs digits rest h
  rw [scanFraction.eq_def] at h
  split at h
  · exact Nat.le_trans (shrinks_scanDigits _ _ _ h) (Nat.le_add_left _ _)
  · obtain ⟨-, rfl⟩ := Prod.mk.inj (Except.ok.inj h)
    exact Nat.le_refl _

theorem shrinks_scanSigned : scanSigned.Shrinks := by
  intro cs digits rest h
  rw [scanSigned.eq_def] at h
  split at h
  · exact Nat.le_trans (shrinks_scanDigits.map _ _ _ _ h) (Nat.le_add_left _ _)
  · exact Nat.le_trans (shrinks_scanDigits.map _ _ _ _ h) (Nat.le_add_left _ _)
  · exact shrinks_scanDigits.map _ _ _ _ h

theorem shrinks_scanExponent : scanExponent.Shrinks := by
  intro cs digits rest h
  rw [scanExponent.eq_def] at h
  split at h
  · exact Nat.le_trans (shrinks_scanSigned.map _ _ _ _ h) (Nat.le_add_left _ _)
  · exact Nat.le_trans (shrinks_scanSigned.map _ _ _ _ h) (Nat.le_add_left _ _)
  · obtain ⟨-, rfl⟩ := Prod.mk.inj (Except.ok.inj h)
    exact Nat.le_refl _

theorem shrinks_scanUnsigned (negative : Bool) : (scanUnsigned negative).Shrinks := by
  intro cs parts rest h
  rw [scanUnsigned] at h
  split at h
  · cases h
  · rename_i hwhole
    split at h
    · cases h
    · rename_i hfraction
      split at h
      · cases h
      · rename_i hexponent
        obtain ⟨-, rfl⟩ := Prod.mk.inj (Except.ok.inj h)
        exact (shrinks_scanExponent _ _ _ hexponent).trans
          ((shrinks_scanFraction _ _ _ hfraction).trans (shrinks_scanWhole _ _ _ hwhole))

theorem shrinks_scanNumber : scanNumber.Shrinks := by
  intro cs parts rest h
  rw [scanNumber.eq_def] at h
  split at h
  · exact Nat.le_trans (shrinks_scanUnsigned _ _ _ _ h) (Nat.le_add_left _ _)
  · exact shrinks_scanUnsigned _ _ _ _ h

theorem shrinks_readNumber : readNumber.Shrinks := by
  intro cs n rest h
  rw [readNumber] at h
  split at h
  · cases h
  · rename_i hparts
    split at h
    · obtain ⟨-, rfl⟩ := Prod.mk.inj (Except.ok.inj h)
      exact shrinks_scanNumber _ _ _ hparts
    · cases h

theorem shrinks_skipNumber : skipNumber.Shrinks := by
  intro cs a rest h
  rw [skipNumber] at h
  split at h
  · cases h
  · rename_i hparts
    obtain ⟨-, rfl⟩ := Prod.mk.inj (Except.ok.inj h)
    exact shrinks_scanNumber _ _ _ hparts

/-! ## Lists and objects -/

/-- Behind the closing bracket, which is one of the text. -/
theorem byteCount_of_nextItem_done {first : Bool} {cs rest : List Char}
    (h : nextItem first cs = .ok (.done rest)) : byteCount (']' :: rest) ≤ byteCount cs := by
  rw [nextItem] at h
  split at h
  · cases h
  · rename_i c more hskip
    split at h
    · rename_i hc
      obtain rfl := Next.done.inj (Except.ok.inj h)
      rw [← hc, ← hskip]
      exact byteCount_skipGap cs
    · split at h
      · cases h
      · split at h
        · split at h
          · cases h
          · split at h <;> cases h
        · cases h

theorem byteCount_of_nextItem_entry {first : Bool} {cs rest : List Char}
    (h : nextItem first cs = .ok (.entry rest)) : byteCount rest ≤ byteCount cs := by
  rw [nextItem] at h
  split at h
  · cases h
  · rename_i c more hskip
    split at h
    · cases h
    · split at h
      · obtain rfl := Next.entry.inj (Except.ok.inj h)
        rw [← hskip]
        exact byteCount_skipGap cs
      · split at h
        · split at h
          · cases h
          · rename_i hmore
            split at h
            · cases h
            · obtain rfl := Next.entry.inj (Except.ok.inj h)
              have hcomma := byteCount_of_skipGap hskip
              have hle := byteCount_skipGap more
              rw [hmore] at hle
              omega
        · cases h

/-- Behind the closing brace, and behind the opening quote of a key. -/
theorem byteCount_of_nextKey {first : Bool} {cs rest : List Char}
    (h : nextKey first cs = .ok (.done rest) ∨ nextKey first cs = .ok (.entry rest)) :
    byteCount rest + 1 ≤ byteCount cs := by
  rw [nextKey] at h
  split at h
  · rcases h with h | h <;> cases h
  · rename_i c more hskip
    have hfirst := byteCount_of_skipGap hskip
    split at h
    · rcases h with h | h <;> cases h
      exact hfirst
    · split at h
      · split at h
        · rcases h with h | h <;> cases h
          exact hfirst
        · rcases h with h | h <;> cases h
      · split at h
        · split at h
          · rcases h with h | h <;> cases h
          · rename_i hmore
            have hsecond := byteCount_of_skipGap hmore
            split at h
            · rcases h with h | h <;> cases h
              omega
            · rcases h with h | h <;> cases h
        · rcases h with h | h <;> cases h

theorem spends_colon : colon.Spends fun _ => 1 := by
  intro cs a rest h
  rw [colon] at h
  split at h
  · cases h
  · rename_i hskip
    split at h
    · obtain ⟨-, rfl⟩ := Prod.mk.inj (Except.ok.inj h)
      rw [Nat.add_comm]
      exact byteCount_of_skipGap hskip
    · cases h

/-- What all values of a list take up together. -/
def totalCost (cost : α → Nat) : List α → Nat
  | [] => 0
  | a :: as => cost a + totalCost cost as

theorem totalCost_append (cost : α → Nat) (as bs : List α) :
    totalCost cost (as ++ bs) = totalCost cost as + totalCost cost bs := by
  induction as with
  | nil => rw [List.nil_append, totalCost, Nat.zero_add]
  | cons a as ih => rw [List.cons_append, totalCost, totalCost, ih, Nat.add_assoc]

theorem totalCost_reverse (cost : α → Nat) (as : List α) :
    totalCost cost as.reverse = totalCost cost as := by
  induction as with
  | nil => rfl
  | cons a as ih =>
    rw [List.reverse_cons, totalCost_append, ih, totalCost, totalCost, totalCost]
    omega

/-- The items of a list take up their bytes, and the closing bracket one. -/
theorem spends_items {item : Read α} {cost : α → Nat} (h : item.Spends cost) :
    ∀ (fuel : Nat) (first : Bool), (items item fuel first).Spends fun as => totalCost cost as + 1
  | 0, _ => fun _ _ _ hread => nomatch hread
  | fuel + 1, first => by
    intro cs as rest hread
    rw [items] at hread
    split at hread
    · cases hread
    · rename_i hnext
      obtain ⟨rfl, rfl⟩ := Prod.mk.inj (Except.ok.inj hread)
      have hdone := byteCount_of_nextItem_done hnext
      have hpos := ']'.utf8Size_pos
      rw [byteCount_cons] at hdone
      simp only [totalCost]
      omega
    · rename_i hnext
      split at hread
      · cases hread
      · rename_i a _ hitem
        split at hread
        · cases hread
        · rename_i others _ hothers
          obtain ⟨rfl, rfl⟩ := Prod.mk.inj (Except.ok.inj hread)
          have hentry := byteCount_of_nextItem_entry hnext
          have hone := h _ _ _ hitem
          have hrest : totalCost cost others + 1 + byteCount _ ≤ byteCount _ :=
            spends_items h fuel false _ _ _ hothers
          simp only [totalCost]
          omega

theorem spends_list {item : Read α} {cost : α → Nat} (h : item.Spends cost) :
    (list item).Spends fun as => totalCost cost as + 1 :=
  fun cs => spends_items h (cs.length + 1) true cs

theorem shrinks_list {item : Read α} (h : item.Shrinks) : (list item).Shrinks :=
  (spends_list h.spends).shrinks

/-- What is gathered from the members of an object grows by no more than they take up, each with its
key, a quote and a colon; and the closing brace takes up one. -/
theorem size_of_members {key : Read κ} {plan : σ → κ → Except Cause (Read σ)} {keyCost : κ → Nat}
    (size : σ → Nat) (hkey : key.Spends keyCost)
    (hplan : ∀ gathered k read, plan gathered k = .ok read → ∀ cs after rest,
      read cs = .ok (after, rest) →
      size after + byteCount rest ≤ size gathered + keyCost k + 2 + byteCount cs) :
    ∀ {fuel : Nat} {first : Bool} {gathered after : σ} {cs rest : List Char},
      members key plan fuel first gathered cs = .ok (after, rest) →
      size after + byteCount rest + 1 ≤ size gathered + byteCount cs
  | 0, _, _, _, _, _, h => nomatch h
  | fuel + 1, first, gathered, after, cs, rest, h => by
    rw [members] at h
    split at h
    · cases h
    · rename_i hnext
      obtain ⟨rfl, rfl⟩ := Prod.mk.inj (Except.ok.inj h)
      have hdone := byteCount_of_nextKey (.inl hnext)
      omega
    · rename_i hnext
      split at h
      · cases h
      · rename_i k _ hk
        split at h
        · cases h
        · rename_i read hread
          split at h
          · cases h
          · rename_i hcolon
            split at h
            · cases h
            · rename_i hmember
              have hquote := byteCount_of_nextKey (.inr hnext)
              have hkeyCost := hkey _ _ _ hk
              have hcolonCost : 1 + byteCount _ ≤ byteCount _ := spends_colon _ _ _ hcolon
              have hone := hplan _ _ _ hread _ _ _ hmember
              have hrest := size_of_members size hkey hplan h
              omega

theorem size_of_object {key : Read κ} {plan : σ → κ → Except Cause (Read σ)} {keyCost : κ → Nat}
    (size : σ → Nat) (hkey : key.Spends keyCost)
    (hplan : ∀ gathered k read, plan gathered k = .ok read → ∀ cs after rest,
      read cs = .ok (after, rest) →
      size after + byteCount rest ≤ size gathered + keyCost k + 2 + byteCount cs)
    {start after : σ} {cs rest : List Char} (h : object key plan start cs = .ok (after, rest)) :
    size after + byteCount rest + 1 ≤ size start + byteCount cs :=
  size_of_members size hkey hplan h

theorem shrinks_object {key : Read κ} {plan : σ → κ → Except Cause (Read σ)} (hkey : key.Shrinks)
    (hplan : ∀ gathered k read, plan gathered k = .ok read → read.Shrinks) (start : σ) :
    (object key plan start).Shrinks := by
  intro cs after rest h
  have hle := size_of_object (fun _ => 0) hkey.spends ?_ h
  · omega
  · intro gathered k read hread cs after rest hmember
    have hone := hplan gathered k read hread cs after rest hmember
    omega

end DeclVisibility.Json
