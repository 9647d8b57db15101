import DeclVisibility.Text.Quoted

/-!
# Quoted texts are read in one way

The characters of a quoted text are told apart from the front: each starts with one that the reader
`Text.unescape` takes for it, whatever follows (`Text.unescape_escape`), and none with the closing
quote. So a text that starts with a quoted one tells what was quoted and where it ends
(`Text.quoteChars_append_inj`).
-/

namespace DeclVisibility.Text

/-! ## Numbers of characters -/

/-- The value of a lower-case hexadecimal digit. -/
def hexValue (c : Char) : Nat := if c.isDigit then c.toNat - '0'.toNat else c.toNat - 'a'.toNat + 10

/-- The number that hexadecimal digits stand for. -/
def hexNumber (cs : List Char) : Nat := cs.foldl (fun n c => 16 * n + hexValue c) 0

theorem hexValue_digitChar : ∀ n < 16, hexValue (Nat.digitChar n) = n := by
  decide

theorem hexNumber_toDigits (n : Nat) : hexNumber (Nat.toDigits 16 n) = n := by
  induction n using Nat.strongRecOn with
  | ind n ih =>
    rw [Nat.toDigits_eq_if (by decide)]
    split
    · rename_i hsmall
      rw [hexNumber, List.foldl_cons, List.foldl_nil, hexValue_digitChar n hsmall, Nat.mul_zero,
        Nat.zero_add]
    · have hfront := ih (n / 16) (by omega)
      rw [hexNumber] at hfront
      rw [hexNumber, List.foldl_append, hfront, List.foldl_cons, List.foldl_nil,
        hexValue_digitChar _ (Nat.mod_lt n (by decide))]
      exact Nat.div_add_mod n 16

/-- No digit is a brace. -/
theorem ne_brace_of_mem_toDigits {n : Nat} {c : Char} (h : c ∈ Nat.toDigits 16 n) : c ≠ '\x7d' := by
  have hdigit : ∀ k < 16, Nat.digitChar k ≠ '\x7d' := by decide
  induction n using Nat.strongRecOn with
  | ind n ih =>
    rw [Nat.toDigits_eq_if (by decide)] at h
    split at h
    · rename_i hsmall
      rw [List.mem_singleton] at h
      exact h ▸ hdigit n hsmall
    · rw [List.mem_append, List.mem_singleton] at h
      rcases h with h | rfl
      · exact ih (n / 16) (by omega) h
      · exact hdigit _ (Nat.mod_lt n (by decide))

/-! ## Reading characters -/

/-- The character that a mark behind a backslash stands for. -/
def unmark (mark : Char) : Char :=
  if mark = 'n' then '\n'
  else if mark = 'r' then '\r'
  else if mark = 't' then '\t'
  else if mark = '0' then '\x00'
  else mark

/-- Reads the first character inside a quoted text, and gives what is left behind it. -/
def unescape : List Char → Option (Char × List Char)
  | '\\' :: mark :: rest =>
    if mark = 'u' then
      some (.ofNat (hexNumber (rest.tail.takeWhile (· != '\x7d'))), (rest.dropWhile (· != '\x7d')).tail)
    else some (unmark mark, rest)
  | c :: rest => some (c, rest)
  | [] => none

theorem unescape_numberEscape (c : Char) (rest : List Char) :
    unescape (numberEscape c ++ rest) = some (c, rest) := by
  have hdigits : ∀ d ∈ Nat.toDigits 16 c.toNat, (d != '\x7d') = true := fun d hd => by
    simpa using ne_brace_of_mem_toDigits hd
  have htake : (Nat.toDigits 16 c.toNat ++ '\x7d' :: rest).takeWhile (· != '\x7d') =
      Nat.toDigits 16 c.toNat := by
    rw [List.takeWhile_append_of_pos hdigits, List.takeWhile_cons_of_neg (by decide),
      List.append_nil]
  have hdrop : (Nat.toDigits 16 c.toNat ++ '\x7d' :: rest).dropWhile (· != '\x7d') =
      '\x7d' :: rest := by
    rw [List.dropWhile_append_of_pos hdigits, List.dropWhile_cons_of_neg (by decide)]
  have hsplit : numberEscape c ++ rest =
      '\\' :: 'u' :: '\x7b' :: (Nat.toDigits 16 c.toNat ++ '\x7d' :: rest) := by
    simp [numberEscape]
  rw [hsplit, unescape, if_pos rfl, List.tail_cons, List.dropWhile_cons_of_pos (by decide), htake,
    hdrop, hexNumber_toDigits, Char.ofNat_toNat, List.tail_cons]

/-- A character is read back from its escape, whatever comes next. -/
theorem unescape_escape (c : Char) (rest : List Char) :
    unescape (escape c ++ rest) = some (c, rest) := by
  have hshort : ∀ d mark : Char, mark ≠ 'u' → unmark mark = d → c = d →
      unescape (['\\', mark] ++ rest) = some (c, rest) := by
    rintro d mark hu rfl rfl
    exact if_neg hu
  rw [escape]
  split
  · exact hshort '"' '"' (by decide) rfl ‹_›
  split
  · exact hshort '\\' '\\' (by decide) rfl ‹_›
  split
  · exact hshort '\n' 'n' (by decide) rfl ‹_›
  split
  · exact hshort '\r' 'r' (by decide) rfl ‹_›
  split
  · exact hshort '\t' 't' (by decide) rfl ‹_›
  split
  · exact hshort '\x00' '0' (by decide) rfl ‹_›
  split
  · exact unescape_numberEscape c rest
  · rename_i hslash _ _ _ _ _
    exact unescape.eq_2 c rest fun _ _ hc _ => hslash hc

/-- No escape starts with the quote, which would be read as itself. -/
theorem escape_append_ne_quote (c : Char) (rest r : List Char) : escape c ++ rest ≠ '"' :: r := by
  intro h
  have hread := congrArg unescape h
  rw [unescape_escape, unescape.eq_2 _ _ fun _ _ hquote _ => absurd hquote (by decide)] at hread
  obtain ⟨rfl, -⟩ := Prod.mk.inj (Option.some.inj hread)
  cases (List.cons.inj h).1

/-- Characters in quotes are told apart up to the closing quote. -/
theorem flatMap_escape_inj {cs ds r r' : List Char}
    (h : cs.flatMap escape ++ '"' :: r = ds.flatMap escape ++ '"' :: r') : cs = ds ∧ r = r' := by
  induction cs generalizing ds with
  | nil =>
    cases ds with
    | nil => exact ⟨rfl, (List.cons.inj h).2⟩
    | cons d ds =>
      rw [List.flatMap_cons, List.append_assoc] at h
      exact absurd h.symm (escape_append_ne_quote d _ _)
  | cons c cs ih =>
    cases ds with
    | nil =>
      rw [List.flatMap_cons, List.append_assoc] at h
      exact absurd h (escape_append_ne_quote c _ _)
    | cons d ds =>
      rw [List.flatMap_cons, List.flatMap_cons, List.append_assoc, List.append_assoc] at h
      have hread := congrArg unescape h
      rw [unescape_escape, unescape_escape] at hread
      obtain ⟨rfl, hrest⟩ := Prod.mk.inj (Option.some.inj hread)
      obtain ⟨rfl, hr⟩ := ih hrest
      exact ⟨rfl, hr⟩

/-- A quoted text at the start of a longer one tells what was quoted, and where it ends. -/
theorem quoteChars_append_inj {cs ds r r' : List Char}
    (h : quoteChars cs ++ r = quoteChars ds ++ r') : cs = ds ∧ r = r' := by
  rw [quoteChars, quoteChars, List.cons_append, List.cons_append, List.append_assoc,
    List.append_assoc] at h
  exact flatMap_escape_inj (List.cons.inj h).2

end DeclVisibility.Text
