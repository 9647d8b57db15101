import DeclVisibility.CommandLine.Machine
import Mathlib.Data.List.Infix
import Mathlib.Data.List.Nodup

/-!
# What a write does to the files

A file that is written holds the new text, and the other files what they held (`Files.get?_put`). A
name leads to a path only through directories, so the file that a write adds stands in a directory
that was there before: no write makes a directory (`Files.sameDirectories_of_write?`), and names
lead where they led (`Files.SameDirectories.resolve?`).

What has changed since a state of the files is told by names, and the names lead back to the files
(`Files.entries_ofNames_changedSince`). After a write this is the file that was written, if it held
another text or none (`Files.changedSince_of_write?`).
-/

namespace DeclVisibility.CommandLine.Files

variable {files files' : Files} {path other : Path} {name text : String}

/-- Overwriting the entries of a path changes what is found under this path only. -/
theorem get?_overwrite (entries : List (Path × String)) (path : Path) (text : String)
    (other : Path) :
    get? ⟨entries.map fun entry => if entry.1 = path then (path, text) else entry⟩ other =
      if other = path then (get? ⟨entries⟩ other).map fun _ => text else get? ⟨entries⟩ other := by
  induction entries with
  | nil => simp [get?]
  | cons entry rest ih =>
    simp only [get?, List.map_cons, List.find?_cons] at ih ⊢
    by_cases hentry : entry.1 = path <;> by_cases hother : other = path
    · simp [hentry, hother]
    · have hne : path ≠ other := Ne.symm hother
      simp only [hentry, if_pos, beq_eq_false_iff_ne.mpr hne, if_neg hother] at ih ⊢
      exact ih
    · have hne : entry.1 ≠ other := fun h => hentry (h.trans hother)
      simp only [if_neg hentry, beq_eq_false_iff_ne.mpr hne, if_pos hother] at ih ⊢
      exact ih
    · simp only [if_neg hentry, if_neg hother] at ih ⊢
      cases entry.1 == other with
      | true => rfl
      | false => exact ih

/-- A file that was put holds its text, and the others are as they were. -/
theorem get?_put (files : Files) (path : Path) (text : String) (other : Path) :
    (files.put path text).get? other = if other = path then some text else files.get? other := by
  rw [put]
  split
  · rename_i hheld
    rw [get?_overwrite]
    split
    · rename_i heq
      obtain ⟨held, hheld⟩ := Option.isSome_iff_exists.mp hheld
      rw [heq, hheld, Option.map_some]
    · rfl
  · rename_i hmissing
    rw [Option.not_isSome_iff_eq_none] at hmissing
    simp only [get?, Option.map_eq_none_iff] at hmissing
    simp only [get?, List.find?_append]
    by_cases h : other = path
    · rw [if_pos h, h, hmissing]
      simp
    · have hne : (path == other) = false := beq_eq_false_iff_ne.mpr (Ne.symm h)
      rw [if_neg h]
      simp [hne]

/-! ## Directories -/

theorem isDirectory_iff : files.isDirectory path = true ↔
    path = [] ∨ ∃ entry ∈ files.entries, path <+: entry.1 ∧ path ≠ entry.1 := by
  simp [isDirectory]

/-- What leads to a directory is a directory. -/
theorem isDirectory_above (h : other <+: path) (hpath : files.isDirectory path = true) :
    files.isDirectory other = true := by
  rw [isDirectory_iff] at hpath ⊢
  rcases hpath with rfl | ⟨entry, hentry, hbelow, hne⟩
  · exact .inl (List.prefix_nil.mp h)
  · refine .inr ⟨entry, hentry, h.trans hbelow, ?_⟩
    rintro rfl
    exact hne (hbelow.eq_of_length_le h.length_le)

/-- Two states of the files have the same directories. -/
def SameDirectories (files files' : Files) : Prop :=
  ∀ path, files'.isDirectory path = files.isDirectory path

theorem SameDirectories.trans {files'' : Files} (h : SameDirectories files files')
    (h' : SameDirectories files' files'') : SameDirectories files files'' :=
  fun path => (h' path).trans (h path)

/-- With the same directories, a name leads to the same path. -/
theorem SameDirectories.resolve? (h : SameDirectories files files') (name : String) :
    files'.resolve? name = files.resolve? name := by
  have henter : files'.enter? = files.enter? := by
    funext here part
    rw [enter?, enter?, h here]
  rw [Files.resolve?, Files.resolve?, henter]

/-- A part of a name is met in a directory, and leads back, on, or nowhere else. -/
theorem enter?_cases {here next : Path} {part : String} (h : files.enter? here part = some next) :
    files.isDirectory here = true ∧
      (next = here ∨ next = here.dropLast ∨ next = here ++ [part]) := by
  rw [enter?] at h
  split at h
  · cases h
  · rename_i hdirectory
    rw [Bool.not_eq_true, Bool.not_eq_false'] at hdirectory
    refine ⟨hdirectory, ?_⟩
    split at h
    · exact .inl (Option.some.inj h).symm
    · split at h
      · split at h
        · cases h
        · exact .inr (.inl (Option.some.inj h).symm)
      · split at h
        · cases h
        · exact .inr (.inr (Option.some.inj h).symm)

/-- What holds of the top and is kept by every part of a name holds of the path it leads to. -/
theorem resolve?_preserves (P : Path → Prop) (top : P [])
    (enter : ∀ here next, ∀ part ∈ parts name.toList,
      files.enter? here (.ofList part) = some next → P here → P next)
    (h : files.resolve? name = some path) : P path := by
  have hparts : ∀ (ps : List (List Char)) (here : Path), (∀ part ∈ ps, part ∈ parts name.toList) →
      P here → (ps.map String.ofList).foldlM files.enter? here = some path → P path := by
    intro ps
    induction ps with
    | nil =>
      intro here _ hhere hfold
      obtain rfl := Option.some.inj hfold
      exact hhere
    | cons part rest ih =>
      intro here hall hhere hfold
      rw [List.forall_mem_cons] at hall
      rw [List.map_cons, List.foldlM_cons, Option.bind_eq_bind, Option.bind_eq_some_iff] at hfold
      obtain ⟨next, hnext, hfold⟩ := hfold
      exact ih next hall.2 (enter here next part hall.1 hnext hhere) hfold
  rw [Files.resolve?] at h
  split at h
  · cases h
  · exact hparts _ [] (fun _ hpart => hpart) top h

/-- The path that a name leads to is the directory itself, or it stands in a directory. -/
theorem isDirectory_dropLast_of_resolve? (h : files.resolve? name = some path) :
    path = [] ∨ files.isDirectory path.dropLast = true := by
  refine resolve?_preserves (fun path => path = [] ∨ files.isDirectory path.dropLast = true)
    (.inl rfl) (fun here next part _ hnext hhere => ?_) h
  obtain ⟨hdirectory, rfl | rfl | rfl⟩ := enter?_cases hnext
  · exact hhere
  · refine .inr (isDirectory_above ?_ hdirectory)
    exact (List.dropLast_prefix _).trans (List.dropLast_prefix _)
  · exact .inr (by rwa [List.dropLast_concat])

/-- A file that is put into a directory makes no directory. -/
theorem sameDirectories_put (hpath : path ≠ []) (h : files.isDirectory path.dropLast = true)
    (text : String) : SameDirectories files (files.put path text) := by
  intro other
  rw [put]
  split
  · simp only [isDirectory, List.any_map]
    congr 2
    funext entry
    by_cases hentry : entry.1 = path
    · simp [hentry]
    · simp [hentry]
  · rw [Bool.eq_iff_iff, isDirectory_iff, isDirectory_iff]
    refine ⟨?_, ?_⟩
    · rintro (rfl | ⟨entry, hentry, hbelow, hne⟩)
      · exact .inl rfl
      · rw [List.mem_append, List.mem_singleton] at hentry
        rcases hentry with hentry | rfl
        · exact .inr ⟨entry, hentry, hbelow, hne⟩
        · -- what leads to the new file leads to the directory that it stands in
          rw [← List.dropLast_append_getLast hpath, List.prefix_concat_iff] at hbelow
          rcases hbelow with heq | hbelow
          · rw [List.dropLast_append_getLast] at heq
            exact absurd heq hne
          · exact isDirectory_iff.mp (isDirectory_above hbelow h)
    · rintro (rfl | ⟨entry, hentry, hbelow⟩)
      · exact .inl rfl
      · exact .inr ⟨entry, List.mem_append_left _ hentry, hbelow⟩

/-! ## Writing by name -/

theorem write?_eq_some : files.write? name text = some files' ↔
    ∃ path, files.resolve? name = some path ∧ files.isDirectory path = false ∧
      files' = files.put path text := by
  refine ⟨fun h => ?_, ?_⟩
  · rw [write?] at h
    split at h
    · cases h
    · rename_i path hpath
      split at h
      · cases h
      · rename_i hfile
        exact ⟨path, hpath, by simpa using hfile, (Option.some.inj h).symm⟩
  · rintro ⟨path, hpath, hfile, rfl⟩
    rw [write?, hpath]
    simp [hfile]

theorem sameDirectories_of_write? (h : files.write? name text = some files') :
    SameDirectories files files' := by
  obtain ⟨path, hpath, hfile, rfl⟩ := write?_eq_some.mp h
  rcases isDirectory_dropLast_of_resolve? hpath with rfl | hparent
  · cases hfile
  · refine sameDirectories_put ?_ hparent text
    rintro rfl
    cases hfile

/-- With the same directories, the same names can be written. -/
theorem SameDirectories.write?_isSome (h : SameDirectories files files') (name text : String) :
    (files'.write? name text).isSome = (files.write? name text).isSome := by
  rw [Files.write?, Files.write?, h.resolve?]
  cases files.resolve? name with
  | none => rfl
  | some path =>
    simp only [h path]
    split <;> rfl

/-- What was written under a name is read under it. -/
theorem read?_of_write? (h : files.write? name text = some files') :
    files'.read? name = some text := by
  have hresolve := (sameDirectories_of_write? h).resolve? name
  obtain ⟨path, hpath, -, rfl⟩ := write?_eq_some.mp h
  rw [read?, hresolve, hpath, Option.bind_some, get?_put, if_pos rfl]

/-- A write changes no file but the one that its name leads to. -/
theorem get?_of_write? (h : files.write? name text = some files')
    (hother : files.resolve? name ≠ some other) : files'.get? other = files.get? other := by
  obtain ⟨path, hpath, -, rfl⟩ := write?_eq_some.mp h
  rw [get?_put, if_neg]
  rintro rfl
  exact hother hpath

/-! ## Names of paths -/

theorem parts_plain {cs : List Char} (h : '/' ∉ cs) : parts cs = [cs] := by
  induction cs with
  | nil => rfl
  | cons c rest ih =>
    rw [List.mem_cons, not_or] at h
    rw [parts, if_neg (Ne.symm h.1), ih h.2]

/-- The first part ends at the first slash. -/
theorem parts_slash {cs : List Char} (h : '/' ∉ cs) (rest : List Char) :
    parts (cs ++ '/' :: rest) = cs :: parts rest := by
  induction cs with
  | nil => rfl
  | cons c cs ih =>
    rw [List.mem_cons, not_or] at h
    rw [List.cons_append, parts, if_neg (Ne.symm h.1), ih h.2]

/-- The parts between the slashes of a name hold no slash, and there is at least one. -/
theorem parts_spec (cs : List Char) : parts cs ≠ [] ∧ ∀ part ∈ parts cs, '/' ∉ part := by
  induction cs with
  | nil => simp [parts]
  | cons c rest ih =>
    rw [parts]
    split
    · exact ⟨List.cons_ne_nil _ _, List.forall_mem_cons.mpr ⟨List.not_mem_nil, ih.2⟩⟩
    · rename_i hc
      split
      · rename_i hnone
        exact absurd hnone ih.1
      · rename_i part others hparts
        rw [hparts, List.forall_mem_cons] at ih
        refine ⟨List.cons_ne_nil _ _, List.forall_mem_cons.mpr ⟨?_, ih.2.2⟩⟩
        rw [List.mem_cons, not_or]
        exact ⟨Ne.symm hc, ih.2.1⟩

/-- A path that a name can lead to: no part of it holds a slash. -/
def Named (path : Path) : Prop := path ≠ [] ∧ ∀ part ∈ path, '/' ∉ part.toList

/-- The name of a path leads back to it part by part. -/
theorem parts_nameOf (h : Named path) :
    (parts (nameOf path).toList).map String.ofList = path := by
  obtain ⟨hne, hslash⟩ := h
  rw [nameOf, String.toList_intercalate]
  induction path with
  | nil => exact absurd rfl hne
  | cons part rest ih =>
    rw [List.forall_mem_cons] at hslash
    cases rest with
    | nil =>
      rw [List.map_cons, List.map_nil, List.intercalate_singleton, parts_plain hslash.1,
        List.map_cons, String.ofList_toList, List.map_nil]
    | cons next others =>
      have hrest := ih (List.cons_ne_nil _ _) hslash.2
      rw [List.map_cons] at hrest
      have hjoined (rest : List Char) :
          part.toList ++ "/".toList ++ rest = part.toList ++ '/' :: rest := List.append_assoc ..
      rw [List.map_cons, List.map_cons, List.intercalate_cons_cons, hjoined, parts_slash hslash.1,
        List.map_cons, String.ofList_toList, hrest]

/-- What lies between the slashes of a name makes up the name. -/
theorem nameOf_parts (name : String) : nameOf ((parts name.toList).map String.ofList) = name := by
  have hjoined : ∀ cs : List Char, ['/'].intercalate (parts cs) = cs := by
    intro cs
    induction cs with
    | nil => rfl
    | cons c rest ih =>
      obtain ⟨part, others, hparts⟩ := List.exists_cons_of_ne_nil (parts_spec rest).1
      rw [parts]
      split
      · rename_i hc
        rw [hparts, List.intercalate_cons_cons, ← hparts, ih, hc]
        rfl
      · rw [hparts] at ih ⊢
        cases others with
        | nil =>
          rw [List.intercalate_singleton] at ih ⊢
          rw [ih]
        | cons next others =>
          rw [List.intercalate_cons_cons] at ih ⊢
          rw [List.cons_append, List.cons_append, ih]
  rw [nameOf, ← String.toList_inj, String.toList_intercalate, List.map_map]
  have hparts : (parts name.toList).map (String.toList ∘ String.ofList) = parts name.toList :=
    (List.map_congr_left fun _ _ => String.toList_ofList).trans (List.map_id _)
  rw [hparts]
  exact hjoined name.toList

/-- The parts of a path that a name leads to hold no slash. -/
theorem named_of_resolve? (h : files.resolve? name = some path) (hne : path ≠ []) : Named path := by
  refine ⟨hne, resolve?_preserves (fun path => ∀ part ∈ path, '/' ∉ part.toList)
    (fun _ hpart => nomatch hpart) (fun here next part hpart hnext hhere => ?_) h⟩
  obtain ⟨-, rfl | rfl | rfl⟩ := enter?_cases hnext
  · exact hhere
  · exact fun other hother => hhere other (List.mem_of_mem_dropLast hother)
  · intro other hother
    rcases List.mem_append.mp hother with hother | hother
    · exact hhere other hother
    · rw [List.mem_singleton.mp hother, String.toList_ofList]
      exact (parts_spec _).2 part hpart

/-! ## What has changed -/

/-- There is one entry for a path at most, and a name for each. -/
structure Sound (files : Files) : Prop where
  once : (files.entries.map Prod.fst).Nodup
  named : ∀ entry ∈ files.entries, Named entry.1

theorem Sound.mem_entries_iff (h : files.Sound) :
    (path, text) ∈ files.entries ↔ files.get? path = some text := by
  rw [get?, Option.map_eq_some_iff]
  constructor
  · intro hmem
    have hsome : (files.entries.find? fun entry => entry.1 == path).isSome :=
      List.find?_isSome.mpr ⟨_, hmem, beq_self_eq_true path⟩
    obtain ⟨entry, hentry⟩ := Option.isSome_iff_exists.mp hsome
    have hpath : entry.1 = path := by simpa using List.find?_some hentry
    have hfound := List.mem_of_find?_eq_some hentry
    refine ⟨entry, hentry, ?_⟩
    rw [List.inj_on_of_nodup_map h.once hfound hmem hpath]
  · rintro ⟨entry, hentry, rfl⟩
    have hpath : entry.1 = path := by simpa using List.find?_some hentry
    subst hpath
    exact List.mem_of_find?_eq_some hentry

/-- Files with different names are sound. -/
theorem sound_ofNames {named : List (String × String)} (h : (named.map Prod.fst).Nodup) :
    (ofNames named).Sound := by
  refine ⟨?_, ?_⟩
  · have hnames : (((ofNames named).entries.map Prod.fst).map nameOf) = named.map Prod.fst := by
      simp only [ofNames, List.map_map]
      exact List.map_congr_left fun entry _ => nameOf_parts entry.1
    exact List.Nodup.of_map nameOf (hnames ▸ h)
  · rintro _ hentry
    obtain ⟨entry, -, rfl⟩ := List.mem_map.mp hentry
    obtain ⟨hne, hslash⟩ := parts_spec entry.1.toList
    refine ⟨by simpa using hne, fun part hpart => ?_⟩
    obtain ⟨cs, hcs, rfl⟩ := List.mem_map.mp hpart
    rw [String.toList_ofList]
    exact hslash cs hcs

theorem Sound.put (h : files.Sound) (hpath : Named path) (text : String) :
    (files.put path text).Sound := by
  rw [Files.put]
  split
  · refine ⟨?_, ?_⟩
    · -- overwriting leaves the paths as they are
      have hpaths : ∀ entry ∈ files.entries,
          (Prod.fst ∘ fun entry => if entry.1 = path then (path, text) else entry) entry = entry.1 := by
        intro entry _
        rw [Function.comp_apply]
        split
        · exact Eq.symm ‹_›
        · rfl
      rw [List.map_map, List.map_congr_left hpaths]
      exact h.once
    · rintro _ hentry
      obtain ⟨entry, hheld, rfl⟩ := List.mem_map.mp hentry
      split
      · exact hpath
      · exact h.named entry hheld
  · rename_i hmissing
    refine ⟨?_, ?_⟩
    · rw [List.map_append, List.map_singleton, List.nodup_append]
      refine ⟨h.once, List.nodup_singleton _, ?_⟩
      rintro _ hentry _ hnew rfl
      obtain rfl := List.mem_singleton.mp hnew
      obtain ⟨⟨_, held⟩, hheld, rfl⟩ := List.mem_map.mp hentry
      exact hmissing (Option.isSome_of_eq_some (h.mem_entries_iff.mp hheld))
    · intro entry hentry
      rcases List.mem_append.mp hentry with hentry | hentry
      · exact h.named entry hentry
      · obtain rfl := List.mem_singleton.mp hentry
        exact hpath

/-- The names of what has changed stand for the entries that are not as they were. -/
theorem entries_ofNames_changedSince (h : files.Sound) (before : Files) :
    (ofNames (files.changedSince before)).entries =
      files.entries.filter fun entry => before.get? entry.1 != some entry.2 := by
  rw [ofNames, changedSince]
  show List.map _ (List.map _ _) = _
  rw [List.map_map]
  refine (List.map_congr_left fun entry hentry => ?_).trans (List.map_id _)
  have hparts := parts_nameOf (h.named entry (List.mem_of_mem_filter hentry))
  show ((parts (nameOf entry.1).toList).map String.ofList, entry.2) = entry
  rw [hparts]

/-- Putting a text at a path changes the file there, unless it held the text. -/
theorem changedSince_put (h : files.Sound) (hpath : Named path) (text : String) :
    (files.put path text).changedSince files =
      if files.get? path = some text then [] else [(nameOf path, text)] := by
  have hput := h.put hpath text
  have hmem : ∀ entry, entry ∈ (files.put path text).entries.filter (fun entry =>
      files.get? entry.1 != some entry.2) ↔ entry = (path, text) ∧ files.get? path ≠ some text := by
    rintro ⟨other, held⟩
    rw [List.mem_filter, hput.mem_entries_iff, get?_put, bne_iff_ne]
    split
    · rename_i hother
      subst hother
      simp only [Prod.mk.injEq, true_and, Option.some.injEq]
      constructor
      · rintro ⟨rfl, hchanged⟩
        exact ⟨rfl, hchanged⟩
      · rintro ⟨rfl, hchanged⟩
        exact ⟨rfl, hchanged⟩
    · rename_i hother
      refine ⟨fun hboth => absurd hboth.1 hboth.2, fun hboth => ?_⟩
      exact absurd (congrArg Prod.fst hboth.1) hother
  rw [changedSince]
  split
  · rename_i hheld
    rw [List.eq_nil_iff_forall_not_mem.mpr fun entry hentry => ((hmem entry).mp hentry).2 hheld,
      List.map_nil]
  · rename_i hchanged
    have hnodup := (List.Nodup.of_map _ hput.once).filter fun entry =>
      files.get? entry.1 != some entry.2
    have hperm := (List.perm_ext_iff_of_nodup hnodup (List.nodup_singleton (path, text))).mpr
      fun entry => by rw [hmem, List.mem_singleton]; exact and_iff_left hchanged
    rw [List.perm_singleton.mp hperm, List.map_singleton]

theorem exists_named_of_write? (h : files.write? name text = some files') :
    ∃ path, files.resolve? name = some path ∧ Named path ∧ files' = files.put path text := by
  obtain ⟨path, hpath, hfile, rfl⟩ := write?_eq_some.mp h
  refine ⟨path, hpath, named_of_resolve? hpath ?_, rfl⟩
  rintro rfl
  cases hfile

theorem Sound.write? (h : files.Sound) (hwrite : files.write? name text = some files') :
    files'.Sound := by
  obtain ⟨path, -, hnamed, rfl⟩ := exists_named_of_write? hwrite
  exact h.put hnamed text

theorem changedSince_self (h : files.Sound) : files.changedSince files = [] := by
  rw [changedSince, List.map_eq_nil_iff, List.filter_eq_nil_iff]
  rintro ⟨path, text⟩ hentry
  simp [h.mem_entries_iff.mp hentry]

/-- A write changes the file that its name leads to, unless it held the text. -/
theorem changedSince_of_write? (h : files.Sound) (hwrite : files.write? name text = some files') :
    ∃ path, files.resolve? name = some path ∧ files'.changedSince files =
      if files.read? name = some text then [] else [(nameOf path, text)] := by
  obtain ⟨path, hpath, hnamed, rfl⟩ := exists_named_of_write? hwrite
  refine ⟨path, hpath, ?_⟩
  rw [changedSince_put h hnamed, read?, hpath, Option.bind_some]

end DeclVisibility.CommandLine.Files
