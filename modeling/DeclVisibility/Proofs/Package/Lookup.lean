import DeclVisibility.Package
import DeclVisibility.Proofs.Tree.Rows
import Mathlib.Data.List.Nodup

/-!
# Packages by name, by number and by document

A workspace numbers its packages, but a caller knows them by name: no two of them have one name, and
whatever a document belongs to was added (`Workspace.WellKept`). Then adding a package writes the
row of its own name and no other (`Workspace.Added`), which is all that a later look-up sees of it.
A document only sees the package that it belongs to (`Workspace.Joined`).
-/

namespace DeclVisibility

namespace Table

variable {α : Type} {t : Table α} {test : α → Bool}

theorem mem_entries {i : Nat} {row : α} : (i, row) ∈ t.entries ↔ t.get? i = some row := by
  rw [entries, keys, get?, List.mem_iff_getElem?]
  simp only [List.getElem?_zip_eq_some, Array.getElem?_toList]
  constructor
  · rintro ⟨n, hkey, hrow⟩
    obtain ⟨-, rfl⟩ := List.getElem?_eq_some_iff.mp hkey
    rwa [List.getElem_range]
  · intro hrow
    have hlt : i < t.size := (Array.getElem?_eq_some_iff.mp hrow).1
    exact ⟨i, List.getElem?_range hlt, hrow⟩

theorem exists_of_findKey? {i : Nat} (h : t.findKey? test = some i) :
    ∃ row, t.get? i = some row ∧ test row = true := by
  rw [findKey?, Option.map_eq_some_iff] at h
  obtain ⟨⟨n, row⟩, hentry, rfl⟩ := h
  have htest := List.find?_some hentry
  exact ⟨row, mem_entries.mp (List.mem_of_find?_eq_some hentry), htest⟩

theorem findKey?_eq_none :
    t.findKey? test = none ↔ ∀ i row, t.get? i = some row → test row = false := by
  rw [findKey?, Option.map_eq_none_iff, List.find?_eq_none]
  constructor
  · intro h i row hrow
    exact Bool.not_eq_true _ ▸ h (i, row) (mem_entries.mpr hrow)
  · rintro h ⟨i, row⟩ hentry
    rw [h i row (mem_entries.mp hentry)]
    exact Bool.false_ne_true

end Table

theorem PackageId.num_inj {a b : PackageId} : a.num = b.num ↔ a = b := by
  cases a
  cases b
  simp

/-! ## Entries under keys -/

section Entries
variable {κ β : Type} [DecidableEq κ] (entries : List (κ × β)) (key other : κ)

/-- Without the entries of a key, that key leads to nothing and the others lead where they led. -/
theorem find?_without : (((entries.filter fun entry => entry.1 != key).find? fun entry =>
      entry.1 == other).map (·.2)) =
    if other = key then none else (entries.find? fun entry => entry.1 == other).map (·.2) := by
  rw [List.find?_filter]
  split
  · rename_i h
    subst h
    rw [List.find?_eq_none.mpr, Option.map_none]
    intro entry _
    simp
  · rename_i h
    have hsame : ∀ entry : κ × β,
        decide ((entry.1 != key) = true ∧ (entry.1 == other) = true) = (entry.1 == other) := by
      intro entry
      by_cases heq : entry.1 = other
      · simp [heq, h]
      · simp [heq]
    simp only [hsame]

/-- With an entry in place of those of a key, that key leads to it and the others lead where they
led. -/
theorem find?_with (value : β) : ((((key, value) :: entries.filter fun entry =>
      entry.1 != key).find? fun entry => entry.1 == other).map (·.2)) =
    if other = key then some value
    else (entries.find? fun entry => entry.1 == other).map (·.2) := by
  rw [List.find?_cons]
  by_cases h : other = key
  · rw [if_pos h, h]
    simp
  · have hne : (key == other) = false := by simpa using Ne.symm h
    simp only [hne]
    rw [find?_without, if_neg h, if_neg h]

end Entries

/-- What is held of a package once one was added, whose row is that of its name. -/
def Package.after (added held : Package) : Package :=
  if held.name = added.name then added else held

namespace Workspace

variable {w w' : Workspace} {doc : Doc} {id : PackageId} {name : String} {package : Package}

/-- No two packages have one name, and what documents belong to was added. -/
structure WellKept (w : Workspace) : Prop where
  names : ∀ {a b p q}, w.package? a = some p → w.package? b = some q → p.name = q.name → a = b
  members : ∀ {doc id}, w.packageIdOf? doc = some id → (w.package? id).isSome

theorem wellKept_empty : empty.WellKept where
  names h := nomatch h
  members h := nomatch h

/-- The names of the packages, in the order of their numbers, are pairwise different. -/
theorem WellKept.nodup_names (h : w.WellKept) :
    (w.packages.entries.map fun entry => entry.2.name).Nodup := by
  have hkeys : (w.packages.entries.map Prod.fst).Nodup := by
    rw [Table.entries, List.map_fst_zip (by simp [Table.keys, Table.size])]
    exact List.nodup_range
  refine hkeys.of_map.map_on ?_
  rintro ⟨i, p⟩ hp ⟨j, q⟩ hq hname
  have hi : w.package? ⟨i⟩ = some p := Table.mem_entries.mp hp
  have hj : w.package? ⟨j⟩ = some q := Table.mem_entries.mp hq
  obtain rfl := PackageId.mk.inj (h.names hi hj hname)
  rw [Option.some.inj (hi.symm.trans hj)]

/-! ## By name -/

theorem exists_of_findPackage? (h : w.findPackage? name = some id) :
    ∃ package, w.package? id = some package ∧ package.name = name := by
  rw [findPackage?, Option.map_eq_some_iff] at h
  obtain ⟨n, hn, rfl⟩ := h
  obtain ⟨package, hpackage, hname⟩ := Table.exists_of_findKey? hn
  exact ⟨package, hpackage, beq_iff_eq.mp hname⟩

theorem findPackage?_eq_none :
    w.findPackage? name = none ↔ ∀ id package, w.package? id = some package → package.name ≠ name := by
  rw [findPackage?, Option.map_eq_none_iff, Table.findKey?_eq_none]
  simp only [beq_eq_false_iff_ne]
  exact ⟨fun h id package hrow => h id.num package hrow, fun h n package hrow => h ⟨n⟩ package hrow⟩

/-! ## Adding a package -/

/-- What comes of adding a package: its row is that of its name, all other rows are as they were,
and no document moves. -/
structure Added (w : Workspace) (package : Package) (id : PackageId) (w' : Workspace) : Prop where
  package? : ∀ other, w'.package? other = if other = id then some package else w.package? other
  only : ∀ other held, w.package? other = some held → (held.name = package.name ↔ other = id)
  packageIdOf? : ∀ doc, w'.packageIdOf? doc = w.packageIdOf? doc

theorem package?_push (w : Workspace) (package : Package) (other : PackageId) :
    ({ w with packages := w.packages.push package } : Workspace).package? other =
      if other = ⟨w.packages.size⟩ then some package else w.package? other := by
  rw [Workspace.package?, Workspace.package?, Table.get?_push]
  have hnum : other.num = w.packages.size ↔ other = ⟨w.packages.size⟩ := PackageId.num_inj
  simp only [hnum]

theorem package?_set (w : Workspace) (id other : PackageId) (package : Package)
    (held : (w.package? id).isSome) :
    ({ w with packages := w.packages.set id.num package } : Workspace).package? other =
      if other = id then some package else w.package? other := by
  rw [Workspace.package?, Workspace.package?, Table.get?_set]
  by_cases h : other = id
  · subst h
    obtain ⟨row, hrow⟩ := Option.isSome_iff_exists.mp held
    rw [if_pos rfl, if_pos rfl, show w.packages.get? other.num = some row from hrow]
    rfl
  · rw [if_neg h, if_neg]
    exact fun hnum => h (PackageId.num_inj.mp hnum.symm)

theorem WellKept.added (h : w.WellKept) (package : Package) :
    w.Added package (w.addPackage package).value.1 (w.addPackage package).value.2 := by
  have only : ∀ {id held}, w.package? id = some held → held.name = package.name →
      ∀ other row, w.package? other = some row → (row.name = package.name ↔ other = id) := by
    intro id held hheld hname other row hrow
    constructor
    · intro hsame
      exact h.names hrow hheld (hsame.trans hname.symm)
    · rintro rfl
      rw [Option.some.inj (hrow.symm.trans hheld), hname]
  rw [addPackage]
  cases hfound : w.findPackage? package.name with
  | none =>
    have hnew := findPackage?_eq_none.mp hfound
    refine ⟨package?_push w package, ?_, fun _ => rfl⟩
    intro other row hrow
    refine ⟨fun hname => absurd hname (hnew other row hrow), ?_⟩
    -- the number that is given out is that of no row so far
    rintro rfl
    have hlt := (Array.getElem?_eq_some_iff.mp hrow).1
    exact absurd hlt (Nat.lt_irrefl _)
  | some id =>
    obtain ⟨held, hheld, hname⟩ := exists_of_findPackage? hfound
    simp only [hheld]
    split
    · rename_i horigin
      obtain rfl : held = package := by
        cases held
        cases package
        simp_all
      refine ⟨fun other => ?_, only hheld hname, fun _ => rfl⟩
      split
      · rename_i hother
        rw [hother]
        exact hheld
      · rfl
    · obtain ⟨heldName, heldOrigin⟩ := held
      obtain rfl : heldName = package.name := hname
      exact ⟨fun other => package?_set w id other package (Option.isSome_of_eq_some hheld),
        only hheld rfl, fun _ => rfl⟩

theorem Added.package?_self (h : w.Added package id w') : w'.package? id = some package := by
  rw [h.package?, if_pos rfl]

theorem Added.package?_of_ne (h : w.Added package id w') {other : PackageId} (ne : other ≠ id) :
    w'.package? other = w.package? other := by
  rw [h.package?, if_neg ne]

theorem Added.wellKept (h : w.Added package id w') (kept : w.WellKept) : w'.WellKept where
  names := by
    intro a b p q hp hq hname
    rw [h.package?] at hp hq
    split at hp <;> split at hq
    · rename_i ha hb
      rw [ha, hb]
    · rename_i ha hb
      obtain rfl := Option.some.inj hp
      exact absurd ((h.only b q hq).mp hname.symm) hb
    · rename_i ha hb
      obtain rfl := Option.some.inj hq
      exact absurd ((h.only a p hp).mp hname) ha
    · exact kept.names hp hq hname
  members := by
    intro doc member hmember
    rw [h.packageIdOf?] at hmember
    rw [h.package?]
    split
    · rfl
    · exact kept.members hmember

/-! ## Moving documents -/

theorem packageIdOf?_detach (w : Workspace) (doc other : Doc) :
    (w.detach doc).packageIdOf? other = if other = doc then none else w.packageIdOf? other :=
  find?_without w.members doc other

/-- A document can be put into a package exactly if the package was added. -/
theorem exists_attach : (∃ w', w.attach doc id = .ok w') ↔ (w.package? id).isSome := by
  rw [attach, Workspace.package?, ← Table.has_iff]
  cases w.packages.has id.num <;> simp

theorem packages_attach (h : w.attach doc id = .ok w') : w'.packages = w.packages := by
  rw [attach] at h
  split at h
  · obtain rfl := Except.ok.inj h
    rfl
  · cases h

theorem package?_attach (h : w.attach doc id = .ok w') (other : PackageId) :
    w'.package? other = w.package? other := by
  rw [package?, packages_attach h, package?]

theorem packageIdOf?_attach (h : w.attach doc id = .ok w') (other : Doc) :
    w'.packageIdOf? other = if other = doc then some id else w.packageIdOf? other := by
  rw [attach] at h
  split at h
  · obtain rfl := Except.ok.inj h
    exact find?_with w.members doc other id
  · cases h

theorem WellKept.detach (h : w.WellKept) (doc : Doc) : (w.detach doc).WellKept where
  names := h.names
  members := by
    intro other id hmember
    rw [packageIdOf?_detach] at hmember
    split at hmember
    · cases hmember
    · exact h.members hmember

theorem WellKept.attach (h : w.WellKept) (hattach : w.attach doc id = .ok w') : w'.WellKept := by
  have hpackage := package?_attach hattach
  refine ⟨?_, ?_⟩
  · intro a b p q hp hq
    rw [hpackage] at hp hq
    exact h.names hp hq
  · intro other member hmember
    rw [packageIdOf?_attach hattach] at hmember
    rw [hpackage]
    split at hmember
    · obtain rfl := Option.some.inj hmember
      exact exists_attach.mp ⟨w', hattach⟩
    · exact h.members hmember

/-! ## By document -/

/-- The workspace once a document was put into a package that was added for it, as its documents see
it. -/
structure Joined (w : Workspace) (doc : Doc) (package : Package) (w' : Workspace) : Prop where
  kept : w'.WellKept
  packageOf? : ∀ other, w'.packageOf? other =
    if other = doc then some package else (w.packageOf? other).map package.after

theorem Added.packageOf? (h : w.Added package id w') (kept : w.WellKept) (doc : Doc) :
    w'.packageOf? doc = (w.packageOf? doc).map package.after := by
  rw [Workspace.packageOf?, Workspace.packageOf?, h.packageIdOf?]
  cases hmember : w.packageIdOf? doc with
  | none => rfl
  | some other =>
    obtain ⟨held, hheld⟩ := Option.isSome_iff_exists.mp (kept.members hmember)
    rw [Option.bind_some, Option.bind_some, h.package?, hheld, Option.map_some, Package.after]
    simp only [h.only other held hheld]
    split <;> rfl

theorem packageOf?_detach (w : Workspace) (doc other : Doc) :
    (w.detach doc).packageOf? other = if other = doc then none else w.packageOf? other := by
  rw [packageOf?, packageIdOf?_detach]
  split <;> rfl

theorem packageOf?_attach (h : w.attach doc id = .ok w') (other : Doc) :
    w'.packageOf? other = if other = doc then w.package? id else w.packageOf? other := by
  rw [packageOf?, packageIdOf?_attach h, funext (package?_attach h)]
  split <;> rfl

/-- A document can be put into a package that is added for it. -/
theorem WellKept.joined (h : w.WellKept) (doc : Doc) (package : Package) :
    ∃ w', (w.addPackage package).value.2.attach doc (w.addPackage package).value.1 = .ok w' ∧
      w.Joined doc package w' := by
  have hadded := h.added package
  obtain ⟨w', hattach⟩ := exists_attach.mpr (Option.isSome_of_eq_some hadded.package?_self)
  refine ⟨w', hattach, (hadded.wellKept h).attach hattach, fun other => ?_⟩
  rw [← hadded.packageOf? h, packageOf?_attach hattach, hadded.package?_self]

end Workspace

end DeclVisibility
