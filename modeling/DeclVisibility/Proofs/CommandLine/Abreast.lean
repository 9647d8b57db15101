import DeclVisibility.Proofs.CommandLine.Pending

/-!
# Commands side by side

Commands that work on one machine and don't read the input can get into each other's way by the
files only. A command is abreast of itself alone if the files that it touches hold what they would
hold then (`Pending.Abreast`). Its own acts keep it so (`Pending.Abreast.act`), and so do those of
another command that writes none of its files (`Pending.Abreast.frame`). No act makes a directory,
so names lead where they led.
-/

namespace DeclVisibility.CommandLine

namespace Pending

variable {α : Type} {start p p' : Pending α} {m shared shared' alone : Machine} {files files' : Files}

/-- Two commands are apart: a file that both touch is written by neither. -/
def Apart (touches others : List Touch) : Prop :=
  ∀ touch ∈ touches, ∀ other ∈ others, touch.path = other.path →
    touch.written = false ∧ other.written = false

instance (touches others : List Touch) : Decidable (Apart touches others) :=
  inferInstanceAs (Decidable (∀ touch ∈ touches, ∀ other ∈ others, touch.path = other.path →
    touch.written = false ∧ other.written = false))

theorem Apart.symm {touches others : List Touch} (h : Apart touches others) : Apart others touches :=
  fun other hother touch htouch heq => (h touch htouch other hother heq.symm).symm

/-- A command has come from its start as far as it would alone, and the files that it touches hold
what they would hold then. -/
structure Abreast (start : Pending α) (m : Machine) (files : Files) (p : Pending α)
    (alone : Machine) : Prop where
  runOn : p.runOn Machine.host alone = start.runOn Machine.host m
  within : ∀ touch ∈ p.touches alone, touch ∈ start.touches m
  directories : m.files.SameDirectories alone.files
  held : ∀ touch ∈ start.touches m, files.get? touch.path = alone.files.get? touch.path

theorem abreast_start (start : Pending α) (m : Machine) : Abreast start m m.files start m where
  runOn := rfl
  within _ h := h
  directories _ := rfl
  held _ _ := rfl

/-- Another command that writes no file of this one doesn't hold it up. -/
theorem Abreast.frame (h : Abreast start m files p alone)
    (hsame : ∀ touch ∈ start.touches m, files'.get? touch.path = files.get? touch.path) :
    Abreast start m files' p alone :=
  ⟨h.runOn, h.within, h.directories, fun touch htouch =>
    (hsame touch htouch).trans (h.held touch htouch)⟩

/-- A command that is done has given what it gives alone, and its files hold what they hold then. -/
theorem Abreast.done {a : α} (h : Abreast start m files (.done a) alone) :
    start.runOn Machine.host m = (a, alone) := h.runOn.symm

/-- What an act has done to the files: they have the same directories and names lead where they led,
the command is abreast again, and a file that it doesn't write is as it was. -/
structure Acted (start : Pending α) (m : Machine) (shared shared' : Machine) (p' : Pending α) :
    Prop where
  directories : m.files.SameDirectories shared'.files
  abreast : ∃ alone, Abreast start m shared'.files p' alone
  others : ∀ path, ⟨path, true⟩ ∉ start.touches m →
    shared'.files.get? path = shared.files.get? path

/-- A file is read as it is read alone. -/
theorem Abreast.acted_readFile {name : String} {next : Option String → Pending α}
    (h : Abreast start m shared.files (.readFile name next) alone)
    (hdirectories : m.files.SameDirectories shared.files) :
    Acted start m shared shared (next (shared.files.read? name)) := by
  have hresolve := h.directories.resolve? name
  have hread : shared.files.read? name = alone.files.read? name := by
    rw [Files.read?, Files.read?, hdirectories.resolve?, hresolve]
    cases hpath : m.files.resolve? name with
    | none => rfl
    | some path =>
      refine h.held ⟨path, false⟩ (h.within _ ?_)
      rw [touches, hresolve, hpath]
      exact List.mem_append_left _ (List.mem_singleton_self _)
  refine ⟨hdirectories, ⟨alone, ?_⟩, fun _ _ => rfl⟩
  rw [hread]
  exact ⟨h.runOn, fun touch htouch => h.within touch (List.mem_append_right _ htouch),
    h.directories, h.held⟩

/-- A file is written as it is written alone. -/
theorem Abreast.acted_writeFile {name text : String} {next : Bool → Pending α}
    (h : Abreast start m shared.files (.writeFile name text next) alone)
    (hdirectories : m.files.SameDirectories shared.files)
    (hwrite : shared.files.write? name text = some files) :
    Acted start m shared { shared with files } (next true) := by
  obtain ⟨path, hpath, hfile, hfiles⟩ := Files.write?_eq_some.mp hwrite
  rw [hdirectories.resolve?] at hpath
  rw [hdirectories path] at hfile
  have halone : alone.files.write? name text = some (alone.files.put path text) := by
    refine Files.write?_eq_some.mpr ⟨path, ?_, ?_, rfl⟩
    · rw [h.directories.resolve?, hpath]
    · rw [h.directories path, hfile]
  have htouches : (writeFile name text next).touches alone =
      ⟨path, true⟩ :: (next true).touches { alone with files := alone.files.put path text } := by
    rw [touches]
    simp only [halone, h.directories.resolve?, hpath]
    rfl
  have hact : (writeFile name text next).act? alone =
      some (next true, { alone with files := alone.files.put path text }) := by
    simp only [act?, Machine.host, halone]
    rfl
  refine ⟨?_, ⟨{ alone with files := alone.files.put path text }, ?_, ?_, ?_, ?_⟩, ?_⟩
  · exact hdirectories.trans (Files.sameDirectories_of_write? hwrite)
  · exact (runOn_act hact).trans h.runOn
  · intro touch htouch
    refine h.within touch ?_
    rw [htouches]
    exact List.mem_cons_of_mem _ htouch
  · exact h.directories.trans (Files.sameDirectories_of_write? halone)
  · intro touch htouch
    simp only [hfiles, Files.get?_put, h.held touch htouch]
  · intro other hother
    have hne : other ≠ path := by
      rintro rfl
      refine hother (h.within _ ?_)
      rw [htouches]
      exact List.mem_cons_self
    simp only [hfiles, Files.get?_put, if_neg hne]

/-- A file that can't be written can't be written alone. -/
theorem Abreast.acted_refused {name text : String} {next : Bool → Pending α}
    (h : Abreast start m shared.files (.writeFile name text next) alone)
    (hdirectories : m.files.SameDirectories shared.files)
    (hwrite : shared.files.write? name text = none) :
    Acted start m shared shared (next false) := by
  have halone : alone.files.write? name text = none := by
    rw [← Option.not_isSome_iff_eq_none] at hwrite ⊢
    rwa [h.directories.write?_isSome, ← hdirectories.write?_isSome]
  have htouches : (writeFile name text next).touches alone = (next false).touches alone := by
    rw [touches]
    simp only [halone]
  have hact : (writeFile name text next).act? alone = some (next false, alone) := by
    simp only [act?, Machine.host, halone]
    rfl
  refine ⟨hdirectories, ⟨alone, (runOn_act hact).trans h.runOn, ?_, h.directories, h.held⟩, fun _ _ =>
    rfl⟩
  rw [← htouches]
  exact h.within

/-- A command that doesn't read the input acts as it would alone. -/
theorem Abreast.act {Good : α → Prop} (h : Abreast start m shared.files p alone)
    (hdirectories : m.files.SameDirectories shared.files) (hgoes : p.Goes False Good)
    (hact : p.act? shared = some (p', shared')) : Acted start m shared shared' p' := by
  rcases act_cases hact with ⟨name, next, rfl, rfl, rfl⟩ |
    ⟨name, text, next, files, rfl, hwrite, rfl, rfl⟩ | ⟨name, text, next, rfl, hwrite, rfl, rfl⟩ |
    ⟨next, rfl, -, -⟩
  · exact h.acted_readFile hdirectories
  · exact h.acted_writeFile hdirectories hwrite
  · exact h.acted_refused hdirectories hwrite
  · exact hgoes.1.elim

end Pending

end DeclVisibility.CommandLine
