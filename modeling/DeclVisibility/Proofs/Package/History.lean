import DeclVisibility.Proofs.Package.Lookup

/-!
# A workspace tells what was last said

What is done to a workspace is to add packages, to put documents into packages that were added, and
to take documents out again (`Workspace.Made`). The answers of the workspace can be read from the
list of these changes alone: the package of a document is the one that it was last put into, unless
it was taken out since, and the origin of a package is the one last told for its name, whenever and
for whichever document it was told (`Workspace.Made.answers`). Names and numbers of packages
determine each other.
-/

namespace DeclVisibility.Workspace

/-! ## Changes -/

/-- Something done to a workspace. -/
inductive Change where
  /-- A package was added, and this number was given for it. -/
  | added (package : Package) (id : PackageId)
  | attached (doc : Doc) (id : PackageId)
  | detached (doc : Doc)
  deriving DecidableEq, Repr

/-- The workspace comes of these changes to the empty one, the latest first. -/
inductive Made : List Change → Workspace → Prop
  | empty : Made [] .empty
  | add {changes : List Change} {w : Workspace} (made : Made changes w) (package : Package) :
    Made (.added package (w.addPackage package).value.1 :: changes) (w.addPackage package).value.2
  | attach {changes : List Change} {w w' : Workspace} (made : Made changes w) {doc : Doc}
    {id : PackageId} (attached : w.attach doc id = .ok w') : Made (.attached doc id :: changes) w'
  | detach {changes : List Change} {w : Workspace} (made : Made changes w) (doc : Doc) :
    Made (.detached doc :: changes) (w.detach doc)

/-! ## What the changes say -/

/-- The origin last told for a name. -/
def lastOrigin? (name : String) : List Change → Option Origin
  | [] => none
  | .added package _ :: earlier =>
    if package.name = name then some package.origin else lastOrigin? name earlier
  | .attached _ _ :: earlier | .detached _ :: earlier => lastOrigin? name earlier

/-- The name of the package that a number was given for. -/
def nameOf? (id : PackageId) : List Change → Option String
  | [] => none
  | .added package given :: earlier => if given = id then some package.name else nameOf? id earlier
  | .attached _ _ :: earlier | .detached _ :: earlier => nameOf? id earlier

/-- The number of the package that a document was last put into, if it was not taken out since. -/
def lastPlace? (doc : Doc) : List Change → Option PackageId
  | [] => none
  | .added _ _ :: earlier => lastPlace? doc earlier
  | .attached other id :: earlier => if other = doc then some id else lastPlace? doc earlier
  | .detached other :: earlier => if other = doc then none else lastPlace? doc earlier

/-- The changes say of a workspace which packages it holds and where documents are. -/
structure Told (changes : List Change) (w : Workspace) : Prop where
  kept : w.WellKept
  known : ∀ {id name}, nameOf? id changes = some name →
    ∃ origin, lastOrigin? name changes = some origin ∧ w.package? id = some ⟨name, origin⟩
  unknown : ∀ {id}, nameOf? id changes = none → w.package? id = none
  given : ∀ {package id}, .added package id ∈ changes → nameOf? id changes = some package.name
  place : ∀ doc, w.packageIdOf? doc = lastPlace? doc changes

variable {changes : List Change} {w w' : Workspace} {doc : Doc} {id : PackageId}

theorem told_empty : Told [] empty where
  kept := wellKept_empty
  known h := nomatch h
  unknown _ := rfl
  given h := nomatch h
  place _ := rfl

theorem Told.add (h : Told changes w) (package : Package) :
    Told (.added package (w.addPackage package).value.1 :: changes)
      (w.addPackage package).value.2 := by
  have hadded := h.kept.added package
  generalize (w.addPackage package).value.1 = id at *
  generalize (w.addPackage package).value.2 = w' at *
  -- a name that this number was given for before is the same name
  have hsame : ∀ {name}, nameOf? id changes = some name → name = package.name := by
    intro name hname
    obtain ⟨origin, -, hheld⟩ := h.known hname
    exact (hadded.only id _ hheld).mpr rfl
  refine ⟨hadded.wellKept h.kept, ?_, ?_, ?_, fun doc => (hadded.packageIdOf? doc).trans (h.place doc)⟩
  · intro other name hname
    rw [nameOf?] at hname
    split at hname
    · rename_i hother
      obtain rfl := Option.some.inj hname
      exact ⟨package.origin, if_pos rfl, hother ▸ hadded.package?_self⟩
    · rename_i hother
      obtain ⟨origin, horigin, hheld⟩ := h.known hname
      have hne : package.name ≠ name := fun heq =>
        hother ((hadded.only other _ hheld).mp heq.symm).symm
      refine ⟨origin, ?_, ?_⟩
      · rw [lastOrigin?, if_neg hne, horigin]
      · rw [hadded.package?_of_ne (Ne.symm hother), hheld]
  · intro other hname
    rw [nameOf?] at hname
    split at hname
    · cases hname
    · rename_i hother
      rw [hadded.package?_of_ne (Ne.symm hother), h.unknown hname]
  · intro other given hmem
    rw [nameOf?]
    rcases List.mem_cons.mp hmem with heq | hmem
    · obtain ⟨rfl, rfl⟩ := Change.added.inj heq
      exact if_pos rfl
    · split
      · rename_i hgiven
        subst hgiven
        rw [hsame (h.given hmem)]
      · exact h.given hmem

theorem Told.attach (h : Told changes w) (hattach : w.attach doc id = .ok w') :
    Told (.attached doc id :: changes) w' := by
  have hpackage := package?_attach hattach
  refine ⟨h.kept.attach hattach, ?_, ?_, ?_, ?_⟩
  · intro other name hname
    rw [hpackage]
    exact h.known hname
  · intro other hname
    rw [hpackage]
    exact h.unknown hname
  · intro package given hmem
    rcases List.mem_cons.mp hmem with heq | hmem
    · cases heq
    · exact h.given hmem
  · intro other
    rw [packageIdOf?_attach hattach, lastPlace?, h.place]
    simp only [eq_comm]

theorem Told.detach (h : Told changes w) (doc : Doc) :
    Told (.detached doc :: changes) (w.detach doc) where
  kept := h.kept.detach doc
  known := h.known
  unknown := h.unknown
  given hmem := by
    rcases List.mem_cons.mp hmem with heq | hmem
    · cases heq
    · exact h.given hmem
  place other := by
    rw [packageIdOf?_detach, lastPlace?, h.place]
    simp only [eq_comm]

theorem Made.told (h : Made changes w) : Told changes w := by
  induction h with
  | empty => exact told_empty
  | add _ package ih => exact ih.add package
  | attach _ hattach ih => exact ih.attach hattach
  | detach _ doc ih => exact ih.detach doc

/-! ## What the workspace answers -/

/-- A number was given for a package exactly if its row is there. -/
theorem Told.isSome_package? (h : Told changes w) :
    (w.package? id).isSome ↔ ∃ package, .added package id ∈ changes := by
  have hname : ∀ {earlier : List Change} {name}, nameOf? id earlier = some name →
      ∃ package, .added package id ∈ earlier := by
    intro earlier name hname
    induction earlier with
    | nil => cases hname
    | cons change earlier ih =>
      have hearlier : nameOf? id earlier = some name →
          ∃ package, .added package id ∈ change :: earlier := fun hrest =>
        (ih hrest).imp fun _ hmem => List.mem_cons_of_mem change hmem
      cases change with
      | added package given =>
        rw [nameOf?] at hname
        split at hname
        · rename_i hgiven
          exact ⟨package, hgiven ▸ List.mem_cons_self⟩
        · exact hearlier hname
      | attached | detached => exact hearlier hname
  constructor
  · intro hsome
    cases hnameOf : nameOf? id changes with
    | none =>
      rw [h.unknown hnameOf] at hsome
      cases hsome
    | some name => exact hname hnameOf
  · rintro ⟨package, hmem⟩
    obtain ⟨origin, -, hheld⟩ := h.known (h.given hmem)
    exact Option.isSome_of_eq_some hheld

/-- Whatever was done to a workspace, starting from the empty one: its packages have pairwise
different names, equal names were given equal numbers and different names different ones, and a
document can be put into a package exactly if its number was given. A document belongs to the
package that it was last put into, under the origin last told for the name of that package, and to
none if it was never put into one or was taken out since. -/
theorem Made.answers (h : Made changes w) :
    (w.packages.entries.map fun entry => entry.2.name).Nodup ∧
    (∀ p i q j, .added p i ∈ changes → .added q j ∈ changes → (i = j ↔ p.name = q.name)) ∧
    (∀ doc id, (∃ w', w.attach doc id = .ok w') ↔ ∃ package, .added package id ∈ changes) ∧
    ∀ doc,
      (lastPlace? doc changes = none → w.packageOf? doc = none ∧ w.originOf? doc = none) ∧
      ∀ id, lastPlace? doc changes = some id → ∃ name origin,
        nameOf? id changes = some name ∧ lastOrigin? name changes = some origin ∧
        w.packageOf? doc = some ⟨name, origin⟩ ∧ w.originOf? doc = some origin := by
  have htold := h.told
  refine ⟨htold.kept.nodup_names, ?_, fun doc id => exists_attach.trans htold.isSome_package?, ?_⟩
  · intro p i q j hp hq
    have hpn := htold.given hp
    have hqn := htold.given hq
    constructor
    · rintro rfl
      exact Option.some.inj (hpn.symm.trans hqn)
    · intro hname
      obtain ⟨_, -, hi⟩ := htold.known hpn
      obtain ⟨_, -, hj⟩ := htold.known hqn
      exact htold.kept.names hi hj hname
  · intro doc
    constructor
    · intro hplace
      have hnone : w.packageOf? doc = none := by rw [packageOf?, htold.place, hplace, Option.bind_none]
      exact ⟨hnone, by rw [originOf?, hnone, Option.map_none]⟩
    · intro id hplace
      have hmember : w.packageIdOf? doc = some id := (htold.place doc).trans hplace
      cases hname : nameOf? id changes with
      | none =>
        have hsome := htold.kept.members hmember
        rw [htold.unknown hname] at hsome
        cases hsome
      | some name =>
        obtain ⟨origin, horigin, hheld⟩ := htold.known hname
        have hpackage : w.packageOf? doc = some ⟨name, origin⟩ := by
          rw [packageOf?, hmember, Option.bind_some, hheld]
        exact ⟨name, origin, rfl, horigin, hpackage, by rw [originOf?, hpackage, Option.map_some]⟩

/-- The origin that is told last counts for a document that was put into the package before, and a
document that was taken out is in none. -/
theorem answers_sample : ∃ w,
    Made [.added ⟨"app", .workspace⟩ ⟨0⟩, .detached ⟨2⟩, .attached ⟨2⟩ ⟨0⟩, .attached ⟨1⟩ ⟨0⟩,
      .added ⟨"app", .dependency⟩ ⟨0⟩] w ∧
    w.packageOf? ⟨1⟩ = some ⟨"app", .workspace⟩ ∧ w.packageOf? ⟨2⟩ = none := by
  have hadded := Made.empty.add ⟨"app", .dependency⟩
  have hjoined : Made (.attached ⟨1⟩ ⟨0⟩ :: _) _ := hadded.attach rfl
  have hboth : Made (.attached ⟨2⟩ ⟨0⟩ :: _) _ := hjoined.attach rfl
  have hmade := (hboth.detach ⟨2⟩).add ⟨"app", .workspace⟩
  obtain ⟨-, -, -, hanswers⟩ := hmade.answers
  obtain ⟨name, origin, hname, horigin, hpackage, -⟩ := (hanswers ⟨1⟩).2 ⟨0⟩ rfl
  obtain rfl : "app" = name := Option.some.inj hname
  obtain rfl : .workspace = origin := Option.some.inj horigin
  exact ⟨_, hmade, hpackage, ((hanswers ⟨2⟩).1 rfl).1⟩

end DeclVisibility.Workspace
