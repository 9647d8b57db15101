import DeclVisibility.CommandLine.Job

/-!
# The words of a fix

The command line of a fix whose result is to be printed as a text is put together from pieces: names
behind their switch, the switch for the crate, and words that are no switch (`Piece`). The words at
its end ask for another way to give the result (`Mode`). The pieces are read one by one
(`Piece.read_words`), and what has been said after them follows from what stands in them
(`Piece.Took`). So the jobs of the modes have one name, one scope and one source, or the command
lines are faulty for one reason (`Piece.jobs`).
-/

namespace DeclVisibility.CommandLine

/-- What stands in the command line of a fix whose result is to be printed as a text. -/
inductive Piece where
  /-- The switch for the name of a declaration, in its long or short form, and the name. -/
  | name (long : Bool) (value : String)
  | crateOnly
  /-- A word that is no switch of a fix. -/
  | plain (word : String) (noSwitch : Switch.ofWord? word = none)

/-- How the result of a fix is to be given. -/
inductive Mode where
  | text
  | edit
  /-- Into a file, by the long or the short form of the switch. -/
  | file (long : Bool) (target : String)

/-- The words of a piece. -/
def Piece.words : Piece → List String
  | name long value => [if long then "--name" else "-n", value]
  | crateOnly => ["--crate"]
  | plain word _ => [word]

/-- The words that ask for a mode. -/
def Mode.words : Mode → List String
  | text => []
  | edit => ["--edit"]
  | file long target => [if long then "--out" else "-o", target]

namespace Piece

/-- A word that is no switch stands among the pieces. -/
def Stands (pieces : List Piece) (word : String) : Prop :=
  ∃ noSwitch, .plain word noSwitch ∈ pieces

/-- The scope that the pieces ask for. -/
inductive Asks (pieces : List Piece) : Scope → Prop
  | crateOnly (asked : .crateOnly ∈ pieces) : Asks pieces .crateOnly
  | pub (notAsked : .crateOnly ∉ pieces) : Asks pieces .pub

/-- Takes the words of a piece into what the command line has said. -/
def take (said : Words) : Piece → Except Failure Words
  | name _ value => .ok { said with name? := some value }
  | crateOnly => .ok { said with scope := .crateOnly }
  | plain word _ => said.accept word

/-- Takes pieces in, from left to right. -/
def takeAll : Words → List Piece → Except Failure Words
  | said, [] => .ok said
  | said, piece :: rest =>
    match take said piece with
    | .error failure => .error failure
    | .ok said => takeAll said rest

/-- The words of pieces are read piece by piece. -/
theorem read_words (pieces : List Piece) (said : Words) (rest : List String) :
    Words.read .fix said (pieces.flatMap words ++ rest) =
      match takeAll said pieces with
      | .error failure => .error failure
      | .ok said => Words.read .fix said rest := by
  induction pieces generalizing said with
  | nil => rfl
  | cons piece others ih =>
    rw [List.flatMap_cons, List.append_assoc, takeAll]
    cases piece with
    | name long value =>
      cases long with
      | true => exact ih { said with name? := some value }
      | false => exact ih { said with name? := some value }
    | crateOnly => exact ih { said with scope := .crateOnly }
    | plain word noSwitch =>
      have hswitch : Task.fix.switch? word = none := by rw [Task.switch?, noSwitch, Option.filter_none]
      rw [words, List.singleton_append, Words.read.eq_def, take]
      simp only [hswitch]
      cases said.accept word with
      | error failure => rfl
      | ok said' => exact ih said'

/-- What has been said after some pieces, by what stands in them. -/
structure Took (pieces : List Piece) (said said' : Words) : Prop where
  asEdit : said'.asEdit = said.asEdit
  target? : said'.target? = said.target?
  asked : .crateOnly ∈ pieces → said'.scope = .crateOnly
  notAsked : .crateOnly ∉ pieces → said'.scope = said.scope
  fromInput : said'.fromInput = true ↔ said.fromInput = true ∨ Stands pieces "-"
  file? : ∀ file, said'.file? = some file → said.file? = some file ∨ Stands pieces file

theorem took_nil (said : Words) : Took [] said said where
  asEdit := rfl
  target? := rfl
  asked h := nomatch h
  notAsked _ := rfl
  fromInput := ⟨.inl, fun h => h.elim id fun ⟨_, hmem⟩ => nomatch hmem⟩
  file? _ := .inl

theorem stands_cons {piece : Piece} {pieces : List Piece} {word : String} :
    Stands (piece :: pieces) word ↔ Stands [piece] word ∨ Stands pieces word := by
  simp only [Stands, List.mem_cons, List.not_mem_nil, or_false]
  exact exists_or

theorem Took.trans {piece : Piece} {pieces : List Piece} {said said' said'' : Words}
    (h : Took [piece] said said') (h' : Took pieces said' said'') :
    Took (piece :: pieces) said said'' where
  asEdit := h'.asEdit.trans h.asEdit
  target? := h'.target?.trans h.target?
  asked hmem := by
    by_cases hrest : .crateOnly ∈ pieces
    · exact h'.asked hrest
    · rw [h'.notAsked hrest]
      rcases List.mem_cons.mp hmem with heq | hmem
      · exact h.asked (List.mem_singleton.mpr heq)
      · exact absurd hmem hrest
  notAsked hmem := by
    rw [List.mem_cons, not_or] at hmem
    rw [h'.notAsked hmem.2, h.notAsked (by rw [List.mem_singleton]; exact hmem.1)]
  fromInput := by
    have hcons : Stands (piece :: pieces) "-" ↔ _ := stands_cons
    rw [h'.fromInput, h.fromInput, hcons, or_assoc]
  file? file hfile := by
    rw [stands_cons]
    rcases h'.file? file hfile with hfile | hstands
    · exact (h.file? file hfile).imp_right .inl
    · exact .inr (.inr hstands)

/-- One piece changes what it says and nothing else. -/
theorem took_of_take {piece : Piece} {said said' : Words} (h : take said piece = .ok said') :
    Took [piece] said said' := by
  cases piece with
  | name long value =>
    obtain rfl := Except.ok.inj h
    exact ⟨rfl, rfl, by simp, fun _ => rfl, by simp [Stands], fun _ => .inl⟩
  | crateOnly =>
    obtain rfl := Except.ok.inj h
    exact ⟨rfl, rfl, fun _ => rfl, by simp, by simp [Stands], fun _ => .inl⟩
  | plain word noSwitch =>
    rw [take, Words.accept] at h
    split at h
    · rename_i hdash
      obtain rfl := Except.ok.inj h
      subst hdash
      exact ⟨rfl, rfl, by simp, fun _ => rfl, by simp [Stands, noSwitch], fun _ => .inl⟩
    · rename_i hdash
      split at h
      · cases h
      · obtain rfl := Except.ok.inj h
        refine ⟨rfl, rfl, by simp, fun _ => rfl, ?_, ?_⟩
        · simp [Stands, Ne.symm hdash]
        · intro file hfile
          obtain rfl := Option.some.inj hfile
          exact .inr ⟨noSwitch, List.mem_cons_self⟩

theorem took_of_takeAll {pieces : List Piece} {said said' : Words}
    (h : takeAll said pieces = .ok said') : Took pieces said said' := by
  induction pieces generalizing said with
  | nil =>
    obtain rfl := Except.ok.inj h
    exact took_nil said
  | cons piece rest ih =>
    rw [takeAll] at h
    split at h
    · cases h
    · rename_i next hnext
      exact (took_of_take hnext).trans (ih h)

end Piece

/-! ## Jobs that differ in their mode -/

/-- What is said once the words of a mode are read too. -/
def Mode.say (said : Words) : Mode → Words
  | text => said
  | edit => { said with asEdit := true }
  | file _ target => { said with target? := some target }

/-- The job that gives a fix in a mode. -/
def Mode.job (name : String) (scope : Scope) (source : Source) : Mode → Job
  | text => ⟨.fix name scope false, source, none⟩
  | edit => ⟨.fix name scope true, source, none⟩
  | file _ target => ⟨.fix name scope false, source, some target⟩

namespace Mode

theorem read_words (mode : Mode) (said : Words) :
    Words.read .fix said mode.words = .ok (mode.say said) := by
  cases mode with
  | text => rfl
  | edit => rfl
  | file long target => cases long <;> rfl

theorem name?_say (mode : Mode) (said : Words) : (mode.say said).name? = said.name? := by
  cases mode <;> rfl

theorem source_say (mode : Mode) (said : Words) : (mode.say said).source = said.source := by
  cases mode <;> rfl

end Mode

/-- The source that the pieces name. -/
inductive Piece.Finds (pieces : List Piece) : Source → Prop
  | input (dash : Stands pieces "-") : Finds pieces .input
  | file {name : String} (noDash : ¬ Stands pieces "-") (named : Stands pieces name) :
    Finds pieces (.file name)

namespace Piece

theorem Took.finds {pieces : List Piece} {said : Words} {source : Source}
    (h : Took pieces {} said) (hsource : said.source = .ok source) : Finds pieces source := by
  have hdash : said.fromInput = true ↔ Stands pieces "-" := by simpa using h.fromInput
  rw [Words.source] at hsource
  split at hsource
  · rename_i hinput
    obtain rfl := Except.ok.inj hsource
    exact .input (hdash.mp hinput)
  · rename_i hinput
    split at hsource
    · rename_i file hfile
      obtain rfl := Except.ok.inj hsource
      refine .file (fun hstands => hinput (hdash.mpr hstands)) ?_
      exact (h.file? file hfile).resolve_left (fun hnone => nomatch hnone)
    · cases hsource

theorem Took.asks {pieces : List Piece} {said : Words} (h : Took pieces {} said) :
    Asks pieces said.scope := by
  by_cases hmem : .crateOnly ∈ pieces
  · rw [h.asked hmem]
    exact .crateOnly hmem
  · rw [h.notAsked hmem]
    exact .pub hmem

/-- In every mode the command line is faulty, for the same reason, or it asks for the same fix on
the same source. -/
theorem jobs (pieces : List Piece) :
    (∃ failure, ∀ mode : Mode,
      Job.ofWords .fix (pieces.flatMap words ++ mode.words) = .error failure) ∨
    ∃ name scope source, Asks pieces scope ∧ Finds pieces source ∧ ∀ mode : Mode,
      Job.ofWords .fix (pieces.flatMap words ++ mode.words) = .ok (mode.job name scope source) := by
  have hread : ∀ mode : Mode, Words.read .fix {} (pieces.flatMap words ++ mode.words) =
      (takeAll {} pieces).map mode.say := by
    intro mode
    rw [read_words]
    cases takeAll {} pieces with
    | error failure => rfl
    | ok said => exact mode.read_words said
  cases htake : takeAll {} pieces with
  | error failure =>
    refine .inl ⟨failure, fun mode => ?_⟩
    rw [Job.ofWords, hread, htake]
    rfl
  | ok said =>
    have htook := took_of_takeAll htake
    have hjob : ∀ mode : Mode, Job.ofWords .fix (pieces.flatMap words ++ mode.words) = (do
        let action ← (mode.say said).action .fix
        let source ← (mode.say said).source
        pure { action, source, target? := (mode.say said).target? }) := by
      intro mode
      rw [Job.ofWords, hread, htake]
      rfl
    cases hname : said.name? with
    | none =>
      refine .inl ⟨.noName, fun mode => ?_⟩
      rw [hjob, Words.action, mode.name?_say, hname]
      rfl
    | some name =>
      cases hsource : said.source with
      | error failure =>
        refine .inl ⟨failure, fun mode => ?_⟩
        rw [hjob, Words.action, mode.name?_say, hname, mode.source_say, hsource]
        rfl
      | ok source =>
        refine .inr ⟨name, said.scope, source, htook.asks, htook.finds hsource, fun mode => ?_⟩
        rw [hjob, Words.action, mode.name?_say, hname, mode.source_say, hsource]
        cases mode with
        | text => simp [Mode.say, Mode.job, htook.asEdit, htook.target?, bind, Except.bind, pure, Except.pure]
        | edit => simp [Mode.say, Mode.job, htook.target?, bind, Except.bind, pure, Except.pure]
        | file long target => simp [Mode.say, Mode.job, htook.asEdit, bind, Except.bind, pure, Except.pure]

end Piece

end DeclVisibility.CommandLine
