import DeclVisibility.Proofs.Outline.Written
import DeclVisibility.Proofs.Service.Outlines

/-!
# The written outline of an open document

The outline of an open document is written as one row for each item, provided that all positions in
it can be written. A name has no line feed if its own tokens have none, since spaces and comments
are left out of it (`Tree.ReadsAs.lineFeeds_symbolName`). The parameters of a method are written
with the spaces and comments in them, so a row is one line exactly if each parameter of its method
is on one line in the document (`Session.rows_of_outline`).
-/

namespace DeclVisibility

namespace Tree

/-- Neither a name nor a type that an implementation goes by has a line feed in a token that is no
space or comment. -/
def NamesOnOneLine (t : Tree) : Prop :=
  ∀ id, (t.elementKind? id = some .name ∨
      ∃ impl, t.elementKind? impl = some .implItem ∧ t.childElement? impl .ty = some id) →
    ∀ token held, Relation.TransGen t.Lists (.element id) (.token token) →
      t.token? token = some held → held.kind.isTrivia = false → Text.lineFeeds held.text = 0

/-- All that is not blank of each parameter stands on one line, if the declaration is a method. -/
def ParametersOnOneLine (t : Tree) (decl : ElementId) : Prop :=
  ∀ m, t.method? decl = some m → ∀ param ∈ t.methodDeclarations m,
    Text.OnOneLine (t.nodeText (.element param))

variable {t : Tree} {s : Subtree} {id : ElementId}

theorem namesOnOneLine_of_all (h : t.tokens.rows.all fun held =>
    held.kind.isTrivia || Text.lineFeeds held.text == 0) : t.NamesOnOneLine := by
  intro id _ token held _ htoken htrivia
  rw [Array.all_eq_true_iff_forall_mem] at h
  have hheld := h held (Array.mem_of_getElem? htoken)
  rw [htrivia, Bool.false_or, beq_iff_eq] at hheld
  exact hheld

/-- The parameters of a declaration are written on one line exactly if they are so in the
document. -/
theorem lineFeeds_parameterTexts (t : Tree) (decl : ElementId) :
    Text.lineFeeds (String.join (t.parameterTexts decl)) = 0 ↔ t.ParametersOnOneLine decl := by
  rw [parameterTexts, ParametersOnOneLine]
  cases t.method? decl with
  | none =>
    refine iff_of_true rfl fun m hm => ?_
    cases hm
  | some m =>
    simp only [Option.some.injEq, forall_eq', Text.lineFeeds_join_eq_zero, List.forall_mem_map,
      Text.lineFeeds_trim]

namespace ReadsAs

/-- The text of an element without spaces and comments has the line feeds of its other tokens
only. -/
theorem lineFeeds_nonTriviaText (h : t.ReadsAs s) (held : t.holds (.element id) = true)
    (tokens : ∀ token held, Relation.TransGen t.Lists (.element id) (.token token) →
      t.token? token = some held → held.kind.isTrivia = false → Text.lineFeeds held.text = 0) :
    Text.lineFeeds (t.nonTriviaText id) = 0 := by
  obtain ⟨⟨p, u⟩, hplace, hid⟩ := h.exists_placed held
  have hcarries := h.carries.of_placed hplace
  have hview : t.subtree? (.element id) = some u := hid ▸ h.shows.subtree? hplace
  rw [Forest.nonTriviaText, hview]
  simp only [Subtree.nonTriviaText, Subtree.textOfLeaves]
  rw [Text.lineFeeds_join_eq_zero, List.forall_mem_map]
  intro leaf hleaf
  rw [List.mem_filter] at hleaf
  obtain ⟨q, hq⟩ := Subtree.exists_placed_leaf hleaf.1 p
  have hnode : NodeId.token leaf.id ∈ u.nodesBelow := by
    have hmem : NodeId.token leaf.id ∈ u.nodes := (Subtree.mem_nodes_iff p).mpr ⟨_, hq, rfl⟩
    rw [u.nodes_eq, List.mem_cons] at hmem
    refine hmem.resolve_left fun heq => ?_
    cases heq.trans hid
  refine tokens leaf.id ⟨leaf.kind, leaf.text, q⟩ ?_ (Forest.token?_of_row? (hcarries _ hq))
    (by simpa using hleaf.2)
  exact hid ▸ hcarries.above_iff.mpr hnode

/-- The name of a declaration is on one line where its tokens are. -/
theorem lineFeeds_symbolName (h : t.ReadsAs s) (names : t.NamesOnOneLine) (decl : ElementId) :
    Text.lineFeeds ((t.symbolName? decl).getD "") = 0 := by
  have hchild : ∀ {wanted child}, t.childElement? decl wanted = some child →
      (t.elementKind? child = some .name ∨ ∃ impl, t.elementKind? impl = some .implItem ∧
        t.childElement? impl .ty = some child) → Text.lineFeeds (t.nonTriviaText child) = 0 := by
    intro wanted child hchild hnames
    have held := h.madeOf.holds_child (Forest.mem_children_of_childElement? hchild)
    exact h.lineFeeds_nonTriviaText held (names child hnames)
  rw [Forest.symbolName?]
  split
  · rename_i himpl
    cases hty : t.childElement? decl .ty with
    | none => rfl
    | some ty => exact hchild hty (.inr ⟨decl, himpl, hty⟩)
  · -- a field without a name goes by a number
    cases t.parent? (.element decl) with
    | none => rfl
    | some parent =>
      rw [Option.bind_some]
      cases (t.childElements parent .tupleFieldDecl).idxOf? decl with
      | none => rfl
      | some index => exact Text.lineFeeds_eq_zero.mpr (Text.feed_notMem_toString index)
  · cases hname : t.childElement? decl .name with
    | none => rfl
    | some name =>
      have hkind : t.elementKind? name = some .name := by simpa using List.find?_some hname
      exact hchild hname (.inl hkind)

/-- The name of a listed symbol has no line feeds, and it has parameters only if it is a method. -/
theorem lineFeeds_told (h : t.ReadsAs s) (names : t.NamesOnOneLine) {origin? : Option Origin}
    {x : ElementId × List ElementId} (hx : x ∈ s.listed) :
    (Text.lineFeeds (t.entry origin? x).item.name +
        if (t.entry origin? x).item.presentation.kind = .method then
          Text.lineFeeds (String.join (t.entry origin? x).item.declarations) else 0) =
      Text.lineFeeds (String.join (t.entry origin? x).item.declarations) := by
  have hname : Text.lineFeeds (t.entry origin? x).item.name = 0 := h.lineFeeds_symbolName names x.1
  have hsymbol := (h.mem_listed_iff.mp (List.mem_map_of_mem hx)).2.2
  rw [hname, Nat.zero_add, ite_eq_left_iff, kind_entry_eq_method_iff hsymbol]
  intro hnone
  have hparams : (t.entry origin? x).item.declarations = t.parameterTexts x.1 := rfl
  rw [Option.not_isSome_iff_eq_none] at hnone
  rw [hparams, parameterTexts, hnone]
  rfl

end ReadsAs

end Tree

/-- Rows with a line feed at the end have no others in all if each of them has no other. -/
theorem Text.lineFeeds_rows {α : Type} {single : α → Prop} {entries : List α} {rows : List String}
    (h : List.Forall₂ (fun entry row => ∃ line, row = line ++ "\n" ∧
      (lineFeeds line = 0 ↔ single entry)) entries rows) :
    entries.length ≤ lineFeeds (String.join rows) ∧
      (lineFeeds (String.join rows) = entries.length ↔ ∀ entry ∈ entries, single entry) := by
  induction h with
  | nil => exact ⟨Nat.le_refl _, by simp [lineFeeds]⟩
  | cons hrow _ ih =>
    obtain ⟨line, rfl, hline⟩ := hrow
    obtain ⟨hle, hiff⟩ := ih
    have hfeed : lineFeeds "\n" = 1 := by decide
    rw [String.join_cons, lineFeeds_append, lineFeeds_append, hfeed, List.length_cons,
      List.forall_mem_cons, ← hline, ← hiff]
    omega

namespace Session

variable {s : Session}

/-- In a document whose names are each on one line, the outline is written as one row for each item,
in which the line feeds before the last are those of the parameters. There are as many line feeds as
items exactly if the parameters of every method are each on one line. Without the position of every
item there would be no written outline. -/
theorem rows_of_outline (hs : s.Reached) {doc : Doc} {document : Document}
    (hopen : s.service.document? doc = some document) (names : document.tree.NamesOnOneLine)
    (placed : ∀ item ∈ (s.service.outline doc).value, item.pos.Displayable) :
    ∃ rows, renderOutline (s.service.outline doc).value = .ok (String.join rows) ∧
      List.Forall₂ (fun entry row => ∃ line, row = line ++ "\n" ∧
        Text.lineFeeds line = Text.lineFeeds (String.join entry.item.declarations) ∧
        (Text.lineFeeds line = 0 ↔ document.tree.ParametersOnOneLine entry.decl))
        (s.service.entries doc) rows ∧
      (Text.lineFeeds (String.join rows) = (s.service.outline doc).value.length ↔
        ∀ entry ∈ s.service.entries doc, document.tree.ParametersOnOneLine entry.decl) := by
  obtain ⟨sub, readsAs⟩ := hs.wellMade doc document hopen
  have hentries : s.service.entries doc =
      sub.listed.map (document.tree.entry (s.service.workspace.originOf? doc)) := by
    rw [Service.entries, hopen, ← readsAs.outlineEntries_listed]
  obtain ⟨rows, hrows, hlines⟩ :=
    exists_rows (fun _ hitem => Service.margin_le_of_mem_outline (hs.shallow doc) hitem) placed
  rw [s.service.outline_eq, List.forall₂_map_left_iff] at hlines
  have hall : List.Forall₂ (fun entry row => ∃ line, row = line ++ "\n" ∧
      Text.lineFeeds line = Text.lineFeeds (String.join entry.item.declarations) ∧
      (Text.lineFeeds line = 0 ↔ document.tree.ParametersOnOneLine entry.decl))
      (s.service.entries doc) rows := by
    rw [hentries, List.forall₂_map_left_iff] at hlines ⊢
    rw [List.forall₂_iff_zip] at hlines ⊢
    refine ⟨hlines.1, fun {x row} hmem => ?_⟩
    obtain ⟨line, hrow, hbody⟩ := hlines.2 hmem
    rw [readsAs.lineFeeds_told names (List.of_mem_zip hmem).1] at hbody
    exact ⟨line, hrow, hbody, hbody ▸ document.tree.lineFeeds_parameterTexts x.1⟩
  refine ⟨rows, hrows, hall, ?_⟩
  rw [s.service.outline_eq, List.length_map]
  refine (Text.lineFeeds_rows (hall.imp ?_)).2
  rintro entry row ⟨line, hrow, -, hline⟩
  exact ⟨line, hrow, hline⟩

/-- A document with a method that has a parameter, and what stands before the type of the
parameter. -/
def methodText (gap : String) : String :=
  "\x7b\"tree\":\x7b\"kind\":\"ImplItem\",\"children\":[\x7b\"kind\":\"AssocItemList\",\"children\":[" ++
  declText .fnItem "f" (",\x7b\"kind\":\"ParamList\",\"children\":[\x7b\"kind\":\"Param\"," ++
    "\"children\":[\x7b\"token\":\"Ident\",\"text\":\"x\"\x7d,\x7b\"token\":\"Colon\"\x7d," ++
    "\x7b\"token\":\"Space\",\"text\":\"" ++ gap ++ "\"\x7d," ++
    "\x7b\"token\":\"Ident\",\"text\":\"i32\"\x7d]\x7d]\x7d") ++ "]\x7d]\x7d\x7d"

theorem rows_of_outline_sample : ∃ (s : Session) (document : Document) (rows : List String),
    s.Reached ∧ s.service.document? ⟨1⟩ = some document ∧ document.tree.NamesOnOneLine ∧
    (∀ item ∈ (s.service.outline ⟨1⟩).value, item.pos.Displayable) ∧
    renderOutline (s.service.outline ⟨1⟩).value = .ok (String.join rows) ∧
    (Text.lineFeeds (String.join rows) = (s.service.outline ⟨1⟩).value.length ↔
      ∀ entry ∈ s.service.entries ⟨1⟩, document.tree.ParametersOnOneLine entry.decl) := by
  have heval : ((run [.openJson ⟨1⟩ 7 (methodText " ")] .new).outcome.value.toOption.map fun last =>
      ((last.2.service.document? ⟨1⟩).any fun document => document.tree.tokens.rows.all fun held =>
          held.kind.isTrivia || Text.lineFeeds held.text == 0,
        (last.2.service.outline ⟨1⟩).value.all fun item =>
          item.pos.row + 1 < Position.limit ∧ item.pos.column8 + 1 < Position.limit)) =
      some (true, true) := by decide +kernel
  obtain ⟨_, s, -, hs, hseen⟩ := exists_of_seen heval
  obtain ⟨hdocument, hplaced⟩ := Prod.mk.inj hseen
  obtain ⟨document, hopen, hdocument⟩ := (Option.any_eq_true _ _).mp hdocument
  have names := Tree.namesOnOneLine_of_all hdocument
  have placed : ∀ item ∈ (s.service.outline ⟨1⟩).value, item.pos.Displayable := by
    intro item hitem
    obtain ⟨hrow, hcolumn⟩ := of_decide_eq_true (List.all_eq_true.mp hplaced item hitem)
    exact ⟨hrow, hcolumn⟩
  obtain ⟨rows, hrows, -, hlines⟩ := rows_of_outline hs hopen names placed
  exact ⟨s, document, rows, hs, hopen, names, placed, hrows, hlines⟩

/-- The parameter is broken before its type, and so is the row of the method: the outline has one
item and is written on two lines. -/
theorem broken_row_of_outline : ∃ (s : Session) (document : Document), s.Reached ∧
    s.service.document? ⟨1⟩ = some document ∧ document.tree.NamesOnOneLine ∧
    (s.service.outline ⟨1⟩).value.length = 1 ∧
    (renderOutline (s.service.outline ⟨1⟩).value).toOption.map Text.lineFeeds = some 2 := by
  have heval : ((run [.openJson ⟨1⟩ 7 (methodText "\\n")] .new).outcome.value.toOption.map fun last =>
      ((last.2.service.document? ⟨1⟩).any fun document => document.tree.tokens.rows.all fun held =>
          held.kind.isTrivia || Text.lineFeeds held.text == 0,
        (last.2.service.outline ⟨1⟩).value.length,
        (renderOutline (last.2.service.outline ⟨1⟩).value).toOption.map Text.lineFeeds)) =
      some (true, 1, some 2) := by decide +kernel
  obtain ⟨_, s, -, hs, hseen⟩ := exists_of_seen heval
  obtain ⟨hdocument, hrendered⟩ := Prod.mk.inj hseen
  obtain ⟨hlength, hfeeds⟩ := Prod.mk.inj hrendered
  obtain ⟨document, hopen, hdocument⟩ := (Option.any_eq_true _ _).mp hdocument
  exact ⟨s, document, hs, hopen, Tree.namesOnOneLine_of_all hdocument, hlength, hfeeds⟩

end Session

end DeclVisibility
