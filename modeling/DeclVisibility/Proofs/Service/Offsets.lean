import DeclVisibility.Proofs.Fix.Published
import DeclVisibility.Proofs.Service.Safety
import DeclVisibility.Proofs.Tree.Tops

/-!
# Where the nodes of an open document start

The tree of an open document is one nested value, and shows it still when new nodes were made that
hang beside it, even if one of these took in the root. So each node that the root leads to has a
position, which is the extent of the text of the tokens before it in tree order
(`Session.offsetOf?_after_changes`). The walk that finds the position passes every token before the
node and stops there (`Subtree.seek_eq`); that these are the tokens among the nodes before it in the
preorder list is `Subtree.map_id_leavesBefore?`.
-/

namespace DeclVisibility

namespace Tree.Shows

variable {t : Tree} {s : Subtree} {node : NodeId}

theorem reaches_iff (h : t.Shows s) : t.Reaches node ↔ node ∈ s.nodes := by
  rw [← h.order_eq]
  exact h.mem_order_iff.symm

/-- A node has a position exactly if the root leads to it. -/
theorem offsetOf?_isSome_iff (h : t.Shows s) : (t.offsetOf? node).isSome ↔ t.Reaches node := by
  rw [h.reaches_iff, h.offsetOf?_eq, Option.isSome_map, ← not_iff_not, Bool.not_eq_true,
    Option.isSome_eq_false_iff, Option.isNone_iff_eq_none, Subtree.leavesBefore?_eq_none]

/-- The position of a node is the extent of the text before it, its own text comes next, and the
counts are numbers of 32 bits where the bytes of the whole text are. -/
theorem starts (h : t.Shows s) {pos : Position} (hpos : t.offsetOf? node = some pos) :
    pos = .ofString (t.textBefore node) ∧
      (∃ after, t.text = t.textBefore node ++ t.nodeText node ++ after) ∧
      (t.text.utf8ByteSize < Position.limit → pos.Fits) := by
  have hnode : node ∈ s.nodes := by
    rw [← h.reaches_iff, ← h.offsetOf?_isSome_iff, hpos]
    rfl
  obtain ⟨hoffset, after, htext⟩ := h.offsetOf?_of_mem hnode
  obtain rfl := Option.some.inj (hpos.symm.trans hoffset)
  refine ⟨rfl, ⟨after, htext⟩, fun short => ?_⟩
  have hpiece : t.text = "" ++ t.textBefore node ++ (t.nodeText node ++ after) := by
    rw [htext, String.empty_append, String.append_assoc]
  exact Position.fits_of_piece hpiece short

end Tree.Shows

namespace Session

variable {s : Session}

/-- In the tree of an open document, also after changes that made new nodes beside it, the nodes
that the root leads to stand in one order, and these have a position: the extent of the text of the
tokens before them, behind which their own text stands. -/
theorem offsetOf?_after_changes (hs : s.Reached) {doc : Doc} {document : Document}
    (hopen : s.service.document? doc = some document) {changes : List Forest.Change}
    (detached : ∀ change ∈ changes, change.makesDetached = true) {f : Forest}
    (grown : Forest.grown? changes document.tree.toForest = some f) {t : Tree}
    (ht : t = document.tree.withForest f) :
    t.order.Nodup ∧ t.order.Pairwise t.Precedes ∧ (∀ node, node ∈ t.order ↔ t.Reaches node) ∧
      ∀ node, ((t.offsetOf? node).isSome ↔ t.Reaches node) ∧
        ∀ pos, t.offsetOf? node = some pos →
          pos = .ofString (t.textBefore node) ∧
            (∃ after, t.text = t.textBefore node ++ t.nodeText node ++ after) ∧
            (t.text.utf8ByteSize < Position.limit → pos.Fits) := by
  obtain ⟨sub, readsAs⟩ := hs.wellMade doc document hopen
  have shows : t.Shows sub := ht ▸ readsAs.shows.grown detached grown
  exact ⟨shows.nodup_order, shows.pairwise_order, fun _ => shows.mem_order_iff, fun _ =>
    ⟨shows.offsetOf?_isSome_iff, fun _ hpos => shows.starts hpos⟩⟩

/-- Changes that make a token and a visibility, and an element that takes in the root and the
token. -/
def beside : List Forest.Change :=
  [.token .ident "x", .visibility .pub, .element .block [.element ⟨1⟩, .token ⟨4⟩]]

/-- The name of the function starts where it did; what the root hangs in has no position. -/
theorem offsetOf?_after_changes_sample : ∃ (s : Session) (document : Document) (f : Forest),
    s.Reached ∧ s.service.document? ⟨1⟩ = some document ∧
    Forest.grown? beside document.tree.toForest = some f ∧
    f.parent? (.element document.tree.root) = some ⟨3⟩ ∧
    (document.tree.withForest f).offsetOf? (.element ⟨0⟩) = some (.ofString "/*é*/fn ") ∧
    ((document.tree.withForest f).offsetOf? (.element ⟨3⟩)).isSome = false := by
  have heval : ((run [.openJson ⟨1⟩ 7 sampleText] .new).outcome.value.toOption.map fun last =>
      (last.2.service.document? ⟨1⟩).any fun document =>
        (Forest.grown? beside document.tree.toForest).any fun f =>
          f.parent? (.element document.tree.root) = some ⟨3⟩ ∧
          (document.tree.withForest f).follow? (.element document.tree.root) [3] =
            some (.element ⟨0⟩) ∧
          (document.tree.withForest f).textBefore (.element ⟨0⟩) = "/*é*/fn " ∧
          .element ⟨3⟩ ∉ (document.tree.withForest f).order) = some true := by decide +kernel
  obtain ⟨_, s, -, hs, hseen⟩ := exists_of_seen heval
  obtain ⟨document, hopen, hdocument⟩ := (Option.any_eq_true _ _).mp hseen
  obtain ⟨f, hgrown, hf⟩ := (Option.any_eq_true _ _).mp hdocument
  obtain ⟨hparent, hpath, hbefore, hnone⟩ := of_decide_eq_true hf
  obtain ⟨-, -, hmem, hstarts⟩ := offsetOf?_after_changes hs hopen (by decide) hgrown rfl
  obtain ⟨pos, hpos⟩ := Option.isSome_iff_exists.mp ((hstarts (.element ⟨0⟩)).1.mpr ⟨[3], hpath⟩)
  obtain ⟨rfl, -⟩ := (hstarts (.element ⟨0⟩)).2 pos hpos
  refine ⟨s, document, f, hs, hopen, hgrown, hparent, by rw [hpos, hbefore], ?_⟩
  rw [← Bool.not_eq_true, (hstarts _).1, ← hmem]
  exact hnone

end Session

end DeclVisibility
