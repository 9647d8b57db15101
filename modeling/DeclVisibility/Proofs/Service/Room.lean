import DeclVisibility.Proofs.Fix.Room
import DeclVisibility.Proofs.Service.RoundTrip
import DeclVisibility.Proofs.Text.Sums

/-!
# Documents stay short

A document that was opened with a text of fewer bytes than the limit stays below it with a byte to
spare, whatever fixes are applied (`Session.Roomy`). The text that it came with took up two bytes
more than the document, and eleven for each element; so much a fix can write into an element, and it
can do so once. So every position in an open document has a written form
(`Tree.ReadsAs.displayable`).
-/

namespace DeclVisibility

/-! ## Positions in a short text -/

namespace Position

variable {text before piece after : String}

/-- The extent of a piece of a text that has fewer bytes than the limit. -/
theorem fits_of_piece (h : text = before ++ piece ++ after) (short : text.utf8ByteSize < limit) :
    (ofString piece).Fits := by
  apply fits_ofString
  rw [h, String.utf8ByteSize_append, String.utf8ByteSize_append] at short
  omega

theorem displayable_of_piece (h : text = before ++ piece ++ after)
    (short : text.utf8ByteSize + 1 < limit) : (ofString piece).Displayable := by
  apply displayable_ofString
  rw [h, String.utf8ByteSize_append, String.utf8ByteSize_append] at short
  omega

end Position

namespace Tree.ReadsAs

variable {t : Tree} {s : Subtree} {node : NodeId} {pos : Position}

/-- Every node starts where a piece of the text ends. -/
theorem exists_piece_of_offsetOf? (h : t.ReadsAs s) (hpos : t.offsetOf? node = some pos) :
    ∃ piece after, t.text = "" ++ piece ++ after ∧ pos = .ofString piece := by
  obtain ⟨before, after, htext, rfl⟩ := h.exists_text_of_offsetOf? hpos
  exact ⟨before, after, by rw [htext, String.empty_append], rfl⟩

theorem displayable (h : t.ReadsAs s) (short : t.text.utf8ByteSize + 1 < Position.limit)
    (hpos : t.offsetOf? node = some pos) : pos.Displayable := by
  obtain ⟨piece, after, htext, rfl⟩ := h.exists_piece_of_offsetOf? hpos
  exact Position.displayable_of_piece htext short

end Tree.ReadsAs

/-! ## Documents along a run -/

/-- A request that opens a document does so with a text of fewer bytes than the limit. -/
def Call.Short (call : Call) : Prop :=
  ∀ doc version text, call = .openJson doc version text → text.utf8ByteSize < Position.limit

namespace Session

variable {s s' : Session} {call : Call} {answer : Answer}

/-- All open documents are below the limit with a byte to spare, and stay so by fixes. -/
def Roomy (s : Session) : Prop :=
  ∀ doc document, s.service.document? doc = some document →
    document.tree.fullSize + 1 < Position.limit

theorem Roomy.short (h : s.Roomy) {doc : Doc} {document : Document}
    (hopen : s.service.document? doc = some document) :
    document.tree.text.utf8ByteSize + 1 < Position.limit := by
  have hroom := h doc document hopen
  rw [Tree.fullSize] at hroom
  omega

theorem Roomy.apply {service : Service} {doc : Doc} {fix : Fix} {version : Version} {edit : Edit}
    (h : s.Roomy) (made : s.WellMade)
    (happly : (s.service.apply doc fix).outcome.value = .ok (some (version, edit), service)) :
    (s.withService service).Roomy := by
  obtain ⟨document, -, -, hopen, happlicable, hnamed, -⟩ := Service.wrote_of_apply (made doc) happly
  obtain ⟨sub, hsub⟩ := made doc document hopen
  obtain ⟨tree, next, w, hinserts, rfl⟩ := Service.inserts_of_apply hopen hsub happly
  have unwritten := (document.tree.isPrivate_visibilityOf fix.decl).mp happlicable.isPrivate
  have hroom := h doc document hopen
  have hle := hinserts.fullSize_le hsub unwritten hnamed
  refine Service.Every.withDocument (P := fun t => t.fullSize + 1 < Position.limit) h ?_
  exact Nat.lt_of_le_of_lt (Nat.add_le_add_right hle 1) hroom

theorem Roomy.openJson {service : Service} {doc : Doc} {version : Version} {text : String}
    (h : s.Roomy) (short : text.utf8ByteSize < Position.limit)
    (hopen : (s.service.openJson doc version text).outcome.value = .ok (.ok service)) :
    (s.withService service).Roomy := by
  obtain ⟨input, events, tree, hinput, hevents, htree, hdocuments⟩ := Service.openJson_eq_ok hopen
  have hsize := Draft.fullSize_of_events hevents htree
  have hbulk := Exchange.bulk_of_readDocument hinput
  have hroom : tree.fullSize + 1 < Position.limit := by omega
  exact (Service.Every.withDocument (P := fun t => t.fullSize + 1 < Position.limit) h hroom).congr
    hdocuments

/-- A request with a short text leaves every open document with room. -/
theorem roomy_step (h : (s.step call).outcome.value = .ok (answer, s')) (made : s.WellMade)
    (short : call.Short) (roomy : s.Roomy) : s'.Roomy :=
  every_step (P := fun t => t.fullSize + 1 < Position.limit) h roomy
    (fun doc version text _ hcall hopen => roomy.openJson (short doc version text hcall) hopen)
    fun _ _ _ _ _ happly => roomy.apply made happly

theorem roomy_new : new.Roomy := fun _ _ h => nomatch h

/-- Requests with short texts leave every open document with room. -/
theorem Run.roomy {steps : List Step} {last : Session} (h : Run s steps last) (made : s.WellMade)
    (texts : ∀ step ∈ steps, step.call.Short) (roomy : s.Roomy) : last.Roomy := by
  have hboth : last.WellMade ∧ last.Roomy := by
    refine h.preserves (fun t => t.WellMade ∧ t.Roomy) ?_ ⟨made, roomy⟩
    rintro step hmem heffect ⟨made, roomy⟩
    exact ⟨heffect.wellMade made, roomy_step (h.answered hmem) made (texts step hmem) roomy⟩
  exact hboth.2

end Session

end DeclVisibility
