import DeclVisibility.Proofs.Service.Runs
import DeclVisibility.Proofs.Tree.Shown

/-!
# Dumps tell documents apart

The dump of an open document leaves out the numbers of its nodes, and of each token either the kind
or the text. Nothing is lost by that: open documents have the same dump, or the same shown form on
one line, exactly if their trees look alike, and then they have the same text
(`Session.dump_faithful`). The tokens of an open document are spelled as their kinds say, whatever
was done to it (`Session.Reached.wellMade`), so a kind that is shown by its name tells the text.
-/

namespace DeclVisibility

namespace Tree

variable {t t' : Tree}

theorem ReadsAs.line_eq_iff {s s' : Subtree} (h : t.ReadsAs s) (h' : t'.ReadsAs s') :
    t.whole?.map Subtree.line = t'.whole?.map Subtree.line ↔ t.LooksLike t' := by
  rw [h.whole?, h'.whole?, Option.map_some, Option.map_some, Option.some.injEq,
    h.looksLike_iff h']
  exact ⟨Subtree.looksLike_of_line h.spelled h'.spelled, Subtree.LooksLike.line_eq⟩

theorem ReadsAs.block_eq_iff {s s' : Subtree} (h : t.ReadsAs s) (h' : t'.ReadsAs s') :
    t.whole?.map Subtree.block = t'.whole?.map Subtree.block ↔ t.LooksLike t' := by
  rw [h.whole?, h'.whole?, Option.map_some, Option.map_some, Option.some.injEq,
    h.looksLike_iff h']
  exact ⟨Subtree.looksLike_of_block h.spelled h'.spelled, Subtree.LooksLike.block_eq⟩

end Tree

namespace Session

/-- Two documents that are open in states that are reached have equal dumps exactly if their trees
look alike, just so for the shown forms on one line, and trees that look alike have one text. -/
theorem dump_faithful {s s' : Session} (hs : s.Reached) (hs' : s'.Reached) {doc doc' : Doc}
    {document document' : Document} (hopen : s.service.document? doc = some document)
    (hopen' : s'.service.document? doc' = some document') :
    (s.service.dump? doc = s'.service.dump? doc' ↔ document.tree.LooksLike document'.tree) ∧
      (document.tree.whole?.map Subtree.line = document'.tree.whole?.map Subtree.line ↔
        document.tree.LooksLike document'.tree) ∧
      (document.tree.LooksLike document'.tree →
        s.service.text? doc = s'.service.text? doc') := by
  obtain ⟨sub, readsAs⟩ := hs.wellMade doc document hopen
  obtain ⟨sub', readsAs'⟩ := hs'.wellMade doc' document' hopen'
  refine ⟨?_, readsAs.line_eq_iff readsAs', fun alike => ?_⟩
  · rw [Service.dump?, Service.dump?, hopen, hopen', Option.bind_some, Option.bind_some]
    exact readsAs.block_eq_iff readsAs'
  · rw [Service.text?, Service.text?, hopen, hopen', Option.map_some, Option.map_some,
      readsAs.text, readsAs'.text, ((readsAs.looksLike_iff readsAs').mp alike).text_eq]

/-- The document of the short run as it is after the fix, with a name that is no identifier. -/
def fixedText : String :=
  "\x7b\"tree\":\x7b\"kind\":\"FnItem\",\"children\":[" ++
  "\x7b\"token\":\"Comment\",\"text\":\"/*é*/\"\x7d," ++
  "\x7b\"kind\":\"Vis\",\"children\":[\x7b\"token\":\"Pub\"\x7d]\x7d," ++
  "\x7b\"token\":\"Space\",\"text\":\" \"\x7d,\x7b\"token\":\"Fn\"\x7d," ++
  "\x7b\"token\":\"Space\",\"text\":\" \"\x7d," ++
  "\x7b\"kind\":\"Name\",\"children\":[\x7b\"token\":\"Other\",\"text\":\"f\"\x7d]\x7d]\x7d\x7d"

/-- A fixed document and one that was opened as it is have equal dumps. -/
theorem dump_faithful_sample : ∃ (s : Session) (document document' : Document), s.Reached ∧
    s.service.document? ⟨1⟩ = some document ∧ s.service.document? ⟨2⟩ = some document' ∧
    document ≠ document' ∧ s.service.dump? ⟨1⟩ = s.service.dump? ⟨2⟩ ∧
    document.tree.LooksLike document'.tree ∧ s.service.text? ⟨1⟩ = s.service.text? ⟨2⟩ := by
  have heval : ((run (sample ++ [.openJson ⟨2⟩ 1 fixedText]) .new).outcome.value.toOption.map
      fun last => decide ((last.2.service.document? ⟨1⟩).map (·.version) = some 8 ∧
        (last.2.service.document? ⟨2⟩).map (·.version) = some 1 ∧
        last.2.service.dump? ⟨1⟩ = last.2.service.dump? ⟨2⟩)) = some true := by decide +kernel
  obtain ⟨_, s, -, hs, hseen⟩ := exists_of_seen heval
  obtain ⟨hfixed, hopened, hdump⟩ := of_decide_eq_true hseen
  obtain ⟨document, hopen, hversion⟩ := Option.map_eq_some_iff.mp hfixed
  obtain ⟨document', hopen', hversion'⟩ := Option.map_eq_some_iff.mp hopened
  obtain ⟨hdumps, -, htexts⟩ := dump_faithful hs hs hopen hopen'
  refine ⟨s, document, document', hs, hopen, hopen', ?_, hdump, hdumps.mp hdump,
    htexts (hdumps.mp hdump)⟩
  rintro rfl
  rw [hversion] at hversion'
  exact absurd hversion' (by decide)

end Session

end DeclVisibility
