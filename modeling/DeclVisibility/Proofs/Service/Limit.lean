import DeclVisibility.Proofs.Service.Safety

/-!
# A document at the limit

A position is written with its column counted from 1, and this is a number of 32 bits. So a document
whose text is one byte short of the limit can be too long for its outline to be written: a
declaration behind a comment of that length has no column (`Session.last_column_overflows`). No
other request meets a fault, and none for a shorter document (`Session.render_of_fault_of_run`).

The JSON text of such a document is not below the limit, as it is longer than the document. This is
why no request comes upon it if all texts are below the limit, JSON texts included.
-/

namespace DeclVisibility

/-! ## The last column -/

/-- The extent of a character of one byte, repeated. -/
theorem Position.ofChars_replicate {c : Char} (hfeed : c ≠ '\n') (hsize : c.utf8Size = 1) :
    ∀ n, (ofChars (List.replicate n c)).index = n ∧ (ofChars (List.replicate n c)).column8 = n
  | 0 => ⟨rfl, rfl⟩
  | n + 1 => by
    obtain ⟨hindex, hcolumn⟩ := ofChars_replicate hfeed hsize n
    have hchar : ofChar c = ⟨c.utf8Size, 0, c.utf8Size, units16 c⟩ := if_neg hfeed
    rw [List.replicate_succ', ofChars_append, ofChars_singleton, add_index, add_column8, hchar,
      hindex, hcolumn, hsize]
    exact ⟨rfl, if_neg (Nat.not_succ_le_zero 0)⟩

/-- There is a text that is one byte short of the limit and has no column behind it. -/
theorem Position.exists_not_displayable :
    ∃ text : String, text.utf8ByteSize + 1 = limit ∧ ¬ (ofString text).Displayable := by
  obtain ⟨hindex, hcolumn⟩ := ofChars_replicate (c := 'x') (by decide) (by decide) (limit - 1)
  refine ⟨String.ofList (List.replicate (limit - 1) 'x'), ?_, fun h => ?_⟩
  · rw [← index_ofChars, hindex]
    rfl
  · have hlt := h.column8
    rw [ofString, String.toList_ofList, hcolumn] at hlt
    exact absurd hlt (by decide)

/-! ## A declaration behind a comment -/

namespace Subtree

theorem eq_token_of_draft {s : Subtree} {kind : TokenKind} {text? : Option String}
    (h : s.draft = .token kind text?) : ∃ leaf, s = token leaf ∧ some leaf.text = text? := by
  cases s with
  | token leaf =>
    rw [draft_token] at h
    exact ⟨leaf, rfl, (Draft.token.inj h).2⟩
  | element id ekind children =>
    rw [draft_element] at h
    cases h

theorem eq_element_of_draft {s : Subtree} {kind : ElementKind} {ds : List Draft}
    (h : s.draft = .element kind ds) :
    ∃ id children, s = element id kind children ∧ children.map draft = ds := by
  cases s with
  | token leaf =>
    rw [draft_token] at h
    cases h
  | element id ekind children =>
    rw [draft_element] at h
    obtain ⟨rfl, hchildren⟩ := Draft.element.inj h
    exact ⟨id, children, rfl, hchildren⟩

end Subtree

/-- A source file with a comment and a function behind it. -/
def Draft.behindComment (comment : String) : Draft :=
  .element .sourceFile [.token .comment (some comment), .element .fnItem []]

/-- The source file is loaded as a tree in which the function starts behind the comment. -/
theorem Draft.exists_behindComment (comment : String) : ∃ events t root leaf decl,
    (behindComment comment).events = .ok events ∧ Tree.ofEvents events = .ok t ∧
      t.ReadsAs (.element root .sourceFile [.token leaf, .element decl .fnItem []]) ∧
      leaf.text = comment ∧ t.offsetOf? (.element decl) = some (.ofString comment) := by
  have hevents : (behindComment comment).events = .ok [.start .sourceFile, .token .comment comment,
      .start .fnItem, .finish, .finish] := rfl
  obtain ⟨t, sub, ht, hsub, hdraft⟩ := Tree.exists_of_events hevents
  rw [behindComment, writtenOut_element] at hdraft
  obtain ⟨root, children, rfl, hchildren⟩ := Subtree.eq_element_of_draft hdraft
  obtain ⟨first, rest, rfl, hfirst, hrest⟩ := List.map_eq_cons_iff.mp hchildren
  obtain ⟨second, none, rfl, hsecond, hnone⟩ := List.map_eq_cons_iff.mp hrest
  obtain rfl := List.map_eq_nil_iff.mp hnone
  rw [writtenOut] at hfirst
  rw [writtenOut_element] at hsecond
  obtain ⟨leaf, rfl, hleaf⟩ := Subtree.eq_token_of_draft hfirst
  obtain ⟨decl, below, rfl, hbelow⟩ := Subtree.eq_element_of_draft hsecond
  obtain rfl := List.map_eq_nil_iff.mp hbelow
  have htext : leaf.text = comment := Option.some.inj hleaf
  refine ⟨_, t, root, leaf, decl, hevents, ht, hsub, htext, ?_⟩
  have hne : root ≠ decl := by
    rintro rfl
    simpa using hsub.nodup
  rw [hsub.offsetOf?_eq]
  simp [Subtree.leavesBefore?, Subtree.leavesBeforeAll?, hne, Subtree.textOfLeaves, htext]

namespace Session

variable {s : Session}

/-! ## Documents below the limit -/

/-- Every open document has fewer bytes than the limit. -/
def DocumentsShort (s : Session) : Prop :=
  ∀ doc document, s.service.document? doc = some document →
    document.tree.text.utf8ByteSize < Position.limit

/-- With versions left and with documents below the limit, a request meets a fault only if it is for
the outline of a document that is one byte short of it. -/
theorem render_of_fault {call : Call} {fault : Fault} (shallow : s.Shallow)
    (versions : s.VersionsLeft) (short : s.DocumentsShort)
    (h : (s.step call).outcome.value = .error fault) :
    fault = .positionOverflow ∧ ∃ doc document, call = .render doc ∧
      s.service.document? doc = some document ∧
      document.tree.text.utf8ByteSize + 1 = Position.limit := by
  have hplaced : ¬ ∀ doc, call = .render doc →
      ∀ item ∈ (s.service.outline doc).value, item.pos.Displayable := by
    intro placed
    obtain ⟨answered, hanswered⟩ :=
      (succeeds_step_of_displayable shallow versions placed).value
    cases h.symm.trans hanswered
  push Not at hplaced
  obtain ⟨doc, rfl, item, hitem, hpos⟩ := hplaced
  obtain rfl := Except.error.inj (h.symm.trans (render_of_not_displayable shallow hitem hpos))
  obtain ⟨document, hopen⟩ := Service.exists_of_mem_outline hitem
  obtain ⟨sub, hsub⟩ := shallow.wellMade doc document hopen
  refine ⟨rfl, doc, document, rfl, hopen, ?_⟩
  refine (Nat.succ_le_of_lt (short doc document hopen)).antisymm (Nat.le_of_not_lt fun spare => ?_)
  refine hpos (Service.displayable_of_mem_outline (fun other hother => ?_) hitem)
  obtain rfl := Option.some.inj (hopen.symm.trans hother)
  exact ⟨sub, hsub, spare⟩

/-- As long as versions are left and documents are below the limit, requests are answered up to the
first one for the outline of a document that is one byte short of it. -/
theorem render_of_fault_of_run {calls : List Call} {fault : Fault} (shallow : s.Shallow)
    (kept : ∀ before after, calls = before ++ after → ∀ answers mid,
      (run before s).outcome.value = .ok (answers, mid) → mid.VersionsLeft ∧ mid.DocumentsShort)
    (h : (run calls s).outcome.value = .error fault) :
    fault = .positionOverflow ∧ ∃ before doc after answers mid document,
      calls = before ++ .render doc :: after ∧
      (run before s).outcome.value = .ok (answers, mid) ∧
      mid.service.document? doc = some document ∧
      document.tree.text.utf8ByteSize + 1 = Position.limit := by
  induction calls generalizing s with
  | nil => cases h
  | cons call rest ih =>
    obtain ⟨versions, short⟩ := kept [] _ rfl [] s rfl
    cases hstep : (s.step call).outcome.value with
    | error met =>
      obtain rfl := Except.error.inj ((Attempt.value_bind_of_error hstep).symm.trans h)
      obtain ⟨hfault, doc, document, rfl, hopen, hlong⟩ :=
        render_of_fault shallow versions short hstep
      exact ⟨hfault, [], doc, rest, [], s, document, rfl, rfl, hopen, hlong⟩
    | ok answered =>
      obtain ⟨answer, next⟩ := answered
      have hrest : (run rest next).outcome.value = .error fault := by
        cases hvalue : (run rest next).outcome.value with
        | error met =>
          rw [run, Attempt.value_bind_of_ok hstep, Attempt.value_bind_of_error hvalue] at h
          exact h
        | ok reached => cases (run_cons_of_ok hstep hvalue).symm.trans h
      have hkept : ∀ before after, rest = before ++ after → ∀ answers mid,
          (run before next).outcome.value = .ok (answers, mid) →
            mid.VersionsLeft ∧ mid.DocumentsShort := by
        intro before after hsplit answers mid hbefore
        exact kept (call :: before) after (by rw [hsplit, List.cons_append]) _ mid
          (run_cons_of_ok hstep hbefore)
      obtain ⟨hfault, before, doc, after, answers, mid, document, rfl, hbefore, hfound⟩ :=
        ih (shallow_step hstep shallow) hkept hrest
      exact ⟨hfault, call :: before, doc, after, _, mid, document, rfl,
        run_cons_of_ok hstep hbefore, hfound⟩

/-! ## A document at the limit -/

/-- A document whose text is one byte short of the limit can be opened, but its outline cannot be
written, if the whole of the text stands on one line before a declaration. The JSON text that it is
opened from has at least as many bytes as the limit. -/
theorem last_column_overflows : ∃ (json : String) (s : Session) (document : Document),
    (run [.openJson ⟨1⟩ 1 json] .new).outcome.value = .ok ([.done], s) ∧
      s.service.document? ⟨1⟩ = some document ∧
      document.tree.text.utf8ByteSize + 1 = Position.limit ∧
      (s.step (.render ⟨1⟩)).outcome.value = .error .positionOverflow ∧
      Position.limit ≤ json.utf8ByteSize := by
  obtain ⟨comment, hsize, hplace⟩ := Position.exists_not_displayable
  obtain ⟨events, t, root, leaf, decl, hevents, ht, hsub, htext, hstart⟩ :=
    Draft.exists_behindComment comment
  have hnesting : (Draft.behindComment comment).nesting ≤ 62 := by
    simp [Draft.behindComment, Draft.nesting, Draft.nestingOfAll]
  have hread := Exchange.readDocument_documentText hnesting
  generalize hjson : Exchange.documentText (.behindComment comment) = json at hread
  have hopened : (Service.new.openJson ⟨1⟩ 1 json).outcome.value =
      .ok (.ok (Service.new.withDocument ⟨1⟩ ⟨1, t⟩)) := by
    refine Service.openJson_eq_ok_iff.mpr ⟨_, events, hread, hevents, ?_⟩
    rw [Service.openInput, ht]
    rfl
  have hstep : (new.step (.openJson ⟨1⟩ 1 json)).outcome.value =
      .ok (.done, new.withService (Service.new.withDocument ⟨1⟩ ⟨1, t⟩)) :=
    Attempt.value_bind_of_ok hopened
  have hreached : (new.withService (Service.new.withDocument ⟨1⟩ ⟨1, t⟩)).Reached :=
    ⟨_, .cons hstep (.nil _)⟩
  have hdocument : (new.withService (Service.new.withDocument ⟨1⟩ ⟨1, t⟩)).service.document? ⟨1⟩ =
      some ⟨1, t⟩ := by
    rw [withService, Service.document?_withDocument, if_pos rfl]
  refine ⟨json, _, ⟨1, t⟩, ?_, hdocument, ?_, ?_, ?_⟩
  · exact run_cons_of_ok hstep rfl
  · rw [hsub.text, ← hsize, ← htext]
    simp [Subtree.text, Subtree.textOfLeaves]
  · -- the function is the only symbol below the root
    have hsymbols : (Subtree.element decl .fnItem []).symbols [] = [(decl, [])] :=
      Subtree.symbols_of_some rfl
    have hlisted : (decl, []) ∈
        (Subtree.element root .sourceFile [.token leaf, .element decl .fnItem []]).listed := by
      simp [Subtree.listed, hsymbols]
    refine render_of_not_displayable hreached.shallow
      (Service.mem_outline_of_listed hdocument hsub hlisted) ?_
    show ¬ ((t.offsetOf? (.element decl)).getD .zero).Displayable
    rw [hstart]
    exact hplace
  · have hbulk := Exchange.bulk_of_readDocument hread
    simp only [Draft.behindComment, Draft.bulk, Draft.bulkOfAll, Option.getD_some] at hbulk
    omega

end Session

end DeclVisibility
