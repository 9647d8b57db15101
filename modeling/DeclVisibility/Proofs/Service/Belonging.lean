import DeclVisibility.Proofs.Service.Runs

/-!
# Which documents take a fix

A fix names its declaration by a number, and every document numbers its elements from zero. So what
decides whether a document takes a fix is not where the fix was obtained but what has that number
in the document now: it is taken exactly if the element is private and has a name
(`Session.takes_iff_awaits`), and a fix that is not taken leaves the service as it was. A fix that
was made for one document is therefore taken by another, and a fix that was made for an earlier
content of a document by the present one (`Session.strange_fix_taken`).
-/

namespace DeclVisibility

namespace Service

variable {s : Service} {doc : Doc} {document : Document} {sub : Subtree} {fix : Fix}

/-- A fix for an element that is missing, written or nameless is not applied. -/
theorem apply_of_not_awaits (hopen : s.document? doc = some document)
    (readsAs : document.tree.ReadsAs sub) (h : ¬ document.tree.Awaits fix.decl) :
    (s.apply doc fix).outcome.value = .ok (none, s) := by
  by_cases hwritten : (document.tree.childElement? fix.decl .vis).isSome
  · exact apply_of_written hopen hwritten
  · have hunwritten : document.tree.childElement? fix.decl .vis = none := by
      simpa using hwritten
    have hprivate := (document.tree.isPrivate_visibilityOf fix.decl).mpr hunwritten
    have hnameless : ¬ (document.tree.childElement? fix.decl .name).isSome :=
      fun hnamed => h ⟨hunwritten, hnamed⟩
    rw [apply, hopen]
    simp only
    split
    · exact Attempt.value_bind_of_ok (Attempt.value_ofLogged _)
    · rename_i hreach
      have hheld : document.tree.holds (.element fix.decl) = true := by
        simp only [Bool.or_eq_true, not_or, Bool.not_eq_true, Bool.not_eq_false'] at hreach
        exact hreach.1
      -- the declaration is reached and private, so it is the missing name that stops the fix
      rcases Fix.invoke_cases readsAs hheld with ⟨-, hnone⟩ | ⟨hnamed, -⟩
      · simp only [Attempt.value_bind_of_ok (Attempt.value_ofLogged _), hprivate, Bool.not_true,
          Bool.false_eq_true, if_false, Attempt.value_bind_of_ok hnone, Attempt.value_pure]
      · exact absurd hnamed hnameless

end Service

namespace Session

variable {s : Session}

/-- Applying a fix, whatever it was made for, meets no fault unless the version is the largest. It
is taken exactly if the document is open and the element of its number is private and named there.
If it is not taken nothing changes, and no other document changes in any case. -/
theorem takes_iff_awaits (hs : s.Reached) (doc : Doc) (fix : Fix)
    (hversion : s.service.version? doc ≠ some Int64.maxValue) :
    ∃ told? service, (s.service.apply doc fix).outcome.value = .ok (told?, service) ∧
      (told?.isSome ↔
        ∃ document, s.service.document? doc = some document ∧ document.tree.Awaits fix.decl) ∧
      (told? = none → service = s.service) ∧
      ∀ other, other ≠ doc → service.document? other = s.service.document? other := by
  cases hopen : s.service.document? doc with
  | none =>
    refine ⟨none, s.service, ?_, ?_, fun _ => rfl, fun _ _ => rfl⟩
    · rw [Service.apply, hopen]
      rfl
    · simp
  | some document =>
    obtain ⟨sub, hsub⟩ := hs.wellMade doc document hopen
    by_cases hawaits : document.tree.Awaits fix.decl
    · have hnext : nextVersion document.version = .ok (document.version + 1) := by
        rw [nextVersion, if_neg]
        intro hmax
        apply hversion
        rw [Service.version?, hopen, Option.map_some, hmax]
      obtain ⟨edit, tree, w, happly, -⟩ := Service.apply_of_awaits hopen hsub hawaits hnext
      refine ⟨_, _, happly, ?_, fun hnone => absurd hnone (Option.some_ne_none _),
        ?_⟩
      · simpa using hawaits
      · intro other hother
        rw [Service.document?_withDocument, if_neg hother]
    · refine ⟨none, s.service, Service.apply_of_not_awaits hopen hsub hawaits, ?_, fun _ => rfl,
        fun _ _ => rfl⟩
      simpa using hawaits

/-! ## Fixes out of place -/

/-- A document of one private declaration of a kind, whose name is `f`. -/
def privateText (kind : ElementKind) : String :=
  "\x7b\"tree\":\x7b\"kind\":\"" ++ kind.label ++ "\",\"children\":[\x7b\"kind\":\"Name\"," ++
  "\"children\":[\x7b\"token\":\"Ident\",\"text\":\"f\"\x7d]\x7d]\x7d\x7d"

/-- A fix is asked for in the first document, and then a document is opened. -/
def strange (opened : Doc) : List Call :=
  [.openJson ⟨1⟩ 7 (privateText .fnItem), .setPackage ⟨1⟩ ⟨"app", .workspace⟩,
    .makePublic ⟨1⟩ "f" .pub, .openJson opened 3 (privateText .modItem)]

theorem strange_reached : ∃ (s : Session) (fix : Fix) (document : Document), s.Reached ∧
    s.offers = [fix] ∧ s.service.document? ⟨2⟩ = some document ∧ document.version = 3 ∧
    document.tree.Awaits fix.decl := by
  have heval : ((run (strange ⟨2⟩) .new).outcome.value.toOption.map fun reached =>
      (reached.2.offers, (reached.2.service.document? ⟨2⟩).any fun document =>
        document.version = 3 ∧ document.tree.childElement? ⟨1⟩ .vis = none ∧
          (document.tree.childElement? ⟨1⟩ .name).isSome)) =
      some ([⟨⟨1⟩, "Make `f` public", .pub⟩], true) := by decide +kernel
  obtain ⟨_, s, -, hs, hseen⟩ := exists_of_seen heval
  obtain ⟨hoffers, hdocument⟩ := Prod.mk.inj hseen
  obtain ⟨document, hopen, hdocument⟩ := (Option.any_eq_true _ _).mp hdocument
  obtain ⟨hversion, hvis, hname⟩ := of_decide_eq_true hdocument
  exact ⟨s, _, document, hs, hoffers, hopen, hversion, hvis, hname⟩

theorem takes_iff_awaits_sample : ∃ (s : Session) (fix : Fix) (told : Version × Edit)
    (service : Service), s.Reached ∧ s.offers = [fix] ∧
      s.service.version? ⟨2⟩ ≠ some Int64.maxValue ∧
      (s.service.apply ⟨2⟩ fix).outcome.value = .ok (some told, service) := by
  obtain ⟨s, fix, document, hreached, hoffers, hdocument, hversion, hawaits⟩ := strange_reached
  have hnotLast : s.service.version? ⟨2⟩ ≠ some Int64.maxValue := by
    rw [Service.version?, hdocument, Option.map_some, hversion]
    decide
  obtain ⟨told?, service, happly, hiff, -⟩ := takes_iff_awaits hreached ⟨2⟩ fix hnotLast
  obtain ⟨told, rfl⟩ := Option.isSome_iff_exists.mp (hiff.mpr ⟨document, hdocument, hawaits⟩)
  exact ⟨s, fix, told, service, hreached, hoffers, hnotLast, happly⟩

/-- The fix that was made for the function `f` is written into the module `f`, whether the module
was opened as a new content of the same document or as another one. -/
theorem strange_fix_taken : ([⟨1⟩, ⟨2⟩] : List Doc).map (fun opened =>
      (run (strange opened ++ [.apply opened 0]) .new).outcome.value.toOption.map (·.1)) =
    List.replicate 2 (some [.done, .done, .offered 0 ⟨⟨1⟩, "Make `f` public", .pub⟩, .done,
      .applied 3 ⟨.emptyAt .zero, "pub "⟩ "pub f"]) := by
  decide +kernel

end Session

end DeclVisibility
