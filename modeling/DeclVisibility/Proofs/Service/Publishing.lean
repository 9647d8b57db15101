import DeclVisibility.Proofs.Fix.Published
import DeclVisibility.Proofs.Service.Belonging

/-!
# What a fix does to an open document

Every open document is one nested value, so a fix for a declaration in it that has a name always
writes, and what it writes is the only change (`Session.publishes`). This asks for nothing else: not
that the fix was offered, that the declaration carries a visibility, or that it is private. Without
a name nothing is written, and the service is left as it was.
-/

namespace DeclVisibility.Session

variable {s : Session}

/-- A fix for a declaration that is reached in an open document writes its visibility if the
declaration has a name, and changes nothing else; without a name it changes nothing. -/
theorem publishes (hs : s.Reached) {doc : Doc} {document : Document}
    (hopen : s.service.document? doc = some document) (fix : Fix)
    (reached : document.tree.Reaches (.element fix.decl)) :
    ((document.tree.childElement? fix.decl .name).isSome → ∃ edit t' w,
      (fix.invoke document.tree).outcome.value = .ok (some (edit, t')) ∧
      fix.Published document.tree t' w) ∧
    (document.tree.childElement? fix.decl .name = none →
      (fix.invoke document.tree).outcome.value = .ok none ∧
      (s.service.apply doc fix).outcome.value = .ok (none, s.service)) := by
  obtain ⟨sub, readsAs⟩ := hs.wellMade doc document hopen
  constructor
  · intro named
    obtain ⟨w, t', before, after, hinserts, hinvoke, -⟩ := fix.invoke_of_named readsAs named
    exact ⟨_, t', w, hinvoke, hinserts.published readsAs⟩
  · intro nameless
    have notNamed : ¬ (document.tree.childElement? fix.decl .name).isSome := by simp [nameless]
    refine ⟨?_, Service.apply_of_not_awaits hopen readsAs fun awaits => notNamed awaits.named⟩
    rcases Fix.invoke_cases readsAs (readsAs.reaches_iff.mp reached) with ⟨-, hnone⟩ | ⟨named, -⟩
    · exact hnone
    · exact absurd named notNamed

/-- A document with a function that has an attribute, a comment and a modifier before its name, and
with an implementation, which has no name. -/
def modifiedText : String :=
  "\x7b\"tree\":\x7b\"kind\":\"SourceFile\",\"children\":[\x7b\"kind\":\"FnItem\",\"children\":[" ++
  "\x7b\"kind\":\"Attr\"\x7d,\x7b\"token\":\"Comment\",\"text\":\"/**/\"\x7d," ++
  "\x7b\"token\":\"Unsafe\"\x7d,\x7b\"token\":\"Space\",\"text\":\" \"\x7d," ++
  "\x7b\"kind\":\"Name\",\"children\":[\x7b\"token\":\"Ident\",\"text\":\"f\"\x7d]\x7d]\x7d," ++
  "\x7b\"kind\":\"ImplItem\"\x7d]\x7d\x7d"

/-- The visibility goes before the modifier. The implementation is left alone. -/
theorem publishes_sample : ∃ (s : Session) (document : Document), s.Reached ∧
    s.service.document? ⟨1⟩ = some document ∧
    document.tree.Reaches (.element ⟨2⟩) ∧ document.tree.Reaches (.element ⟨3⟩) ∧
    document.tree.children ⟨2⟩ =
      [.element ⟨0⟩, .token ⟨0⟩, .token ⟨1⟩, .token ⟨2⟩, .element ⟨1⟩] ∧
    document.tree.publishIndex ⟨2⟩ = 2 ∧
    (∃ edit t' w, (Fix.invoke ⟨⟨2⟩, "", .crateOnly⟩ document.tree).outcome.value =
        .ok (some (edit, t')) ∧ Fix.Published ⟨⟨2⟩, "", .crateOnly⟩ document.tree t' w) ∧
    (Fix.invoke ⟨⟨3⟩, "", .pub⟩ document.tree).outcome.value = .ok none := by
  have heval : ((run [.openJson ⟨1⟩ 7 modifiedText] .new).outcome.value.toOption.map fun last =>
      (last.2.service.document? ⟨1⟩).any fun document =>
        document.tree.follow? (.element document.tree.root) [0] = some (.element ⟨2⟩) ∧
        document.tree.follow? (.element document.tree.root) [1] = some (.element ⟨3⟩) ∧
        document.tree.children ⟨2⟩ =
          [.element ⟨0⟩, .token ⟨0⟩, .token ⟨1⟩, .token ⟨2⟩, .element ⟨1⟩] ∧
        document.tree.publishIndex ⟨2⟩ = 2 ∧
        (document.tree.childElement? ⟨2⟩ .name).isSome ∧
        document.tree.childElement? ⟨3⟩ .name = none) = some true := by decide +kernel
  obtain ⟨_, s, -, hs, hseen⟩ := exists_of_seen heval
  obtain ⟨document, hopen, hdocument⟩ := (Option.any_eq_true _ _).mp hseen
  obtain ⟨hfunction, himpl, hchildren, hindex, named, nameless⟩ := of_decide_eq_true hdocument
  have hwritten := (publishes hs hopen ⟨⟨2⟩, "", .crateOnly⟩ ⟨[0], hfunction⟩).1 named
  have hleft := (publishes hs hopen ⟨⟨3⟩, "", .pub⟩ ⟨[1], himpl⟩).2 nameless
  exact ⟨s, document, hs, hopen, ⟨[0], hfunction⟩, ⟨[1], himpl⟩, hchildren, hindex, hwritten,
    hleft.1⟩

end DeclVisibility.Session
