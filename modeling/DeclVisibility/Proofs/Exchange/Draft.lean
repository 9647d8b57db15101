import DeclVisibility.Exchange.Document
import DeclVisibility.Proofs.Json.Depth

/-!
# Drafts as JSON texts and back

A draft that was written as a JSON text reads as itself, provided that its elements are nested at
most 63 deep (`readDraft_pretty`): each element takes two levels of the text, its own and that of
the list of its children, and a token one more, which makes the 127 that a reader goes down. A draft
that came with a document is nested no deeper (`nesting_of_readDocument`). There the list of
children may be left out, but the document itself takes a level.
-/

namespace DeclVisibility

namespace Draft

/-- Induction with one hypothesis for each child. -/
@[elab_as_elim, induction_eliminator]
theorem induction {motive : Draft → Prop} (token : ∀ kind text?, motive (.token kind text?))
    (element : ∀ kind children, (∀ d ∈ children, motive d) → motive (.element kind children)) :
    ∀ d, motive d
  | .token kind text? => token kind text?
  | .element kind children => element kind children fun d _ => induction token element d

mutual
/-- How many elements are nested in each other. -/
def nesting : Draft → Nat
  | token _ _ => 0
  | element _ children => nestingOfAll children + 1
/-- The most elements that are nested in each other in one of the drafts. -/
def nestingOfAll : List Draft → Nat
  | [] => 0
  | child :: rest => max child.nesting (nestingOfAll rest)
end

theorem nestingOfAll_le {n : Nat} : ∀ {ds : List Draft},
    nestingOfAll ds ≤ n ↔ ∀ d ∈ ds, d.nesting ≤ n
  | [] => by simp [nestingOfAll]
  | d :: rest => by rw [nestingOfAll, Nat.max_le, nestingOfAll_le, List.forall_mem_cons]

@[simp] theorem nesting_token (kind : TokenKind) (text? : Option String) :
    (token kind text?).nesting = 0 := by
  rw [nesting]

theorem nesting_element_le {n : Nat} {kind : ElementKind} {children : List Draft} :
    (element kind children).nesting ≤ n + 1 ↔ ∀ d ∈ children, d.nesting ≤ n := by
  rw [nesting, Nat.add_le_add_iff_right, nestingOfAll_le]

end Draft

namespace Exchange

open Json

/-! ## Writing -/

theorem valuesOfAll_eq : ∀ ds : List Draft, valuesOfAll ds = ds.map valueOf
  | [] => rfl
  | d :: rest => by rw [valuesOfAll, valuesOfAll_eq rest, List.map_cons]

theorem valueOf_element (kind : ElementKind) (children : List Draft) :
    valueOf (.element kind children) =
      .object [("kind", .string kind.label), ("children", .array (children.map valueOf))] := by
  rw [valueOf, valuesOfAll_eq]

theorem numberless_valueOf (d : Draft) : (valueOf d).Numberless := by
  induction d with
  | token kind text? =>
    cases text? with
    | none =>
      rw [valueOf]
      refine .object ?_
      simpa using Value.Numberless.string _
    | some text =>
      rw [valueOf]
      refine .object ?_
      simpa using ⟨Value.Numberless.string _, Value.Numberless.string _⟩
  | element kind children ih =>
    rw [valueOf_element]
    have hchildren : (Value.array (children.map valueOf)).Numberless := by
      refine .array fun v hv => ?_
      obtain ⟨d, hd, rfl⟩ := List.mem_map.mp hv
      exact ih d hd
    refine .object ?_
    simpa using ⟨Value.Numberless.string _, hchildren⟩

/-- An element takes two levels, and the innermost thing may be a token, which takes one. -/
theorem levels_valueOf (d : Draft) : (valueOf d).levels ≤ 2 * d.nesting + 1 := by
  induction d with
  | token kind text? =>
    cases text? <;> simp [valueOf, Value.levels, Value.levelsOfMembers]
  | element kind children ih =>
    have hchildren : (Value.array (children.map valueOf)).levels ≤
        2 * (Draft.nestingOfAll children) + 1 + 1 := by
      rw [Value.levels_array_le]
      intro v hv
      obtain ⟨d, hd, rfl⟩ := List.mem_map.mp hv
      have hle := Draft.nestingOfAll_le.mp (Nat.le_refl _) d hd
      have hlevels := ih d hd
      omega
    rw [valueOf_element, Value.levels_object_le, Draft.nesting]
    simp only [List.forall_mem_cons, List.not_mem_nil, false_implies, implies_true, and_true]
    exact ⟨by simp [Value.levels], by omega⟩

/-! ## Reading back -/

/-- What was written for a draft is read as the draft. -/
theorem draftOf?_valueOf (d : Draft) : draftOf? (valueOf d) = some d := by
  induction d with
  | token kind text? =>
    cases text? <;>
      simp [valueOf, draftOf?, tokenOf?, valuesOf, choice?, text?, TokenKind.ofLabel?_label]
  | element kind children ih =>
    have hall : draftsOfEach? (children.map valueOf) = some children := by
      induction children with
      | nil => rfl
      | cons c rest ihr =>
        rw [List.map_cons, draftsOfEach?, ih c List.mem_cons_self,
          ihr fun d hd => ih d (List.mem_cons_of_mem _ hd)]
    rw [valueOf_element, draftOf?]
    simp [tokenOf?, valuesOf, choice?, childLists, draftsOf?, hall, ElementKind.ofLabel?_label]

/-- What was written for a draft is read back from the front of a text. -/
theorem draft_prettyChars {d : Draft} {depth : Nat} (h : 2 * d.nesting + 1 ≤ depth)
    (rest : List Char) : draft depth ((valueOf d).prettyChars 0 ++ rest) = .ok (d, rest) := by
  have hroom := Nat.le_trans (levels_valueOf d) h
  rw [draft]
  simp only [value_prettyChars (numberless_valueOf d) hroom 0 rest, draftOf?_valueOf]

/-- A draft that is nested at most 63 deep is read back from its text. -/
theorem readDraft_pretty {d : Draft} (h : d.nesting ≤ 63) :
    readDraft (valueOf d).pretty = .ok d := by
  have hroom : 2 * d.nesting + 1 ≤ maxDepth := by
    rw [maxDepth]
    omega
  have hdraft := draft_prettyChars hroom []
  rw [List.append_nil] at hdraft
  rw [readDraft, whole, Value.pretty, String.toList_ofList, hdraft]
  rfl

/-- A draft as the text of a document without a package. -/
def documentText (d : Draft) : String := "\x7b\"tree\":" ++ (valueOf d).pretty ++ "\x7d"

theorem documentObject_tree {d : Draft} {depth : Nat} (h : 2 * d.nesting + 1 ≤ depth) :
    documentObject depth ("\"tree\":".toList ++ ((valueOf d).prettyChars 0 ++ ['\x7d'])) =
      .ok (⟨none, d⟩, []) := by
  have hdraft := draft_prettyChars h ['\x7d']
  generalize (valueOf d).prettyChars 0 ++ ['\x7d'] = cs at hdraft
  have hkey : nextKey true ("\"tree\":".toList ++ cs) = .ok (.entry ("tree\":".toList ++ cs)) := rfl
  have htext : readText ("tree\":".toList ++ cs) = .ok ("tree", ':' :: cs) := by
    simp [readText, readChars, Read.map, withFirst]
  have hcolon : colon (':' :: cs) = .ok ((), cs) := rfl
  have hmember : documentMember depth {} "tree" =
      .ok (Read.map (fun draft => { draft? := some draft }) (draft depth)) := rfl
  have hread : Read.map (fun draft => ({ draft? := some draft } : DocumentFields)) (draft depth) cs =
      .ok ({ draft? := some d }, ['\x7d']) := by
    rw [Read.map, hdraft]
  have hlast : nextKey false ['\x7d'] = .ok (.done []) := rfl
  have hlength : ("\"tree\":".toList ++ cs).length = (cs.length + 6) + 1 := by simp
  rw [documentObject, object, hlength]
  simp only [members, hkey, htext, hmember, hcolon, hread, hlast, Option.getD_none]

/-- A document takes a level of its own, so its draft may be nested at most 62 deep. -/
theorem readDocument_documentText {d : Draft} (h : d.nesting ≤ 62) :
    readDocument (documentText d) = .ok ⟨none, d⟩ := by
  have hobject : documentObject 126 _ = _ := documentObject_tree (d := d) (by omega)
  have hchars : (documentText d).toList =
      '\x7b' :: ("\"tree\":".toList ++ ((valueOf d).prettyChars 0 ++ ['\x7d'])) := by
    simp [documentText, Value.pretty]
  have hrecord : document maxDepth (documentText d).toList = .ok (⟨none, d⟩, []) := by
    rw [hchars]
    exact hobject
  rw [readDocument, whole, hrecord]
  rfl

/-! ## How deep a draft that was read is nested -/

theorem nesting_of_tokenOf? {members : List (String × Value)} {d : Draft}
    (h : tokenOf? members = some d) : d.nesting = 0 := by
  rw [tokenOf?] at h
  split at h
  · split at h
    · cases h
    · split at h
      · obtain rfl := Option.some.inj h
        rw [Draft.nesting_token]
      · obtain ⟨_, -, rfl⟩ := Option.map_eq_some_iff.mp h
        rw [Draft.nesting_token]
      · cases h
  · cases h

mutual
/-- An element with children takes two levels, and one without them a level at least. -/
theorem nesting_of_draftOf? : ∀ {v : Value} {d : Draft}, draftOf? v = some d →
    2 * d.nesting ≤ v.levels + 1
  | .object members, d, h => by
    rw [draftOf?] at h
    rw [Value.levels]
    split at h
    · rename_i token htoken
      obtain rfl := Option.some.inj h
      rw [nesting_of_tokenOf? htoken]
      omega
    · split at h
      · split at h
        · obtain rfl := Option.some.inj h
          rw [Draft.nesting, Draft.nestingOfAll]
          omega
        · rename_i kind children _ hlists
          obtain rfl := Option.some.inj h
          have hchildren : some children ∈ childLists members := by
            rw [hlists]
            exact List.mem_cons_self
          have hnesting : Draft.nestingOfAll children ≤ Value.levelsOfMembers members / 2 := by
            rw [Draft.nestingOfAll_le]
            intro d hd
            have hle := nesting_of_childLists hchildren d hd
            omega
          rw [Draft.nesting]
          omega
        · cases h
      · cases h
  | .null, _, h | .bool _, _, h | .number _, _, h | .string _, _, h | .array _, _, h => by
    cases h
theorem nesting_of_childLists : ∀ {members : List (String × Value)} {ds : List Draft},
    some ds ∈ childLists members → ∀ d ∈ ds, 2 * d.nesting ≤ Value.levelsOfMembers members
  | (key, value) :: rest, ds, h, d, hd => by
    rw [childLists] at h
    rw [Value.levelsOfMembers]
    split at h
    · rcases List.mem_cons.mp h with heq | h
      · exact Nat.le_trans (nesting_of_draftsOf? heq.symm d hd) (Nat.le_max_left _ _)
      · exact Nat.le_trans (nesting_of_childLists h d hd) (Nat.le_max_right _ _)
    · exact Nat.le_trans (nesting_of_childLists h d hd) (Nat.le_max_right _ _)
theorem nesting_of_draftsOf? : ∀ {v : Value} {ds : List Draft}, draftsOf? v = some ds →
    ∀ d ∈ ds, 2 * d.nesting ≤ v.levels
  | .array items, ds, h, d, hd => by
    rw [draftsOf?] at h
    have hle := nesting_of_draftsOfEach? h d hd
    rw [Value.levels]
    omega
  | .null, _, h, _, _ | .bool _, _, h, _, _ | .number _, _, h, _, _ | .string _, _, h, _, _
  | .object _, _, h, _, _ => by
    cases h
theorem nesting_of_draftsOfEach? : ∀ {items : List Value} {ds : List Draft},
    draftsOfEach? items = some ds → ∀ d ∈ ds, 2 * d.nesting ≤ Value.levelsOfItems items + 1
  | [], ds, h, d, hd => by
    obtain rfl := Option.some.inj h
    cases hd
  | item :: rest, ds, h, d, hd => by
    rw [draftsOfEach?] at h
    rw [Value.levelsOfItems]
    split at h
    · rename_i child others hchild hothers
      obtain rfl := Option.some.inj h
      rcases List.mem_cons.mp hd with rfl | hd
      · have hle := nesting_of_draftOf? hchild
        omega
      · have hle := nesting_of_draftsOfEach? hothers d hd
        omega
    · cases h
end

theorem nesting_of_draft {depth : Nat} {cs rest : List Char} {d : Draft}
    (h : draft depth cs = .ok (d, rest)) : 2 * d.nesting ≤ depth + 1 := by
  rw [draft] at h
  split at h
  · cases h
  · rename_i v _ hvalue
    split at h
    · rename_i found hfound
      obtain ⟨rfl, -⟩ := Prod.mk.inj (Except.ok.inj h)
      have hlevels := levels_of_value hvalue
      have hnesting := nesting_of_draftOf? hfound
      omega
    · cases h

theorem nesting_of_documentList {depth : Nat} {cs rest : List Char} {input : DocumentInput}
    (h : documentList depth cs = .ok (input, rest)) : 2 * input.draft.nesting ≤ depth + 1 := by
  rw [documentList] at h
  split at h
  · cases h
  · cases h
  · split at h
    · cases h
    · cases h
    · rename_i d _ hfield
      obtain ⟨_, -, rfl⟩ := Read.map_eq_ok.mp h
      rw [field] at hfield
      split at hfield
      · cases hfield
      · cases hfield
      · obtain ⟨found, hfound, heq⟩ := Read.map_eq_ok.mp hfield
        obtain rfl := Option.some.inj heq
        exact nesting_of_draft hfound

theorem nesting_of_documentObject {depth : Nat} {cs rest : List Char} {input : DocumentInput}
    (h : documentObject depth cs = .ok (input, rest)) : 2 * input.draft.nesting ≤ depth + 1 := by
  rw [documentObject] at h
  split at h
  · cases h
  · rename_i fields _ hfields
    split at h
    · rename_i d hd
      obtain ⟨rfl, -⟩ := Prod.mk.inj (Except.ok.inj h)
      refine inv_of_members (fun fields => ∀ d, fields.draft? = some d → 2 * d.nesting ≤ depth + 1)
        ?_ hfields (fun _ hnone => absurd hnone.symm (Option.some_ne_none _)) d hd
      intro before key read hplan hbefore cs after rest hread
      rw [documentMember] at hplan
      split at hplan
      · split at hplan
        · cases hplan
        · obtain rfl := Except.ok.inj hplan
          obtain ⟨_, -, rfl⟩ := Read.map_eq_ok.mp hread
          exact hbefore
      · split at hplan
        · split at hplan
          · cases hplan
          · obtain rfl := Except.ok.inj hplan
            obtain ⟨found, hfound, rfl⟩ := Read.map_eq_ok.mp hread
            intro d hd
            obtain rfl := Option.some.inj hd
            exact nesting_of_draft hfound
        · obtain rfl := Except.ok.inj hplan
          obtain ⟨_, -, rfl⟩ := Read.map_eq_ok.mp hread
          exact hbefore
    · cases h

/-- A draft that came with a document is nested at most 63 deep. -/
theorem nesting_of_readDocument {text : String} {input : DocumentInput}
    (h : readDocument text = .ok input) : input.draft.nesting ≤ 63 := by
  rw [readDocument, whole] at h
  split at h
  · cases h
  · rename_i found rest hread
    split at h
    · obtain rfl := Except.ok.inj h
      have hdepth : 2 * found.draft.nesting ≤ 126 + 1 := by
        rw [document, record] at hread
        split at hread
        · exact nesting_of_documentList hread
        · exact nesting_of_documentObject hread
        · exact absurd hread (misshapen_ne_ok _ _)
      omega
    · cases h

end Exchange

end DeclVisibility
