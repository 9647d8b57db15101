import DeclVisibility.Proofs.Exchange.Draft
import DeclVisibility.Proofs.Json.Bulk

/-!
# A document is shorter than the text that it was read from

A text that holds a document has two bytes more than the texts of all tokens of the document and
eleven for each of its elements (`bulk_of_readDocument`): a token takes up its own text, or where
this was left out the name of its kind, and an element the braces, the key of its kind and a name,
beside its children. So a document from a text of fewer bytes than the limit has a text of fewer
bytes, and room for a visibility of eleven bytes in every element.
-/

namespace DeclVisibility

namespace Draft

mutual
/-- The bytes of the texts of all tokens, and eleven for each element. -/
def bulk : Draft → Nat
  | token kind text? => (text?.getD (kind.spelling?.getD "")).utf8ByteSize
  | element _ children => bulkOfAll children + 11
/-- The bytes and elements of drafts that stand side by side. -/
def bulkOfAll : List Draft → Nat
  | [] => 0
  | child :: rest => child.bulk + bulkOfAll rest
end

end Draft

namespace Exchange

open Json

/-! ## Values -/

/-- The values of members with two different keys take up bytes of their own, and for one of the
keys the key does too. -/
theorem totalCost_valuesOf_le {key other : String} (hne : key ≠ other) :
    ∀ members : List (String × Value),
      totalCost (fun v => key.utf8ByteSize + 3 + v.bulk) (valuesOf key members) +
        totalCost Value.bulk (valuesOf other members) ≤ Value.bulkOfMembers members
  | [] => Nat.zero_le _
  | (name, value) :: rest => by
    have ih := totalCost_valuesOf_le hne rest
    rw [Value.bulkOfMembers]
    simp only [valuesOf, List.filter_cons] at ih ⊢
    by_cases hkey : name = key
    · subst hkey
      simp only [beq_self_eq_true, if_true, beq_iff_eq, hne, if_false, List.map_cons, totalCost]
      omega
    · by_cases hother : name = other
      · subst hother
        simp only [beq_self_eq_true, if_true, beq_iff_eq, hkey, if_false, List.map_cons, totalCost]
        omega
      · simp only [beq_iff_eq, hkey, hother, if_false]
        omega

/-- A name takes up two quotes at least. -/
theorem two_le_of_choice? {α : Type} {ofName? : String → Option α} {v : Value} {a : α}
    (h : choice? ofName? v = some a) : 2 ≤ v.bulk := by
  rw [choice?.eq_def] at h
  split at h
  · rw [Value.bulk]
    exact Nat.le_add_left 2 _
  · rw [Value.bulk]
    exact Nat.le_add_left 2 _
  · cases h

/-- No keyword and no mark is as long as what a token takes up beside its text. -/
theorem spelling_le (kind : TokenKind) : (kind.spelling?.getD "").utf8ByteSize ≤ 6 := by
  cases kind with
  | keyword word => cases word <;> decide
  | punct mark => cases mark <;> decide
  | _ => decide

theorem bulk_of_tokenOf? {members : List (String × Value)} {d : Draft}
    (h : tokenOf? members = some d) : d.bulk ≤ Value.bulkOfMembers members := by
  have hparts := totalCost_valuesOf_le (show "token" ≠ "text" by decide) members
  have hkey : "token".utf8ByteSize = 5 := rfl
  rw [tokenOf?] at h
  split at h
  · rename_i name hname
    rw [hname, totalCost, totalCost, hkey] at hparts
    split at h
    · cases h
    · rename_i kind hkind
      have hspelling := spelling_le kind
      split at h
      · obtain rfl := Option.some.inj h
        rw [Draft.bulk, Option.getD_none]
        omega
      · rename_i text htext
        obtain ⟨given?, hread, rfl⟩ := Option.map_eq_some_iff.mp h
        rw [htext, totalCost, totalCost] at hparts
        rw [Exchange.text?.eq_def] at hread
        split at hread
        · obtain rfl := Option.some.inj hread
          rw [Draft.bulk, Option.getD_none]
          omega
        · obtain rfl := Option.some.inj hread
          rw [Value.bulk] at hparts
          rw [Draft.bulk, Option.getD_some]
          omega
        · cases hread
      · cases h
  · cases h

mutual
/-- A draft takes up no more than the value that it was read from. -/
theorem bulk_of_draftOf? : ∀ {v : Value} {d : Draft}, draftOf? v = some d → d.bulk ≤ v.bulk
  | .object members, d, h => by
    rw [draftOf?] at h
    rw [Value.bulk]
    split at h
    · rename_i token htoken
      obtain rfl := Option.some.inj h
      exact Nat.le_trans (bulk_of_tokenOf? htoken) (Nat.le_add_right _ 2)
    · have hparts := totalCost_valuesOf_le (show "kind" ≠ "children" by decide) members
      have hkey : "kind".utf8ByteSize = 4 := rfl
      split at h
      · rename_i name hname
        rw [hname, totalCost, totalCost, hkey] at hparts
        split at h
        · rename_i kind hkind _
          have hname := two_le_of_choice? hkind
          obtain rfl := Option.some.inj h
          rw [Draft.bulk, Draft.bulkOfAll]
          omega
        · rename_i kind children hkind hlists
          have hname := two_le_of_choice? hkind
          obtain rfl := Option.some.inj h
          have hchildren := bulk_of_childLists hlists
          rw [Draft.bulk]
          omega
        · cases h
      · cases h
  | .null, _, h | .bool _, _, h | .number _, _, h | .string _, _, h | .array _, _, h => by
    cases h
theorem bulk_of_childLists : ∀ {members : List (String × Value)} {ds : List Draft},
    childLists members = [some ds] →
      Draft.bulkOfAll ds ≤ totalCost Value.bulk (valuesOf "children" members)
  | (key, value) :: rest, ds, h => by
    rw [childLists] at h
    rw [valuesOf, List.filter_cons]
    simp only [beq_iff_eq]
    split at h
    · rename_i hkey
      have hvalue := bulk_of_draftsOf? (List.cons.inj h).1
      rw [if_pos hkey, List.map_cons, totalCost]
      exact Nat.le_trans hvalue (Nat.le_add_right _ _)
    · rename_i hkey
      rw [if_neg hkey]
      exact bulk_of_childLists h
theorem bulk_of_draftsOf? : ∀ {v : Value} {ds : List Draft}, draftsOf? v = some ds →
    Draft.bulkOfAll ds ≤ v.bulk
  | .array items, ds, h => by
    rw [draftsOf?] at h
    rw [Value.bulk]
    exact Nat.le_trans (bulk_of_draftsOfEach? h) (Nat.le_add_right _ 2)
  | .null, _, h | .bool _, _, h | .number _, _, h | .string _, _, h | .object _, _, h => by
    cases h
theorem bulk_of_draftsOfEach? : ∀ {items : List Value} {ds : List Draft},
    draftsOfEach? items = some ds → Draft.bulkOfAll ds ≤ Value.bulkOfItems items
  | [], ds, h => by
    obtain rfl := Option.some.inj h
    exact Nat.zero_le _
  | item :: rest, ds, h => by
    rw [draftsOfEach?] at h
    rw [Value.bulkOfItems]
    split at h
    · rename_i child others hchild hothers
      obtain rfl := Option.some.inj h
      rw [Draft.bulkOfAll]
      exact Nat.add_le_add (bulk_of_draftOf? hchild) (bulk_of_draftsOfEach? hothers)
    · cases h
end

theorem spends_draft (depth : Nat) : (draft depth).Spends Draft.bulk := by
  intro cs d rest h
  rw [draft] at h
  split at h
  · cases h
  · rename_i v _ hvalue
    split at h
    · rename_i found hfound
      obtain ⟨rfl, rfl⟩ := Prod.mk.inj (Except.ok.inj h)
      exact Nat.le_trans (Nat.add_le_add_right (bulk_of_draftOf? hfound) _)
        (spends_value depth _ _ _ hvalue)
    · cases h

/-! ## Packages -/

theorem shrinks_originName : originName.Shrinks := by
  intro cs a rest h
  rw [originName] at h
  split at h
  · cases h
  · rename_i hname
    split at h
    · obtain ⟨-, rfl⟩ := Prod.mk.inj (Except.ok.inj h)
      exact spends_readText.shrinks _ _ _ hname
    · cases h

theorem shrinks_null : null.Shrinks := by
  intro cs a rest h
  rw [null] at h
  split at h
  · rename_i hskip
    have hfirst := byteCount_of_skipGap hskip
    have hword := shrinks_word _ _ _ _ h
    omega
  · exact absurd h (misshapen_ne_ok _ _)

theorem shrinks_originKey : originKey.Shrinks := by
  intro cs a rest h
  rw [originKey] at h
  split at h
  · cases h
  · rename_i hskip
    have hfirst := byteCount_of_skipGap hskip
    split at h
    · have hname := shrinks_originName _ _ _ h
      omega
    · cases h

theorem shrinks_originObject : originObject.Shrinks := by
  intro cs a rest h
  rw [originObject] at h
  split at h
  · cases h
  · rename_i hkey
    split at h
    · cases h
    · rename_i hcolon
      split at h
      · cases h
      · rename_i hnull
        split at h
        · cases h
        · rename_i hskip
          split at h
          · obtain ⟨-, rfl⟩ := Prod.mk.inj (Except.ok.inj h)
            have hkey := shrinks_originKey _ _ _ hkey
            have hcolon := spends_colon.shrinks _ _ _ hcolon
            have hnull := shrinks_null _ _ _ hnull
            have hlast := byteCount_of_skipGap hskip
            omega
          · cases h

theorem shrinks_origin (depth : Nat) : (origin depth).Shrinks := by
  intro cs a rest h
  rw [origin] at h
  split at h
  · cases h
  · rename_i hskip
    have hfirst := byteCount_of_skipGap hskip
    have hname := shrinks_originName _ _ _ h
    omega
  · rename_i hskip
    have hfirst := byteCount_of_skipGap hskip
    split at h
    · cases h
    · have hobject := shrinks_originObject _ _ _ h
      omega
  · cases h

theorem shrinks_packageList (depth : Nat) : (packageList depth).Shrinks := by
  intro cs a rest h
  rw [packageList] at h
  split at h
  · cases h
  · cases h
  · rename_i hname
    split at h
    · cases h
    · cases h
    · rename_i horigin
      have hname := shrinks_field shrinks_string _ _ _ _ hname
      have horigin := shrinks_field (shrinks_origin depth) _ _ _ _ horigin
      have hclose := spends_closeRecord.shrinks.map _ _ _ _ h
      omega

theorem shrinks_packageObject (depth : Nat) : (packageObject depth).Shrinks := by
  intro cs a rest h
  rw [packageObject] at h
  split at h
  · cases h
  · rename_i hfields
    split at h
    · obtain ⟨-, rfl⟩ := Prod.mk.inj (Except.ok.inj h)
      refine shrinks_object spends_readText.shrinks ?_ _ _ _ _ hfields
      intro fields key read hplan
      rw [packageMember] at hplan
      repeat' split at hplan
      all_goals cases hplan
      · exact shrinks_string.map _
      · exact (shrinks_origin depth).map _
      · exact shrinks_skipValue.map _
    · cases h

theorem shrinks_package (depth : Nat) : (package depth).Shrinks :=
  (spends_record (fun depth => (shrinks_packageList depth).spends)
    (fun depth => (shrinks_packageObject depth).spends) depth).shrinks

/-! ## Documents -/

/-- A document takes up its draft and the closing bracket. -/
theorem spends_documentList (depth : Nat) :
    (documentList depth).Spends fun input => input.draft.bulk + 1 := by
  intro cs input rest h
  show input.draft.bulk + 1 + byteCount rest ≤ byteCount cs
  rw [documentList] at h
  split at h
  · cases h
  · cases h
  · rename_i hpackage
    split at h
    · cases h
    · cases h
    · rename_i d _ hdraft
      obtain ⟨_, hclose, rfl⟩ := Read.map_eq_ok.mp h
      have hpackage := shrinks_field (shrinks_optional (shrinks_package depth)) _ _ _ _ hpackage
      have hdraft : d.bulk + byteCount _ ≤ byteCount _ :=
        spends_field (spends_draft depth) _ _ _ _ hdraft
      have hclose : 1 + byteCount rest ≤ byteCount _ := spends_closeRecord _ _ _ hclose
      show d.bulk + 1 + byteCount rest ≤ byteCount cs
      omega

/-- What the fields of a document met so far take up. -/
def DocumentFields.bulk (fields : DocumentFields) : Nat := (fields.draft?.map Draft.bulk).getD 0

theorem bulk_of_documentMember {depth : Nat} {fields after : DocumentFields} {key : String}
    {read : Read DocumentFields} (hplan : documentMember depth fields key = .ok read)
    {cs rest : List Char} (h : read cs = .ok (after, rest)) :
    after.bulk + byteCount rest ≤ fields.bulk + byteCount cs := by
  rw [documentMember] at hplan
  split at hplan
  · split at hplan
    · cases hplan
    · obtain rfl := Except.ok.inj hplan
      obtain ⟨_, hpackage, rfl⟩ := Read.map_eq_ok.mp h
      exact Nat.add_le_add_left (shrinks_optional (shrinks_package depth) _ _ _ hpackage) _
  · split at hplan
    · split at hplan
      · cases hplan
      · obtain rfl := Except.ok.inj hplan
        obtain ⟨d, hdraft, rfl⟩ := Read.map_eq_ok.mp h
        have hle := spends_draft depth _ _ _ hdraft
        show d.bulk + byteCount rest ≤ fields.bulk + byteCount cs
        omega
    · obtain rfl := Except.ok.inj hplan
      obtain ⟨_, hskip, rfl⟩ := Read.map_eq_ok.mp h
      exact Nat.add_le_add_left (shrinks_skipValue _ _ _ hskip) _

theorem spends_documentObject (depth : Nat) :
    (documentObject depth).Spends fun input => input.draft.bulk + 1 := by
  intro cs input rest h
  rw [documentObject] at h
  split at h
  · cases h
  · rename_i fields left hfields
    split at h
    · rename_i d hd
      obtain ⟨rfl, rfl⟩ := Prod.mk.inj (Except.ok.inj h)
      have hle := size_of_object DocumentFields.bulk spends_readText ?_ hfields
      · have hbulk : fields.bulk = d.bulk := by rw [DocumentFields.bulk, hd]; rfl
        have hempty : DocumentFields.bulk {} = 0 := rfl
        show d.bulk + 1 + byteCount left ≤ byteCount cs
        omega
      · intro fields key read hplan cs after rest hread
        have hmember := bulk_of_documentMember hplan hread
        omega
    · cases h

/-- A document has fewer bytes than the text that it was read from, and for each of its elements
eleven bytes less. -/
theorem bulk_of_readDocument {text : String} {input : DocumentInput}
    (h : readDocument text = .ok input) : input.draft.bulk + 2 ≤ text.utf8ByteSize :=
  cost_le_of_whole (spends_record spends_documentList spends_documentObject maxDepth) h

end Exchange

end DeclVisibility
