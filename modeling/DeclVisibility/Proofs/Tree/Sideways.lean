import DeclVisibility.Proofs.Exchange.Loading
import DeclVisibility.Proofs.Tree.Siblings
import Mathlib.Data.List.Induction

/-!
# Steps from sibling to sibling

No node holds its place. Each step finds it again as the first place in the parent's child list at
which the node stands, and where links agree that is its only place, so a step back and a step on
lead to the neighbours in the list (`Forest.StepsFrom`), and a broken link is never reported. The
search for a node that carries meaning is a loop of steps back (`Forest.SeeksBack`); each leaves one
child less before, so it comes to an end (`Forest.Linked.seeksBack`), and so does repeating the
search (`Forest.Linked.repeats_prevMeaningful`).
-/

namespace DeclVisibility

theorem Logged.pure_inj {α : Type} {a b : α} (h : (pure a : Logged α) = pure b) : a = b :=
  congrArg Logged.value h

/-- Repeating a step, without a report, gives these nodes and then no more. -/
inductive Repeats (step : NodeId → Logged (Option NodeId)) : NodeId → List NodeId → Prop
  | stop {node : NodeId} (last : step node = pure none) : Repeats step node []
  | next {node other : NodeId} {rest : List NodeId} (first : step node = pure (some other))
      (more : Repeats step other rest) : Repeats step node (other :: rest)

theorem Repeats.unique {step : NodeId → Logged (Option NodeId)} {node : NodeId}
    {listed listed' : List NodeId} (h : Repeats step node listed) (h' : Repeats step node listed') :
    listed = listed' := by
  induction h generalizing listed' with
  | stop last =>
    cases h' with
    | stop _ => rfl
    | next first _ => cases Logged.pure_inj (last.symm.trans first)
  | next first _ ih =>
    cases h' with
    | stop last => cases Logged.pure_inj (last.symm.trans first)
    | next first' more' =>
      obtain rfl := Option.some.inj (Logged.pure_inj (first.symm.trans first'))
      rw [ih more']

namespace Forest

variable {f : Forest} {parent : ElementId} {before after : List NodeId} {node : NodeId} {n : Nat}

/-- The loop that goes back from a node until it meets one that is no trivia ends, without a report,
with this node or with none. -/
inductive SeeksBack (f : Forest) : NodeId → Option NodeId → Prop
  | none {node : NodeId} (stop : f.prevSibling node = pure none) : SeeksBack f node none
  | found {node other : NodeId} (step : f.prevSibling node = pure (some other))
      (meant : f.isTrivia other = false) : SeeksBack f node (some other)
  | over {node other : NodeId} {found? : Option NodeId}
      (step : f.prevSibling node = pure (some other)) (trivia : f.isTrivia other = true)
      (more : SeeksBack f other found?) : SeeksBack f node found?

/-- Whether this is the child at the largest index below a place that is no trivia, or there is
none. -/
def NearestBefore (f : Forest) (parent : ElementId) (n : Nat) : Option NodeId → Prop
  | some found => ∃ m < n, (f.children parent)[m]? = some found ∧ f.isTrivia found = false ∧
      ∀ k child, m < k → k < n → (f.children parent)[k]? = some child → f.isTrivia child = true
  | none => ∀ k child, k < n → (f.children parent)[k]? = some child → f.isTrivia child = true

/-- The children before a place that carry meaning. -/
def meaningfulBefore (f : Forest) (parent : ElementId) (n : Nat) : List NodeId :=
  ((f.children parent).take n).filter fun child => !f.isTrivia child

/-- Where the steps from a child lead. None of them makes a report. -/
structure StepsFrom (f : Forest) (parent : ElementId) (n : Nat) (node : NodeId) : Prop where
  prev : f.prevSibling node = pure (if n = 0 then none else (f.children parent)[n - 1]?)
  next : f.nextSibling node = pure (f.children parent)[n + 1]?
  next_of_prev : ∀ other, f.prevSibling node = pure (some other) →
    f.nextSibling other = pure (some node)
  prev_of_next : ∀ other, f.nextSibling node = pure (some other) →
    f.prevSibling other = pure (some node)
  nearest : ∃ found?, f.SeeksBack node found? ∧ f.prevMeaningful node = pure found? ∧
    f.NearestBefore parent n found?
  repeated : ∀ listed, Repeats f.prevMeaningful node listed ↔
    listed = (f.meaningfulBefore parent n).reverse
  once : (f.meaningfulBefore parent n).Nodup

namespace Linked

/-! ## One step -/

section Placed
variable (h : f.Linked) (placed : (f.children parent)[n]? = some node)
include h placed

theorem prevSibling_placed :
    f.prevSibling node = pure (if n = 0 then none else (f.children parent)[n - 1]?) := by
  obtain ⟨before, after, listed, rfl⟩ := exists_split_of_getElem? placed
  rw [Forest.prevSibling, h.placeInParent? listed, pure_bind]
  cases before.length <;> rfl

theorem nextSibling_placed : f.nextSibling node = pure (f.children parent)[n + 1]? := by
  obtain ⟨before, after, listed, rfl⟩ := exists_split_of_getElem? placed
  rw [Forest.nextSibling, h.placeInParent? listed, pure_bind]

theorem nextSibling_of_prevSibling {other : NodeId} (step : f.prevSibling node = pure (some other)) :
    f.nextSibling other = pure (some node) := by
  rw [h.prevSibling_placed placed] at step
  have hother := Logged.pure_inj step
  split at hother
  · cases hother
  · rename_i hn
    rw [h.nextSibling_placed hother, Nat.sub_add_cancel (Nat.pos_of_ne_zero hn), placed]

theorem prevSibling_of_nextSibling {other : NodeId} (step : f.nextSibling node = pure (some other)) :
    f.prevSibling other = pure (some node) := by
  rw [h.nextSibling_placed placed] at step
  rw [h.prevSibling_placed (Logged.pure_inj step), if_neg (Nat.succ_ne_zero n), Nat.add_sub_cancel,
    placed]

end Placed

/-! ## Steps over trivia -/

/-- The loop ends with the last of the children before that are no trivia. -/
theorem seeksBack (h : f.Linked) (listed : f.children parent = before ++ node :: after) :
    f.SeeksBack node (before.filter fun child => !f.isTrivia child).getLast? := by
  induction before using List.reverseRecOn generalizing node after with
  | nil => exact .none (h.prevSibling listed)
  | append_singleton front last ih =>
    have hstep := h.prevSibling listed
    rw [List.getLast?_concat] at hstep
    rw [List.append_assoc, List.singleton_append] at listed
    cases htrivia : f.isTrivia last with
    | false =>
      rw [List.filter_append, List.filter_cons_of_pos (by simp [htrivia]), List.filter_nil,
        List.getLast?_concat]
      exact .found hstep htrivia
    | true =>
      rw [List.filter_append, List.filter_cons_of_neg (by simp [htrivia]), List.filter_nil,
        List.append_nil]
      exact .over hstep htrivia (ih listed)

/-- It is the nearest one. -/
theorem nearestBefore (listed : f.children parent = before ++ node :: after) :
    f.NearestBefore parent before.length
      (before.filter fun child => !f.isTrivia child).getLast? := by
  have hin : ∀ {k child}, k < before.length → (f.children parent)[k]? = some child →
      before[k]? = some child := by
    intro k child hk hchild
    rwa [listed, List.getElem?_append_left hk] at hchild
  cases hlast : (before.filter fun child => !f.isTrivia child).getLast? with
  | none =>
    intro k child hk hchild
    rw [List.getLast?_eq_none_iff, List.filter_eq_nil_iff] at hlast
    simpa using hlast child (List.mem_of_getElem? (hin hk hchild))
  | some found =>
    obtain ⟨front, gap, rfl, meant, trivia⟩ := exists_split_of_getLast? hlast
    refine ⟨front.length, by simp, by simp [listed], meant, ?_⟩
    intro k child hlt hk hchild
    have hchild := hin hk hchild
    rw [List.getElem?_append_right (Nat.le_of_lt hlt)] at hchild
    obtain ⟨j, hj⟩ : ∃ j, k - front.length = j + 1 := ⟨k - front.length - 1, by omega⟩
    rw [hj, List.getElem?_cons_succ] at hchild
    exact trivia child (List.mem_of_getElem? hchild)

/-- Each round of the search goes on from what the last one found, before which fewer children
are left. -/
theorem repeats_prevMeaningful (h : f.Linked) (listed : f.children parent = before ++ node :: after) :
    Repeats f.prevMeaningful node (before.filter fun child => !f.isTrivia child).reverse := by
  induction hlength : before.length using Nat.strongRecOn generalizing before node after with
  | ind length ih =>
    have hstep := h.prevMeaningful listed
    cases hlast : (before.filter fun child => !f.isTrivia child).getLast? with
    | none =>
      rw [hlast] at hstep
      rw [List.getLast?_eq_none_iff.mp hlast]
      exact .stop hstep
    | some found =>
      rw [hlast] at hstep
      obtain ⟨front, gap, rfl, meant, trivia⟩ := exists_split_of_getLast? hlast
      have hgap : gap.filter (fun child => !f.isTrivia child) = [] :=
        List.filter_eq_nil_iff.mpr fun child hchild => by simp [trivia child hchild]
      have hfront : front.length < length := by
        rw [← hlength, List.length_append, List.length_cons]
        omega
      rw [List.append_assoc, List.cons_append] at listed
      rw [List.filter_append, List.filter_cons_of_pos (by simp [meant]), hgap, List.reverse_append]
      exact .next hstep (ih front.length hfront listed rfl)

/-! ## All steps -/

/-- A node that hangs in an element stands at one place in its list of children. From there the
steps back and on lead to the neighbours, the search over trivia ends with the nearest child that is
none, and repeating it lists all of these from right to left. -/
theorem stepsFrom (h : f.Linked) (attached : f.parent? node = some parent) :
    ∃ n, (f.children parent)[n]? = some node ∧
      (∀ m, (f.children parent)[m]? = some node → m = n) ∧ f.StepsFrom parent n node := by
  obtain ⟨n, placed⟩ := List.mem_iff_getElem?.mp (h.mem_children_iff.mpr attached)
  obtain ⟨before, after, listed, rfl⟩ := exists_split_of_getElem? placed
  have hbefore : f.meaningfulBefore parent before.length =
      before.filter fun child => !f.isTrivia child := by
    rw [meaningfulBefore, listed, List.take_left]
  have hrepeats := h.repeats_prevMeaningful listed
  have hnodup := h.nodup_children parent
  rw [← hbefore] at hrepeats
  refine ⟨before.length, placed, fun m hm => ?_, ?_⟩
  · obtain ⟨hlt, -⟩ := List.getElem?_eq_some_iff.mp hm
    exact (List.getElem?_inj hlt hnodup).mp (hm.trans placed.symm)
  · exact
      { prev := h.prevSibling_placed placed
        next := h.nextSibling_placed placed
        next_of_prev := fun _ step => h.nextSibling_of_prevSibling placed step
        prev_of_next := fun _ step => h.prevSibling_of_nextSibling placed step
        nearest := ⟨_, h.seeksBack listed, h.prevMeaningful listed, nearestBefore listed⟩
        repeated := fun listing => ⟨fun h => h.unique hrepeats, fun h => h ▸ hrepeats⟩
        once := (hnodup.sublist (List.take_sublist _ _)).filter _ }

end Linked

end Forest

/-- A function with a modifier, and a comment between blanks before its name. -/
def Draft.commented : Draft :=
  .element .fnItem [.token (.keyword .unsafeKw) none, .token .space (some " "),
    .token (.keyword .fnKw) none, .token .space (some " "), .token .comment (some "/**/"),
    .element .name [.token .ident (some "f")]]

/-- From the name, which is the last child, the search over trivia leads to the word that says it is
a function, and from there to the modifier. -/
theorem Forest.Linked.stepsFrom_sample : ∃ t : Tree, Draft.commented.load = .ok (.ok t) ∧
    t.Linked ∧ t.parent? (.element ⟨0⟩) = some ⟨1⟩ ∧ t.StepsFrom ⟨1⟩ 5 (.element ⟨0⟩) ∧
    Repeats t.prevMeaningful (.element ⟨0⟩) [.token ⟨2⟩, .token ⟨0⟩] := by
  have hload : ∃ t : Tree, Draft.commented.load = .ok (.ok t) ∧
      decide (t.parent? (.element ⟨0⟩) = some ⟨1⟩ ∧
        (t.children ⟨1⟩)[5]? = some (.element ⟨0⟩) ∧
        t.meaningfulBefore ⟨1⟩ 5 = [.token ⟨0⟩, .token ⟨2⟩]) = true :=
    Draft.exists_loaded (by decide +kernel)
  obtain ⟨t, hload, hseen⟩ := hload
  obtain ⟨attached, placed, hmeaningful⟩ := of_decide_eq_true hseen
  obtain ⟨s, hreads⟩ := Draft.readsAs_of_load hload
  have linked := hreads.madeOf.linked
  obtain ⟨n, -, unique, steps⟩ := linked.stepsFrom attached
  obtain rfl := unique 5 placed
  exact ⟨t, hload, linked, attached, steps, (steps.repeated _).mpr (by rw [hmeaningful]; rfl)⟩

end DeclVisibility
