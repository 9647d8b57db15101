import DeclVisibility.Outline
import DeclVisibility.Proofs.Outline.Symbols

/-!
# An outline lists the symbols

The entries of an outline are those of the symbols below the root, in text order, each as deep as
there are symbols around it (`Tree.ReadsAs.outlineEntries_listed`). The nesting is lost in the list
but for the depths, and can be read back from them: what is around an entry is the nearest earlier
one that is less deep, and what is around that (`around`, `Subtree.readable_symbols`).
-/

namespace DeclVisibility

/-! ## Reading a nesting from depths -/

/-- What is around a place of a listing, from the inside out: of the entries before it, the nearest
first, the nearest one that is less deep, and what is around that one. -/
def around {α : Type} (depth : α → Nat) : List α → Nat → List α
  | [], _ => []
  | entry :: before, d =>
    if depth entry < d then entry :: around depth before (depth entry) else around depth before d

example : around id [1, 1, 0, 2, 1, 0] 2 = [1, 0] := by decide

section Around
variable {α β : Type} (depth : α → Nat)

theorem around_map (f : β → α) (before : List β) (d : Nat) :
    around depth (before.map f) d = (around (depth ∘ f) before d).map f := by
  induction before generalizing d with
  | nil => rfl
  | cons entry before ih =>
    rw [List.map_cons, around, around, ih, ih, Function.comp_apply]
    split <;> rfl

/-- Entries that are as deep or deeper are not around a place. -/
theorem around_append (before : List α) {nearer : List α} {d : Nat}
    (h : ∀ entry ∈ nearer, d ≤ depth entry) :
    around depth (nearer ++ before) d = around depth before d := by
  induction nearer with
  | nil => rfl
  | cons entry nearer ih =>
    have hentry := h entry List.mem_cons_self
    rw [List.cons_append, around, if_neg (by omega),
      ih fun other hother => h other (List.mem_cons_of_mem _ hother)]

end Around

namespace Subtree

/-- How deep a symbol is: the number of symbols around it. -/
def symbolDepth (x : ElementId × List ElementId) : Nat := x.2.length

/-- What the depths of the symbols before a place say is around it. -/
def readAround (before : List (ElementId × List ElementId)) (d : Nat) : List ElementId :=
  (around symbolDepth before d).map Prod.fst

/-- Behind these symbols, the nearest first, every symbol of a listing has around it what the depths
say. -/
def Readable : List (ElementId × List ElementId) → List (ElementId × List ElementId) → Prop
  | _, [] => True
  | before, x :: rest => readAround before x.2.length = x.2 ∧ Readable (x :: before) rest

variable {before first second : List (ElementId × List ElementId)}

theorem readable_append :
    Readable before (first ++ second) ↔
      Readable before first ∧ Readable (first.reverse ++ before) second := by
  induction first generalizing before with
  | nil => simp [Readable]
  | cons x first ih =>
    rw [List.cons_append, Readable, Readable, ih, List.reverse_cons, List.append_assoc,
      List.singleton_append, and_assoc]

theorem Readable.readAround {x : ElementId × List ElementId}
    (h : Readable before (first ++ x :: second)) :
    readAround (first.reverse ++ before) x.2.length = x.2 :=
  (readable_append.mp h).2.1

/-- The symbols of a subtree are readable behind symbols whose depths say what is around the
subtree, and they leave that readable. -/
theorem readable_symbols {s : Subtree} : ∀ {chain : List ElementId}
    {before : List (ElementId × List ElementId)}, readAround before chain.length = chain →
    Readable before (s.symbols chain) ∧
      readAround ((s.symbols chain).reverse ++ before) chain.length = chain := by
  induction s with
  | token leaf =>
    intro chain before h
    rw [symbols_token]
    exact ⟨trivial, h⟩
  | element id kind children ih =>
    -- children stand behind one another, each behind the symbols of those before it
    have hall : ∀ {chain : List ElementId} {before : List (ElementId × List ElementId)},
        readAround before chain.length = chain →
        Readable before (children.flatMap (symbols chain)) ∧
          readAround ((children.flatMap (symbols chain)).reverse ++ before) chain.length =
            chain := by
      induction children with
      | nil => exact fun h => ⟨trivial, h⟩
      | cons c rest ihr =>
        intro chain before h
        obtain ⟨hc, hafter⟩ := ih c List.mem_cons_self h
        obtain ⟨hrest, hend⟩ := ihr (fun s hs => ih s (List.mem_cons_of_mem c hs)) hafter
        rw [List.flatMap_cons, readable_append, List.reverse_append, List.append_assoc]
        exact ⟨⟨hc, hrest⟩, hend⟩
    intro chain before h
    cases hkind : SymbolKind.ofElementKind? kind with
    | none =>
      rw [symbols_of_none hkind]
      exact hall h
    | some symbol =>
      rw [symbols_of_some hkind, Readable, List.reverse_cons, List.append_assoc,
        List.singleton_append]
      have hinside : readAround ((id, chain) :: before) (id :: chain).length = id :: chain := by
        have hless : symbolDepth (id, chain) < (id :: chain).length := Nat.lt_succ_self _
        rw [readAround, around, if_pos hless, List.map_cons]
        exact congrArg _ h
      refine ⟨⟨h, (hall hinside).1⟩, ?_⟩
      -- what is inside the symbol is deeper than the chain, and so is the symbol no part of it
      have hskip : ∀ x ∈ (children.flatMap (symbols (id :: chain))).reverse ++ [(id, chain)],
          chain.length ≤ symbolDepth x := by
        intro x hx
        rw [List.mem_append, List.mem_reverse, List.mem_singleton] at hx
        rcases hx with hx | rfl
        · obtain ⟨c, -, hx⟩ := List.mem_flatMap.mp hx
          exact Nat.le_of_succ_le (le_length_symbols x hx)
        · exact Nat.le_refl _
      have hskipped := around_append symbolDepth before hskip
      rw [List.append_assoc, List.singleton_append] at hskipped
      rw [readAround, hskipped]
      exact h

end Subtree

/-! ## The entries -/

/-- The symbols below the top of a subtree. -/
def Subtree.listed : Subtree → List (ElementId × List ElementId)
  | token _ => []
  | element _ _ children => children.flatMap (symbols [])

/-- A method is the function that it was found for. -/
theorem Forest.method_eq {f : Forest} {id : ElementId} {m : Method} (h : f.method? id = some m) :
    m = ⟨id⟩ := by
  rw [method?] at h
  split at h
  · split at h
    · cases h
    · split at h
      · split at h
        · cases h
        · exact (Option.some.inj (Option.ite_none_right_eq_some.mp h).2).symm
      · cases h
  · cases h

theorem Forest.mem_methodDeclarations {f : Forest} {m : Method} {param : ElementId}
    (h : param ∈ f.methodDeclarations m) :
    ∃ params, f.methodParams? m = some params ∧ param ∈ f.childElements params .param := by
  rw [methodDeclarations] at h
  cases hparams : f.methodParams? m with
  | none =>
    rw [hparams] at h
    cases h
  | some params =>
    rw [hparams] at h
    exact ⟨params, rfl, h⟩

namespace Tree

variable {t : Tree} {s : Subtree} {origin? : Option Origin}

/-- A method is shown as one, with the mark of its own visibility; other declarations are shown by
their sorts and the visibility that is told. -/
theorem value_presentationOf (t : Tree) (decl : ElementId) (kind : SymbolKind)
    (visibility : Visibility) : (t.presentationOf decl kind visibility).value =
      match t.method? decl with
      | some m => ⟨.method, t.isStaticMethod m, some (Mark.of (t.visibilityOf m.function).value)⟩
      | none => ⟨kind, false, if kind = .impl then none else some (Mark.of visibility)⟩ := by
  rw [presentationOf]
  cases t.method? decl with
  | none => rfl
  | some m =>
    have hmark : (if (!(t.visibilityOf m.function).value.isPrivate) = true then Mark.pub
        else Mark.priv) = Mark.of (t.visibilityOf m.function).value := by
      rw [Mark.of]
      cases (t.visibilityOf m.function).value.isPrivate <;> rfl
    exact congrArg (fun mark => (⟨.method, t.isStaticMethod m, some mark⟩ : Presentation)) hmark

/-- The entry of an element that declares a symbol and can be reached from the root. -/
def entry (t : Tree) (origin? : Option Origin) (x : ElementId × List ElementId) : OutlineEntry :=
  (t.outlineEntry origin? x.1 ((t.symbolKind? x.1).getD .function) x.2.length
    ((t.offsetOf? (.element x.1)).getD .zero)).value

variable {x : ElementId × List ElementId}

theorem presentation_entry (t : Tree) (origin? : Option Origin) (x : ElementId × List ElementId) :
    (t.entry origin? x).item.presentation = (t.presentationOf x.1
      ((t.symbolKind? x.1).getD .function) (t.visibilityOf x.1).value).value :=
  rfl

/-- An implementation, and nothing else, is shown as one. -/
theorem kind_entry (h : (t.symbolKind? x.1).isSome) :
    (t.entry origin? x).item.presentation.kind = .impl ↔ t.symbolKind? x.1 = some .impl := by
  obtain ⟨symbol, hsymbol⟩ := Option.isSome_iff_exists.mp h
  rw [presentation_entry, hsymbol, Option.getD_some, presentationOf]
  cases hmethod : t.method? x.1 with
  | none => simp
  | some m =>
    -- a method is a function, so it is no implementation
    have hfunction : t.elementKind? x.1 = some .fnItem := by
      rw [Forest.method?] at hmethod
      split at hmethod
      · assumption
      · cases hmethod
    have hsame : some symbol = some SymbolKind.function := by
      rw [← hsymbol, Forest.symbolKind?, hfunction]
      rfl
    have hshown : (t.methodPresentation m true).value.kind = .method := rfl
    rw [Option.some.inj hsame, hshown]
    simp

/-- The entries of subtrees that stand side by side, given those of each of them. -/
theorem collectAll_eq {depth : Nat} {symbols : Subtree → List (ElementId × List ElementId)}
    {ss : List Subtree} (h : ∀ c ∈ ss,
      (t.collect origin? depth c).value = (symbols c).map (t.entry origin?)) :
    (t.collectAll origin? depth ss).value = (ss.flatMap symbols).map (t.entry origin?) := by
  induction ss with
  | nil => rfl
  | cons c rest ih =>
    rw [collectAll, Logged.value_bind, Logged.value_bind, Logged.value_pure,
      h c List.mem_cons_self, List.flatMap_cons, List.map_append,
      ih fun d hd => h d (List.mem_cons_of_mem c hd)]

namespace ReadsAs

/-- The entries of a subtree are those of its symbols. -/
theorem collect_eq (h : t.ReadsAs s) (origin? : Option Origin) {u : Subtree} :
    ∀ {p : Option ElementId}, (p, u) ∈ s.placed none → ∀ chain : List ElementId,
    (t.collect origin? chain.length u).value = (u.symbols chain).map (t.entry origin?) := by
  induction u with
  | token leaf =>
    intro p _ chain
    rw [collect, Subtree.symbols_token]
    rfl
  | element id kind children ih =>
    intro p hplace
    have hall : ∀ chain : List ElementId,
        (t.collectAll origin? chain.length children).value =
          (children.flatMap (Subtree.symbols chain)).map (t.entry origin?) :=
      fun chain => collectAll_eq fun c hc => ih c hc (Subtree.child_placed hplace hc) chain
    intro chain
    have hsymbol : t.symbolKind? id = SymbolKind.ofElementKind? kind :=
      (h.carries.of_placed hplace).symbolKind?
    rw [collect]
    cases hkind : SymbolKind.ofElementKind? kind with
    | none =>
      rw [Subtree.symbols_of_none hkind]
      exact hall chain
    | some symbol =>
      have held : t.holds (.element id) = true :=
        h.madeOf.holds_placed List.mem_cons_self hplace
      obtain ⟨pos, hpos⟩ := Option.isSome_iff_exists.mp (h.offsetOf?_isSome held)
      have hentry : t.entry origin? (id, chain) =
          (t.outlineEntry origin? id symbol chain.length pos).value := by
        rw [entry, hsymbol, hkind, hpos]
        rfl
      have hinner := hall (id :: chain)
      rw [List.length_cons] at hinner
      rw [Subtree.symbols_of_some hkind, List.map_cons, hentry, ← hinner]
      simp only [hpos]
      rfl

/-- The outline of a tree lists the symbols below its root. -/
theorem outlineEntries_listed (h : t.ReadsAs s) (origin? : Option Origin) :
    (t.outlineEntries origin?).value = s.listed.map (t.entry origin?) := by
  rw [outlineEntries, h.whole?]
  cases s with
  | token leaf => rfl
  | element id kind children =>
    have hplace := Subtree.self_mem_placed none (.element id kind children)
    exact collectAll_eq fun c hc => h.collect_eq origin? (Subtree.child_placed hplace hc) []

/-- The outline of a tree whose root declares nothing lists the symbols of the tree. -/
theorem outlineEntries_eq (h : t.ReadsAs s) (root : t.symbolKind? t.root = none) :
    (t.outlineEntries origin?).value = (s.symbols []).map (t.entry origin?) := by
  rw [h.outlineEntries_listed]
  have htop := h.root
  cases s with
  | token leaf => cases htop
  | element id kind children =>
    obtain rfl := NodeId.element.inj htop
    rw [Subtree.symbols_of_none (by rw [← root, h.carries.symbolKind?])]
    rfl

end ReadsAs

end Tree

end DeclVisibility
