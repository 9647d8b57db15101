import DeclVisibility.Proofs.Text.Quoted
import DeclVisibility.Proofs.Tree.Looks

/-!
# Shown forms are read in one way

Two nested values with the same shown form look alike, on one line (`looksLike_of_line`) as with a
child per line (`looksLike_of_block`). Both forms write an element as its kind and a bracket and
differ in what comes behind that (`Writing`). The induction is on the one value; it carries that a
form at the start of a longer text tells where it ends, if no letter and no blank comes next
(`Writing.Readable`). A name of a kind ends before the first character that is no letter, a text in
quotes at its closing quote, and a list of children at its bracket, before which each form of a
child is followed by a comma. What is shown of a token of a fixed kind is not its text, so this is
where the spelling of the tokens comes in.
-/

namespace DeclVisibility

/-! ## Names of kinds -/

/-- Whether characters make up a word. -/
def Text.IsWord (cs : List Char) : Prop := cs ≠ [] ∧ ∀ c ∈ cs, c.isAlpha = true

theorem Text.isWord_of_all {cs : List Char} (h : (!cs.isEmpty && cs.all Char.isAlpha) = true) :
    IsWord cs := by
  rw [Bool.and_eq_true, List.all_eq_true] at h
  refine ⟨?_, h.2⟩
  rintro rfl
  cases h.1

theorem ElementKind.isWord_label (kind : ElementKind) : Text.IsWord kind.label.toList := by
  apply Text.isWord_of_all
  cases kind <;> rfl

theorem TokenKind.isWord_label (kind : TokenKind) : Text.IsWord kind.label.toList := by
  apply Text.isWord_of_all
  cases kind with
  | keyword word => cases word <;> rfl
  | punct mark => cases mark <;> rfl
  | _ => rfl

theorem ElementKind.label_inj {kind kind' : ElementKind}
    (h : kind.label.toList = kind'.label.toList) : kind = kind' := by
  have hread := congrArg ofLabel? (String.toList_inj.mp h)
  rw [ofLabel?_label, ofLabel?_label] at hread
  exact Option.some.inj hread

theorem TokenKind.label_inj {kind kind' : TokenKind}
    (h : kind.label.toList = kind'.label.toList) : kind = kind' := by
  have hread := congrArg ofLabel? (String.toList_inj.mp h)
  rw [ofLabel?_label, ofLabel?_label] at hread
  exact Option.some.inj hread

/-- A word ends before the first character that is no letter. -/
theorem Text.IsWord.append_inj {w w' r r' : List Char} (hw : IsWord w) (hw' : IsWord w')
    (hr : ∀ c, r.head? = some c → c.isAlpha = false)
    (hr' : ∀ c, r'.head? = some c → c.isAlpha = false) (h : w ++ r = w' ++ r') :
    w = w' ∧ r = r' := by
  have hnone : ∀ {r : List Char}, (∀ c, r.head? = some c → c.isAlpha = false) →
      r.takeWhile Char.isAlpha = [] := by
    intro r hr
    cases r with
    | nil => rfl
    | cons c rest => exact List.takeWhile_cons_of_neg (by simp [hr c rfl])
  have htake := congrArg (List.takeWhile Char.isAlpha) h
  rw [List.takeWhile_append_of_pos hw.2, List.takeWhile_append_of_pos hw'.2, hnone hr, hnone hr',
    List.append_nil, List.append_nil] at htake
  subst htake
  exact ⟨rfl, List.append_cancel_left h⟩

/-- A word starts with a letter. -/
theorem Text.IsWord.append_ne_cons {w : List Char} (hw : IsWord w) {c : Char}
    (hc : c.isAlpha = false) (r r' : List Char) : w ++ r ≠ c :: r' := by
  intro h
  obtain ⟨d, rest, rfl⟩ := List.exists_cons_of_ne_nil hw.1
  have hletter := hw.2 d List.mem_cons_self
  rw [(List.cons.inj h).1, hc] at hletter
  cases hletter

theorem Text.IsWord.append_ne_quoteChars {w : List Char} (hw : IsWord w) (cs r r' : List Char) :
    w ++ r ≠ quoteChars cs ++ r' :=
  hw.append_ne_cons rfl r _

namespace Subtree

variable {s s' : Subtree} {r r' : List Char}

/-! ## Tokens -/

/-- Whether what comes next cannot belong to a shown form: it starts with no letter, and with no
blank, which comes between the kind of an element and its children. -/
def Stops (r : List Char) : Prop := ∀ c, r.head? = some c → c.isAlpha = false ∧ c ≠ ' '

theorem stops_nil : Stops [] := nofun

theorem shownLeaf_append_inj {leaf leaf' : Leaf} (spelled : leaf.kind.Spells leaf.text)
    (spelled' : leaf'.kind.Spells leaf'.text) (hr : Stops r) (hr' : Stops r')
    (h : shownLeaf leaf ++ r = shownLeaf leaf' ++ r') :
    (token leaf).look = (token leaf').look ∧ r = r' := by
  rw [shownLeaf, shownLeaf] at h
  cases hspelling : leaf.kind.spelling? with
  | none =>
    cases hspelling' : leaf'.kind.spelling? with
    | none =>
      rw [hspelling, hspelling'] at h
      obtain ⟨htext, hrest⟩ := Text.quoteChars_append_inj h
      rw [String.toList_inj] at htext
      rw [look, look, TokenKind.fixed?, TokenKind.fixed?, hspelling, hspelling', htext]
      exact ⟨rfl, hrest⟩
    | some spelling =>
      rw [hspelling, hspelling'] at h
      exact absurd h.symm (leaf'.kind.isWord_label.append_ne_quoteChars _ _ _)
  | some spelling =>
    cases hspelling' : leaf'.kind.spelling? with
    | none =>
      rw [hspelling, hspelling'] at h
      exact absurd h (leaf.kind.isWord_label.append_ne_quoteChars _ _ _)
    | some spelling' =>
      rw [hspelling, hspelling'] at h
      obtain ⟨hlabel, hrest⟩ := leaf.kind.isWord_label.append_inj leaf'.kind.isWord_label
        (fun c hc => (hr c hc).1) (fun c hc => (hr' c hc).1) h
      have hkind := TokenKind.label_inj hlabel
      have htext : leaf.text = leaf'.text := by
        rw [spelled spelling hspelling, spelled' spelling (hkind ▸ hspelling)]
      rw [look, look, hkind, htext]
      exact ⟨rfl, hrest⟩

/-! ## Elements -/

/-- A way to write nested values: a token as it is shown, and an element as its kind and a bracket,
behind which come its children. -/
structure Writing where
  chars : Nat → Subtree → List Char
  body : Nat → List Subtree → List Char
  token : ∀ depth leaf, chars depth (.token leaf) = shownLeaf leaf
  element : ∀ depth id kind children, chars depth (.element id kind children) =
    kind.label.toList ++ ' ' :: '[' :: body depth children

namespace Writing

variable {w : Writing}

/-- At the start of a longer text the form of the value tells what the value looks like, and where
the form ends. -/
def Readable (w : Writing) (s : Subtree) : Prop :=
  ∀ (depth : Nat) {s' : Subtree} {r r' : List Char}, s'.Spelled → Stops r → Stops r' →
    w.chars depth s ++ r = w.chars depth s' ++ r' → s.LooksLike s' ∧ r = r'

/-- What is written for children tells what they look like, and where it ends, if their forms do. -/
def PartsReadable (w : Writing) : Prop :=
  ∀ (depth : Nat) {cs cs' : List Subtree} {r r' : List Char}, (∀ c ∈ cs, w.Readable c) →
    (∀ c ∈ cs', c.Spelled) → w.body depth cs ++ r = w.body depth cs' ++ r' →
      List.Forall₂ LooksLike cs cs' ∧ r = r'

theorem not_token_element {leaf : Leaf} {kind : ElementKind} {body : List Char} (hr : Stops r)
    (h : shownLeaf leaf ++ r = kind.label.toList ++ ' ' :: body) : False := by
  rw [shownLeaf] at h
  cases hspelling : leaf.kind.spelling? with
  | none =>
    rw [hspelling] at h
    exact kind.isWord_label.append_ne_quoteChars _ _ _ h.symm
  | some spelling =>
    rw [hspelling] at h
    obtain ⟨-, hrest⟩ := leaf.kind.isWord_label.append_inj kind.isWord_label
      (fun c hc => (hr c hc).1) (by rintro c ⟨⟩; rfl) h
    exact (hr ' ' (by rw [hrest]; rfl)).2 rfl

theorem readable (parts : w.PartsReadable) (spelled : s.Spelled) : w.Readable s := by
  induction s with
  | token leaf =>
    intro depth s' r r' spelled' hr hr' h
    cases s' with
    | token leaf' =>
      rw [w.token, w.token] at h
      rw [looksLike_token]
      exact shownLeaf_append_inj (spelled_token.mp spelled) (spelled_token.mp spelled') hr hr' h
    | element id' kind' children' =>
      rw [w.token, w.element, List.append_assoc] at h
      exact (not_token_element hr h).elim
  | element id kind children ih =>
    intro depth s' r r' spelled' hr hr' h
    cases s' with
    | token leaf' =>
      rw [w.token, w.element, List.append_assoc] at h
      exact (not_token_element hr' h.symm).elim
    | element id' kind' children' =>
      rw [w.element, w.element, List.append_assoc, List.append_assoc] at h
      obtain ⟨hlabel, hrest⟩ := kind.isWord_label.append_inj kind'.isWord_label
        (by rintro c ⟨⟩; rfl) (by rintro c ⟨⟩; rfl) h
      obtain ⟨hchildren, hr⟩ := parts depth
        (fun c hc => ih c hc (spelled_element.mp spelled c hc)) (spelled_element.mp spelled')
        (List.cons.inj (List.cons.inj hrest).2).2
      rw [looksLike_element]
      exact ⟨⟨ElementKind.label_inj hlabel, hchildren⟩, hr⟩

theorem chars_append_ne_bracket (depth : Nat) (s : Subtree) (r r' : List Char) :
    w.chars depth s ++ r ≠ ']' :: r' := by
  cases s with
  | token leaf =>
    rw [w.token, shownLeaf]
    split
    · exact leaf.kind.isWord_label.append_ne_cons rfl r r'
    · exact fun h => absurd (List.cons.inj h).1 (by decide)
  | element id kind children =>
    rw [w.element, List.append_assoc]
    exact kind.isWord_label.append_ne_cons rfl _ r'

end Writing

/-! ## The two forms -/

/-- What comes behind the form of a child on one line: the forms of the children that follow, each
behind a comma, and the closing bracket. -/
def afterLine : List Subtree → List Char
  | [] => [']']
  | child :: rest => ',' :: ' ' :: (child.lineChars ++ afterLine rest)

theorem intercalate_linesOfAll (c : Subtree) (rest : List Subtree) :
    [',', ' '].intercalate (linesOfAll (c :: rest)) ++ [']'] = c.lineChars ++ afterLine rest := by
  induction rest generalizing c with
  | nil => rw [linesOfAll, linesOfAll, List.intercalate_singleton, afterLine]
  | cons d rest ih =>
    rw [linesOfAll, linesOfAll, List.intercalate_cons_cons, List.append_assoc, List.append_assoc,
      ← linesOfAll, ih d]
    rfl

theorem stops_afterLine (cs : List Subtree) (r : List Char) : Stops (afterLine cs ++ r) := by
  rintro c hc
  cases cs <;> cases hc <;> exact ⟨rfl, by decide⟩

/-- On one line. -/
def Writing.line : Writing where
  chars _ := lineChars
  body _ cs := [',', ' '].intercalate (linesOfAll cs) ++ [']']
  token _ leaf := by rw [lineChars]
  element _ id kind children := by
    rw [lineChars, List.append_assoc, List.append_assoc]
    rfl

theorem Writing.body_line_cons (depth : Nat) (c : Subtree) (rest : List Subtree) :
    Writing.line.body depth (c :: rest) = c.lineChars ++ afterLine rest :=
  intercalate_linesOfAll c rest

theorem afterLine_inj {cs cs' : List Subtree} (readable : ∀ c ∈ cs, Writing.line.Readable c)
    (spelled : ∀ c ∈ cs', c.Spelled) (h : afterLine cs ++ r = afterLine cs' ++ r') :
    List.Forall₂ LooksLike cs cs' ∧ r = r' := by
  induction cs generalizing cs' with
  | nil =>
    cases cs' with
    | nil => exact ⟨.nil, (List.cons.inj h).2⟩
    | cons c' rest' => exact absurd (List.cons.inj h).1 (by decide)
  | cons c rest ih =>
    cases cs' with
    | nil => exact absurd (List.cons.inj h).1 (by decide)
    | cons c' rest' =>
      rw [afterLine, afterLine, List.cons_append, List.cons_append, List.cons_append,
        List.cons_append, List.append_assoc, List.append_assoc] at h
      obtain ⟨hc, hrest⟩ := readable c List.mem_cons_self 0 (spelled c' List.mem_cons_self)
        (stops_afterLine rest r) (stops_afterLine rest' r') (List.cons.inj (List.cons.inj h).2).2
      obtain ⟨hrest, hr⟩ := ih (fun d hd => readable d (List.mem_cons_of_mem _ hd))
        (fun d hd => spelled d (List.mem_cons_of_mem _ hd)) hrest
      exact ⟨.cons hc hrest, hr⟩

theorem Writing.partsReadable_line : Writing.line.PartsReadable := by
  intro depth cs cs' r r' readable spelled h
  cases cs with
  | nil =>
    cases cs' with
    | nil => exact ⟨.nil, (List.cons.inj h).2⟩
    | cons c' rest' =>
      rw [body_line_cons, List.append_assoc] at h
      exact absurd h.symm (chars_append_ne_bracket (w := .line) 0 c' _ r)
  | cons c rest =>
    cases cs' with
    | nil =>
      rw [body_line_cons, List.append_assoc] at h
      exact absurd h (chars_append_ne_bracket (w := .line) 0 c _ r')
    | cons c' rest' =>
      rw [body_line_cons, body_line_cons] at h
      exact afterLine_inj readable spelled (congrArg ([',', ' '] ++ ·) h)

/-- With a child per line. -/
def Writing.block : Writing where
  chars := blockChars
  body depth cs :=
    if cs.isEmpty then [']'] else '\n' :: (blocksOfAll (depth + 1) cs ++ (indent depth ++ [']']))
  token depth leaf := by rw [blockChars]
  element depth id kind children := by
    rw [blockChars]
    split <;> simp

theorem Writing.body_block_cons (depth : Nat) (c : Subtree) (rest : List Subtree) :
    Writing.block.body depth (c :: rest) =
      '\n' :: (blocksOfAll (depth + 1) (c :: rest) ++ (indent depth ++ [']'])) :=
  rfl

theorem indent_succ (depth : Nat) : indent (depth + 1) = indent depth ++ List.replicate 4 ' ' :=
  List.replicate_add (4 * depth) 4 ' '

/-- The forms of the children, each behind its indentation and before a comma, and the bracket
behind its own, which is less. -/
theorem blocksOfAll_inj {depth : Nat} {cs cs' : List Subtree}
    (readable : ∀ c ∈ cs, Writing.block.Readable c) (spelled : ∀ c ∈ cs', c.Spelled)
    (h : blocksOfAll (depth + 1) cs ++ (indent depth ++ ']' :: r) =
      blocksOfAll (depth + 1) cs' ++ (indent depth ++ ']' :: r')) :
    List.Forall₂ LooksLike cs cs' ∧ r = r' := by
  have hstops : ∀ r : List Char, Stops (',' :: r) := by
    rintro r _ ⟨⟩
    exact ⟨rfl, by decide⟩
  induction cs generalizing cs' with
  | nil =>
    cases cs' with
    | nil => exact ⟨.nil, (List.cons.inj (List.append_cancel_left h)).2⟩
    | cons c' rest' =>
      rw [blocksOfAll, blocksOfAll, indent_succ, List.nil_append] at h
      simp only [List.append_assoc] at h
      exact absurd (List.cons.inj (List.append_cancel_left h)).1 (by decide)
  | cons c rest ih =>
    cases cs' with
    | nil =>
      rw [blocksOfAll, blocksOfAll, indent_succ, List.nil_append] at h
      simp only [List.append_assoc] at h
      exact absurd (List.cons.inj (List.append_cancel_left h)).1 (by decide)
    | cons c' rest' =>
      rw [blocksOfAll, blocksOfAll] at h
      simp only [List.append_assoc] at h
      obtain ⟨hc, hrest⟩ := readable c List.mem_cons_self (depth + 1)
        (spelled c' List.mem_cons_self) (hstops _) (hstops _) (List.append_cancel_left h)
      obtain ⟨hrest, hr⟩ := ih (fun d hd => readable d (List.mem_cons_of_mem _ hd))
        (fun d hd => spelled d (List.mem_cons_of_mem _ hd))
        (List.cons.inj (List.cons.inj hrest).2).2
      exact ⟨.cons hc hrest, hr⟩

theorem Writing.partsReadable_block : Writing.block.PartsReadable := by
  intro depth cs cs' r r' readable spelled h
  cases cs with
  | nil =>
    cases cs' with
    | nil => exact ⟨.nil, (List.cons.inj h).2⟩
    | cons c' rest' => exact absurd (List.cons.inj h).1 (by decide)
  | cons c rest =>
    cases cs' with
    | nil => exact absurd (List.cons.inj h).1 (by decide)
    | cons c' rest' =>
      rw [body_block_cons, body_block_cons, List.cons_append, List.cons_append] at h
      have hblocks := (List.cons.inj h).2
      simp only [List.append_assoc] at hblocks
      exact blocksOfAll_inj readable spelled hblocks

/-! ## What a shown form tells -/

theorem looksLike_of_line (spelled : s.Spelled) (spelled' : s'.Spelled) (h : s.line = s'.line) :
    s.LooksLike s' := by
  have hchars : s.lineChars = s'.lineChars := String.ofList_injective h
  exact (Writing.readable Writing.partsReadable_line spelled 0 spelled' stops_nil stops_nil
    (congrArg (· ++ []) hchars)).1

theorem looksLike_of_block (spelled : s.Spelled) (spelled' : s'.Spelled)
    (h : s.block = s'.block) : s.LooksLike s' := by
  have hchars : s.blockChars 0 = s'.blockChars 0 := String.ofList_injective h
  exact (Writing.readable Writing.partsReadable_block spelled 0 spelled' stops_nil stops_nil
    (congrArg (· ++ []) hchars)).1

end Subtree

end DeclVisibility
