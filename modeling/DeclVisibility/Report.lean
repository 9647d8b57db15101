import DeclVisibility.Origin
import DeclVisibility.Text.Quoted
import DeclVisibility.Tree.Node

/-!
# Reports and faults

An operation answers with a value and, on the side, with the reports that it made on the way
(`Logged`). A caller that breaks what an operation relies on gets a fault instead of a value
(`Attempt`); the reports made before the fault are kept. Both are inductive types by cause, and
the wording of each cause is in one place: `Report.text` and `Fault.message`.
-/

namespace DeclVisibility

/-- How grave a report is. -/
inductive Level where
  | warn
  | error
  deriving DecidableEq, Repr

/-- Something that an operation found worth telling beside its value. -/
inductive Report where
  /-- A node names a parent that does not list it. -/
  | brokenLink (node : NodeId) (parent : ElementId)
  /-- The parentheses of a written visibility start with a token of an unexpected kind. -/
  | unknownRestriction (kind : TokenKind)
  /-- A fix found no name in the declaration that it is for. -/
  | namelessDeclaration (decl : ElementId)
  /-- The outline met a declaration that has no position. -/
  | unreachableDeclaration (decl : ElementId)
  /-- A package was added again with another origin. -/
  | originChanged (package : String) (old new : Origin)
  /-- A fix was applied to a document that does not hold its declaration. -/
  | foreignFix (title : String) (doc : Doc)
  /-- A fix was applied to a declaration that is no longer private. -/
  | spentFix (title : String)
  deriving DecidableEq, Repr

namespace Report

/-- How grave the report is: a broken tree is an error, a questionable request a warning. -/
def level : Report → Level
  | brokenLink _ _ | unknownRestriction _ | namelessDeclaration _ | unreachableDeclaration _ =>
    .error
  | originChanged _ _ _ | foreignFix _ _ | spentFix _ => .warn

/-- The wording of the report. -/
def text : Report → String
  | brokenLink node parent => "broken parent link " ++ node.label ++ " -> " ++ toString parent.num
  | unknownRestriction kind => "unknown visibility restriction " ++ kind.label
  | namelessDeclaration decl => toString decl.num ++ " has no name identifier"
  | unreachableDeclaration decl => "unreachable declaration " ++ toString decl.num
  | originChanged package old new =>
    "package " ++ package ++ " origin changed " ++ old.label ++ " -> " ++ new.label
  | foreignFix title doc =>
    "fix " ++ Text.quote title ++ " doesn't belong to " ++ doc.label none
  | spentFix title => "fix " ++ Text.quote title ++ " is already applied"

end Report

/-- A broken demand of an operation on its caller. -/
inductive Fault where
  /-- A number beyond those that a table can give out. -/
  | numberTooLarge
  /-- A node to be put into an element already has a parent. -/
  | alreadyAttached (node : NodeId)
  /-- The node to insert before is no child of the element to insert into. -/
  | notAChild (anchor : NodeId) (parent : ElementId)
  /-- A node whose siblings are needed has no parent. -/
  | detached (node : NodeId)
  /-- The node to insert a visibility before has no parent. -/
  | detachedAnchor (anchor : NodeId)
  /-- The node to insert a visibility before is no child of the declaration. -/
  | anchorOutside
  /-- A token was added while no element was open. -/
  | tokenOutside (kind : TokenKind)
  /-- An element was started after the outermost one was finished. -/
  | rootFinished
  /-- An element was finished while none was open. -/
  | finishWithoutStart
  /-- A tree was asked for while elements were open. -/
  | unfinished (count : Nat)
  /-- A tree was asked for before any element was finished. -/
  | emptyTree
  /-- A document was put into a package that was never added. -/
  | unknownPackage
  /-- A version has no successor. -/
  | versionOverflow
  /-- A count of a position is no number of 32 bits. -/
  | positionOverflow
  /-- A number was looked up in a table that never gave it out. -/
  | outOfTable (size number : Nat)
  /-- An item of an outline stands so deep that its margin is no number of 64 bits. -/
  | depthOverflow
  /-- An item of an outline stands so deep that no margin is wide enough. -/
  | marginTooWide
  deriving DecidableEq, Repr

/-- The wording of the fault. -/
def Fault.message : Fault → String
  | numberTooLarge => "assertion failed: index < u32::MAX as usize"
  | alreadyAttached node => node.label ++ " already has a parent"
  | notAChild anchor parent => anchor.label ++ " is not a child of " ++ toString parent.num
  | detached node => "detached " ++ node.label
  | detachedAnchor anchor => "detached anchor " ++ anchor.label
  | anchorOutside => "assertion `left == right` failed"
  | tokenOutside kind => "token " ++ kind.label ++ " outside of elements"
  | rootFinished => "root element is already finished"
  | finishWithoutStart => "finish without start"
  | unfinished count => "unfinished elements: " ++ toString count
  | emptyTree => "empty tree"
  | unknownPackage => "assertion failed: self.packages.has(package)"
  | versionOverflow | positionOverflow => "attempt to add with overflow"
  | outOfTable size number =>
    "index out of bounds: the len is " ++ toString size ++ " but the index is " ++ toString number
  | depthOverflow => "attempt to multiply with overflow"
  | marginTooWide => "Formatting argument out of range"

/-- A value with the reports made while it was computed, in order. -/
structure Logged (α : Type) where
  value : α
  reports : List Report := []
  deriving Repr

namespace Logged

variable {α β : Type}

/-- A value without a report. -/
def silent (a : α) : Logged α := ⟨a, []⟩

/-- One computation after another; the reports of the first come first. -/
def andThen (x : Logged α) (next : α → Logged β) : Logged β :=
  ⟨(next x.value).value, x.reports ++ (next x.value).reports⟩

instance : Monad Logged where
  pure := silent
  bind := andThen

/-- Makes a report. -/
def report (r : Report) : Logged Unit := ⟨(), [r]⟩

@[ext] theorem ext {x y : Logged α} (value : x.value = y.value)
    (reports : x.reports = y.reports) : x = y := by
  cases x
  cases y
  simp_all

@[simp] theorem value_pure (a : α) : (pure a : Logged α).value = a := rfl

@[simp] theorem reports_pure (a : α) : (pure a : Logged α).reports = [] := rfl

@[simp] theorem value_bind (x : Logged α) (next : α → Logged β) :
    (x >>= next).value = (next x.value).value := rfl

@[simp] theorem reports_bind (x : Logged α) (next : α → Logged β) :
    (x >>= next).reports = x.reports ++ (next x.value).reports := rfl

@[simp] theorem value_report (r : Report) : (report r).value = () := rfl

@[simp] theorem reports_report (r : Report) : (report r).reports = [r] := rfl

theorem andThen_silent (x : Logged α) : x.andThen silent = x := by
  ext1 <;> simp [andThen, silent]

instance : LawfulMonad Logged :=
  LawfulMonad.mk' Logged andThen_silent (fun _ _ => by ext1 <;> simp) (fun _ _ _ => by ext1 <;> simp)

end Logged

/-- A computation that makes reports and may meet a fault. -/
abbrev Attempt (α : Type) : Type := ExceptT Fault Logged α

namespace Attempt

variable {α : Type}

/-- A computation that meets no fault. -/
def ofLogged (x : Logged α) : Attempt α := ExceptT.lift x

/-- A computation that makes no report. -/
def ofExcept (x : Except Fault α) : Attempt α := ExceptT.mk (Logged.silent x)

/-- Meets a fault. -/
def fault (f : Fault) : Attempt α := ofExcept (.error f)

/-- The outcome and the reports. -/
def outcome (x : Attempt α) : Logged (Except Fault α) := x

theorem outcome_ofLogged (x : Logged α) :
    (ofLogged x).outcome = ⟨.ok x.value, x.reports⟩ := by
  ext1
  · rfl
  · change x.reports ++ [] = x.reports
    exact List.append_nil x.reports

/-- After a fault nothing is done; else the reports of the second part follow those of the first. -/
theorem outcome_bind {β : Type} (x : Attempt α) (next : α → Attempt β) :
    (x >>= next).outcome =
      match x.outcome.value with
      | .ok a => ⟨(next a).outcome.value, x.outcome.reports ++ (next a).outcome.reports⟩
      | .error fault => ⟨.error fault, x.outcome.reports⟩ := by
  change Logged.andThen x.outcome (ExceptT.bindCont next) = _
  unfold Logged.andThen ExceptT.bindCont
  split <;> rename_i h
  · rw [h]
    rfl
  · rw [h]
    ext1
    · rfl
    · change x.outcome.reports ++ [] = x.outcome.reports
      exact List.append_nil x.outcome.reports

end Attempt

end DeclVisibility
