import Mathlib.Data.Finset.Basic
import MicroP4.Analysis.Control

/-!
# The control block interpreter

`ControlBlockInterpreter` visits the control body of a package once.  It collects the
records of header-validity operations from which the deparser table is multiplied, and
bounds how much the control and the packages it applies extract from the packet, grow it
and shrink it.  `ComposablePackageInterpreter` runs it for a package.

The records live in one vector.  A conditional inserts the operations pending in
`currOpsRec` into every element, replicates the vector once for each branch, and inserts
what is pending at the end of a branch into the range of that branch.

The visitor is an `Inspector`: it visits a node once.  A table, an action or a package met
a second time is skipped.
-/

namespace MicroP4
namespace Analysis

variable {H N P : Type} [DecidableEq H] [DecidableEq N]

/-! ## Records -/

/-- `HdrValidityOpsRecord`. -/
@[ext]
structure OpsRecord (H : Type) where
  setValid : Finset H
  setInvalid : Finset H
  deriving DecidableEq

namespace OpsRecord

/-- The record without operations. -/
def empty : OpsRecord H := ⟨∅, ∅⟩

/-- `currOpsRec.first.emplace` or `currOpsRec.second.emplace`. -/
def emplace (r : OpsRecord H) : HdrOp H → OpsRecord H
  | .setValid h => { r with setValid := insert h r.setValid }
  | .setInvalid h => { r with setInvalid := insert h r.setInvalid }

/-- A record with the operations of another emplaced. -/
def union (r s : OpsRecord H) : OpsRecord H :=
  ⟨r.setValid ∪ s.setValid, r.setInvalid ∪ s.setInvalid⟩

/-- Whether a record has no operations. -/
def isEmpty (r : OpsRecord H) : Bool := r = empty

end OpsRecord

/-- `insertCurrOpsRecToVecEles`. -/
def insertCurrOpsRecToVecEles (currOpsRec : OpsRecord H) (start stop : ℕ)
    (v : List (OpsRecord H)) : List (OpsRecord H) :=
  v.mapIdx fun i r => if start ≤ i ∧ i < stop then r.union currOpsRec else r

/-- `replicateHdrValidityOpsVec`. -/
def replicateHdrValidityOpsVec {α : Type} (nfold : ℕ) (v : List α) : List α :=
  (List.replicate nfold v).flatten

/-- The loop at the end of `preorder(P4Control)`.  In the first round `dup` is false and an
empty element is only found; each later round erases the first one. -/
def eraseEmptyElements (dup : Bool) (v : List (OpsRecord H)) : List (OpsRecord H) :=
  if v.any OpsRecord.isEmpty then
    if dup then eraseEmptyElements true (v.eraseP OpsRecord.isEmpty)
    else eraseEmptyElements true v
  else v
termination_by (v.length, (!dup).toNat)
decreasing_by
  · rename_i h _
    obtain ⟨r, hr, he⟩ := List.any_eq_true.mp h
    have hlt := List.length_eraseP_of_mem hr he
    have hpos : 0 < v.length := List.length_pos_of_mem hr
    exact Prod.Lex.left _ _ (by omega)
  · rename_i hdup
    rw [Bool.eq_false_iff.mpr hdup]
    exact Prod.Lex.right _ (by decide)

/-! ## The visitor -/

/-- The fields of the interpreter, and the nodes it has visited. -/
structure Interpreter (H N : Type) where
  xoredHdrValidityOps : List (OpsRecord H)
  currOpsRec : OpsRecord H
  maxIncr : ℕ
  maxDecr : ℕ
  maxExtLen : ℕ
  accumDecrPktLen : ℕ
  visited : List N

/-- The sizes of header instances and the most that a micro parser extracts. -/
structure Sizes (H P : Type) where
  width : H → ℕ
  pktMaxOffset : P → ℕ

namespace Interpreter

/-- The interpreter when it starts with the body of a control. -/
def init : Interpreter H N where
  xoredHdrValidityOps := [OpsRecord.empty]
  currOpsRec := OpsRecord.empty
  maxIncr := 0
  maxDecr := 0
  maxExtLen := 0
  accumDecrPktLen := 0
  visited := []

/-- Marking a node as visited. -/
def visiting (s : Interpreter H N) (n : N) : Interpreter H N :=
  { s with visited := n :: s.visited }

/-- A call of a built-in method of a header. -/
def builtInMethod (width : H → ℕ) (s : Interpreter H N) : HdrOp H → Interpreter H N
  | .setValid h => { s with
      currOpsRec := s.currOpsRec.emplace (.setValid h), maxIncr := s.maxIncr + width h }
  | .setInvalid h => { s with
      currOpsRec := s.currOpsRec.emplace (.setInvalid h), maxDecr := s.maxDecr + width h }

/-- What every conditional starts with: pending operations go to all elements, which are
then replicated. -/
def startBranches (s : Interpreter H N) (nfold : ℕ) : Interpreter H N :=
  { s with
    xoredHdrValidityOps := replicateHdrValidityOpsVec nfold
      (insertCurrOpsRecToVecEles s.currOpsRec 0 s.xoredHdrValidityOps.length
        s.xoredHdrValidityOps)
    currOpsRec := OpsRecord.empty }

/-- What every branch ends with: pending operations go to the range of the branch. -/
def endBranch (s : Interpreter H N) (start stop : ℕ) : Interpreter H N :=
  { s with
    xoredHdrValidityOps :=
      insertCurrOpsRecToVecEles s.currOpsRec start stop s.xoredHdrValidityOps
    currOpsRec := OpsRecord.empty }

/-- Applying a package whose analysis gave `(maxExtLen, maxIncrPktLen, maxDecrPktLen)`. -/
def applyPackage (s : Interpreter H N) (cpi : ℕ × ℕ × ℕ) : Interpreter H N :=
  { s with
    maxIncr := s.maxIncr + cpi.2.1
    maxDecr := s.maxDecr + cpi.2.2
    maxExtLen := max s.maxExtLen (s.accumDecrPktLen + cpi.1)
    accumDecrPktLen := s.accumDecrPktLen + cpi.2.2 }

end Interpreter

variable (D : Sizes H P)

mutual

/-- Visiting a statement. -/
def Stmt.visit : Stmt H N P → Interpreter H N → Interpreter H N
  | .skip, s => s
  | .op o, s => s.builtInMethod D.width o
  | .seq a b, s => b.visit (a.visit s)
  | .ite _ ifTrue ifFalse, s =>
      let currSize := s.xoredHdrValidityOps.length
      let t := (ifTrue.visit (s.startBranches 2)).endBranch 0 currSize
      let f := (ifFalse.visit { t with
          maxIncr := s.maxIncr, maxDecr := s.maxDecr, accumDecrPktLen := s.accumDecrPktLen
        }).endBranch currSize (currSize + currSize)
      { f with
        maxIncr := max t.maxIncr f.maxIncr
        maxDecr := max t.maxDecr f.maxDecr
        accumDecrPktLen := max t.accumDecrPktLen f.accumDecrPktLen }
  | .switch _ _ cases, s =>
      cases.visit s s.xoredHdrValidityOps.length 0 (s.startBranches cases.length) s
  | .apply table actions, s =>
      if table ∈ s.visited then s
      else
        actions.visit s s.xoredHdrValidityOps.length 0
          ((s.visiting table).startBranches actions.length) s
  | .call action body, s =>
      if action ∈ s.visited then s else body.visit (s.visiting action)
  | .pkg name package, s =>
      if name ∈ s.visited then s else (s.visiting name).applyPackage package.interpret

/-- Visiting an action list.  `curr` holds the sizes each action starts from, `loc` the
greatest ones so far; `accumDecrPktLen` is not among them. -/
def ActionList.visit (curr : Interpreter H N) (currSize index : ℕ) :
    ActionList H N P → (s loc : Interpreter H N) → Interpreter H N
  | .nil, s, loc => { s with maxIncr := loc.maxIncr, maxDecr := loc.maxDecr }
  | .cons action body rest, s, loc =>
      let t := (if action ∈ s.visited then s else body.visit (s.visiting action))
      rest.visit curr currSize (index + currSize)
        { t.endBranch index (index + currSize) with
          maxIncr := curr.maxIncr, maxDecr := curr.maxDecr }
        { loc with maxIncr := max loc.maxIncr t.maxIncr, maxDecr := max loc.maxDecr t.maxDecr }

/-- Visiting the cases of a `switch`. -/
def Cases.visit (curr : Interpreter H N) (currSize index : ℕ) :
    Cases H N P → (s loc : Interpreter H N) → Interpreter H N
  | .nil, s, loc => { s with
      maxIncr := loc.maxIncr, maxDecr := loc.maxDecr, accumDecrPktLen := loc.accumDecrPktLen }
  | .cons _ body rest, s, loc =>
      let t := body.visit s
      rest.visit curr currSize (index + currSize)
        { t.endBranch index (index + currSize) with
          maxIncr := curr.maxIncr, maxDecr := curr.maxDecr
          accumDecrPktLen := curr.accumDecrPktLen }
        { loc with
          maxIncr := max loc.maxIncr t.maxIncr, maxDecr := max loc.maxDecr t.maxDecr
          accumDecrPktLen := max loc.accumDecrPktLen t.accumDecrPktLen }
  | .fall _ rest, s, loc =>
      rest.visit curr currSize (index + currSize)
        { s.endBranch index (index + currSize) with
          maxIncr := curr.maxIncr, maxDecr := curr.maxDecr
          accumDecrPktLen := curr.accumDecrPktLen }
        { loc with
          maxIncr := max loc.maxIncr s.maxIncr, maxDecr := max loc.maxDecr s.maxDecr
          accumDecrPktLen := max loc.accumDecrPktLen s.accumDecrPktLen }

/-- `ComposablePackageInterpreter` on a package: `(maxExtLen, maxIncrPktLen,
maxDecrPktLen)`. -/
def Package.interpret : Package H N P → ℕ × ℕ × ℕ
  | .mk parser body =>
      let cbi := body.visit Interpreter.init
      (D.pktMaxOffset parser + cbi.maxExtLen, cbi.maxIncr, cbi.maxDecr)

end

/-! A declaration that was visited is not visited again. -/

theorem Stmt.visit_apply_of_mem {table : N} {actions : ActionList H N P} {s : Interpreter H N}
    (h : table ∈ s.visited) : (Stmt.apply table actions).visit D s = s := by
  rw [Stmt.visit, if_pos h]

theorem Stmt.visit_call_of_mem {action : N} {body : Stmt H N P} {s : Interpreter H N}
    (h : action ∈ s.visited) : (Stmt.call action body).visit D s = s := by
  rw [Stmt.visit, if_pos h]

theorem Stmt.visit_pkg_of_mem {name : N} {package : Package H N P} {s : Interpreter H N}
    (h : name ∈ s.visited) : (Stmt.pkg name package).visit D s = s := by
  rw [Stmt.visit, if_pos h]

/-- The records `preorder(P4Control)` leaves in `xoredHdrValidityOps`. -/
def controlRecords (body : Stmt H N P) : List (OpsRecord H) :=
  eraseEmptyElements false (body.visit D Interpreter.init).xoredHdrValidityOps

end Analysis
end MicroP4
