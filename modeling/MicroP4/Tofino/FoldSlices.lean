import MicroP4.Tofino.SliceAccess

/-!
# Folding assignments to slices

`FoldLExpSlicesInAsStmts` takes assignments to slices out of a block while they continue one
another, at either end, and puts one assignment of the concatenated right sides in front of the
next statement that does not fit.  What it has taken out is kept in the visitor.

The visitor is reset at the start of every block, also of one inside another, and not at the
end.  An assignment to a whole access is kept like one to a slice when it follows a group, but
`fold` reads the left side it has kept as a slice.
-/

namespace MicroP4
namespace Tofino

open BitString

/-! ## Blocks -/

/-- `IR::AssignmentStatement`, over the expressions `E` that a right side concatenates. -/
structure AssignmentStatement (E : Type) where
  left : Operand
  right : Concat E
  deriving DecidableEq

mutual

/-- A statement, over statements `S` without statements in them.  These also stand for the
condition of an `if` and the expression of a `switch`, which may apply a table.  The front end
has removed returns and moved declarations out of blocks. -/
inductive Stmt (E S : Type) where
  | assign (as : AssignmentStatement E)
  | other (s : S)
  | block (components : Components E S)
  | ifThen (condition : S) (ifTrue : Stmt E S)
  | ifElse (condition : S) (ifTrue ifFalse : Stmt E S)
  | switch (expression : S) (cases : Cases E S)

/-- The components of a block. -/
inductive Components (E S : Type) where
  | nil
  | cons (stmt : Stmt E S) (rest : Components E S)

/-- The cases of a `switch`.  A case without a statement falls through to the next one. -/
inductive Cases (E S : Type) where
  | nil
  | cons (statement : Stmt E S) (rest : Cases E S)
  | fall (rest : Cases E S)

end

variable {E S : Type}

/-- `push_back`. -/
def Components.push : Components E S → Stmt E S → Components E S
  | .nil, s => .cons s .nil
  | .cons t rest, s => .cons t (rest.push s)

/-! ## The visitor -/

/-- Two left sides that were put together: that of the group, with the bounds of the group, and
that of the assignment. -/
structure Merged where
  lExpMember : Operand
  curL : ℕ
  curH : ℕ
  lexp : Operand

/-- The members of the visitor.  `merged` is not one of them: it notes what is put together. -/
structure FoldContext (E : Type) where
  lExpMember : Option Operand
  slices : List (ℕ × ℕ)
  rightExprVec : List (Concat E)
  merged : List Merged

namespace FoldContext

/-- `resetFoldContext`. -/
def reset (c : FoldContext E) : FoldContext E := ⟨none, [], [], c.merged⟩

/-- `slices.back().first`. -/
def curL (c : FoldContext E) : ℕ := (c.slices.getLastD (0, 0)).1

/-- `slices.front().second`. -/
def curH (c : FoldContext E) : ℕ := (c.slices.headD (0, 0)).2

/-- What `matchLExpSliceIndices` returns, also through its references. -/
structure SliceMatch (E : Type) where
  context : FoldContext E
  l : ℕ
  h : ℕ
  pushDir : Bool
  isMatch : Bool

/-- `matchLExpSliceIndices`. -/
def matchLExpSliceIndices (c : FoldContext E) (lexp : Operand) : SliceMatch E :=
  match c.lExpMember with
  | none =>
      let c := { c with lExpMember := some lexp }
      match lexp with
      | .slice _ h l => ⟨c, l, h, true, true⟩
      | .access _ => ⟨c, 0, 0, true, false⟩
  | some lExpMember =>
      match lExpMember, lexp with
      | .slice currE0 _ _, .slice e0 h l =>
          if ¬ (c.curL = h + 1 ∨ c.curH + 1 = l) then ⟨c, l, h, true, false⟩
          else if compareExpression currE0 e0 then
            ⟨{ c with merged := c.merged ++ [⟨lExpMember, c.curL, c.curH, lexp⟩] }, l, h,
              !decide (c.curH + 1 = l), true⟩
          else ⟨c, l, h, !decide (c.curH + 1 = l), false⟩
      | _, _ => ⟨c, 0, 0, true, false⟩

/-- `fold`.  The left side of a group that is not a slice is read through a null pointer. -/
def fold (T : Types) (c : FoldContext E) : Option (AssignmentStatement E) :=
  match c.lExpMember, c.rightExprVec with
  | some (.slice e0 _ _), r :: rest => some ⟨makeSlice T e0 c.curL c.curH, .createConcat r rest⟩
  | _, _ => none

/-- `preorder(AssignmentStatement)`; a removed statement is `none`. -/
def assign (T : Types) (c : FoldContext E) (as : AssignmentStatement E) :
    Option (Option (Stmt E S) × FoldContext E) :=
  let m := c.matchLExpSliceIndices as.left
  let c := m.context
  if m.isMatch then
    if m.pushDir then
      some (none, { c with
        rightExprVec := c.rightExprVec ++ [as.right], slices := c.slices ++ [(m.l, m.h)] })
    else
      some (none, { c with
        rightExprVec := as.right :: c.rightExprVec, slices := (m.l, m.h) :: c.slices })
  else if c.rightExprVec.isEmpty then some (some (.assign as), c)
  else
    (c.fold T).map fun asfolded =>
      (some (.assign asfolded), ⟨some as.left, [(m.l, m.h)], [as.right], c.merged⟩)

/-- `postorder(StatOrDecl)`, inside a block. -/
def postorder (T : Types) (c : FoldContext E) (sd : Stmt E S) :
    Option (Stmt E S × FoldContext E) :=
  if c.rightExprVec.isEmpty then some (sd, c)
  else
    (c.fold T).map fun as => (.block (.cons (.assign as) (.cons sd .nil)), c.reset)

/-- The end of `preorder(BlockStatement)`. -/
def finishBlock (T : Types) (components : Components E S) (c : FoldContext E) :
    Option (Components E S × FoldContext E) :=
  if c.rightExprVec.isEmpty then some (components, c)
  else (c.fold T).map fun as => (components.push (.assign as), c)

end FoldContext

mutual

/-- `FoldLExpSlicesInAsStmts` on a statement.  The first branch of an `if` must not be
removed. -/
def Stmt.visit (T : Types) : Stmt E S → FoldContext E →
    Option (Option (Stmt E S) × FoldContext E)
  | .assign as, c => c.assign T as
  | .other s, c => (c.postorder T (.other s)).map fun r => (some r.1, r.2)
  | .block components, c =>
      (components.visit T c.reset).bind fun r =>
        (r.2.finishBlock T r.1).map fun r => (some (.block r.1), r.2)
  | .ifThen condition ifTrue, c =>
      (ifTrue.visit T c).bind fun r => r.1.bind fun ifTrue =>
        (r.2.postorder T (.ifThen condition ifTrue)).map fun r => (some r.1, r.2)
  | .ifElse condition ifTrue ifFalse, c =>
      (ifTrue.visit T c).bind fun r => r.1.bind fun ifTrue =>
        (ifFalse.visit T r.2).bind fun r =>
          (r.2.postorder T (match r.1 with
            | none => .ifThen condition ifTrue
            | some ifFalse => .ifElse condition ifTrue ifFalse)).map fun r => (some r.1, r.2)
  | .switch expression cases, c =>
      (cases.visit T c).bind fun r =>
        (r.2.postorder T (.switch expression r.1)).map fun r => (some r.1, r.2)

/-- The components of a block, without those that are removed. -/
def Components.visit (T : Types) : Components E S → FoldContext E →
    Option (Components E S × FoldContext E)
  | .nil, c => some (.nil, c)
  | .cons stmt rest, c =>
      (stmt.visit T c).bind fun r => (rest.visit T r.2).map fun r' =>
        (match r.1 with
          | none => r'.1
          | some stmt => .cons stmt r'.1, r'.2)

/-- The cases of a `switch`; one whose statement is removed falls through. -/
def Cases.visit (T : Types) : Cases E S → FoldContext E → Option (Cases E S × FoldContext E)
  | .nil, c => some (.nil, c)
  | .cons statement rest, c =>
      (statement.visit T c).bind fun r => (rest.visit T r.2).map fun r' =>
        (match r.1 with
          | none => .fall r'.1
          | some statement => .cons statement r'.1, r'.2)
  | .fall rest, c => (rest.visit T c).map fun r => (.fall r.1, r.2)

end

/-- `preorder(BlockStatement)`. -/
def foldBlock (T : Types) (components : Components E S) (c : FoldContext E) :
    Option (Components E S × FoldContext E) :=
  (components.visit T c.reset).bind fun r => r.2.finishBlock T r.1

/-! ## Running a block -/

/-- The bits at each place.  What extern objects keep is at places no access stands for. -/
abbrev Store := Loc → Word

/-- Bits `h` down to `l` of an access are set. -/
def assignSlice (T : Types) (e0 : Access) (h l : ℕ) (bits : List Bool) (σ : Store) : Store :=
  Function.update σ (e0.loc T σ) fun i =>
    if l ≤ i ∧ i ≤ h then bits.getD (h - i) false else σ (e0.loc T σ) i

/-- The meaning of what a block consists of.  An assignment to all bits of an access is one to
the slice of all its bits; one to a struct or a header may set many places. -/
structure Semantics (T : Types) (E S : Type) where
  value : E → Store → List Bool
  other : S → Store → Store
  condition : S → Store → Store × Bool
  expression : S → Store → Store × ℕ
  assign : Access → Concat E → Store → Store
  assign_eq : ∀ e right σ, 0 < e.width T →
    assign e right σ = assignSlice T e (e.width T - 1) 0 (right.value fun x => value x σ) σ

section Exec

variable {T : Types} (M : Semantics T E S)

/-- The bits of a right side. -/
def Semantics.bits (right : Concat E) (σ : Store) : List Bool := right.value fun x => M.value x σ

def AssignmentStatement.exec (as : AssignmentStatement E) (σ : Store) : Store :=
  match as.left with
  | .slice e0 h l => assignSlice T e0 h l (M.bits as.right σ) σ
  | .access e => M.assign e as.right σ

mutual

def Stmt.exec : Stmt E S → Store → Store
  | .assign as, σ => as.exec M σ
  | .other s, σ => M.other s σ
  | .block components, σ => components.exec σ
  | .ifThen condition ifTrue, σ =>
      let r := M.condition condition σ
      if r.2 then ifTrue.exec r.1 else r.1
  | .ifElse condition ifTrue ifFalse, σ =>
      let r := M.condition condition σ
      if r.2 then ifTrue.exec r.1 else ifFalse.exec r.1
  | .switch expression cases, σ =>
      let r := M.expression expression σ
      cases.exec r.2 r.1

def Components.exec : Components E S → Store → Store
  | .nil, σ => σ
  | .cons stmt rest, σ => rest.exec (stmt.exec σ)

/-- The case with a number; none is run for a number behind the last one. -/
def Cases.exec : Cases E S → ℕ → Store → Store
  | .nil, _, σ => σ
  | .cons statement _, 0, σ => statement.exec σ
  | .cons _ rest, i + 1, σ => rest.exec i σ
  | .fall rest, 0, σ => rest.exec 0 σ
  | .fall rest, i + 1, σ => rest.exec i σ

end

/-- The left sides are neighbouring slices of the same access. -/
def Merged.Adjacent (m : Merged) : Prop :=
  ∃ e0 h l, m.lexp = .slice e0 h l ∧ (∃ h' l', m.lExpMember = .slice e0 h' l') ∧
    (m.curL = h + 1 ∨ m.curH + 1 = l)

/-- The pass does not fail on a block, whatever it visited before, the folded block does the same
to every store, and assignments are only put together when their left sides are adjacent. -/
def FoldsCorrectly (components : Components E S) : Prop :=
  ∀ c : FoldContext E, c.merged = [] → ∃ folded c', foldBlock T components c = some (folded, c') ∧
    (∀ σ, folded.exec M σ = components.exec M σ) ∧ ∀ m ∈ c'.merged, m.Adjacent

end Exec

end Tofino
end MicroP4
