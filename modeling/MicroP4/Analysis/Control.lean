import Mathlib

/-!
# Control bodies of composable packages

The static analysis looks at a control body only for its branching structure, the header
operations and the packages it applies; everything else is `skip`.  Tables, actions and
packages are shared nodes of the program, so each carries the name of its node and the
analysis can see that it meets one twice.

The condition of an `if` and the expression of a `switch` may apply a table, so both are
executed: the condition is a statement here, and a `switch` always applies its table.  An
`if` without an else branch has `skip` for it.
-/

namespace MicroP4
namespace Analysis

/-- A call of `setValid` or `setInvalid` on a header instance of the package. -/
inductive HdrOp (H : Type) where
  | setValid (h : H)
  | setInvalid (h : H)
  deriving DecidableEq, Repr

/-- The header an operation is called on. -/
def HdrOp.hdr {H : Type} : HdrOp H → H
  | .setValid h => h
  | .setInvalid h => h

mutual

/-- A statement over headers `H`, nodes `N` and micro parsers `P`. -/
inductive Stmt (H N P : Type) where
  | skip
  | op (o : HdrOp H)
  | seq (s t : Stmt H N P)
  | ite (condition ifTrue ifFalse : Stmt H N P)
  | switch (table : N) (actions : ActionList H N P) (cases : Cases H N P)
  | apply (table : N) (actions : ActionList H N P)
  | call (action : N) (body : Stmt H N P)
  | pkg (name : N) (package : Package H N P)

/-- The action list of a table. -/
inductive ActionList (H N P : Type) where
  | nil
  | cons (action : N) (body : Stmt H N P) (rest : ActionList H N P)

/-- The cases of a `switch`.  The label `none` is `default`; a case without a statement
falls through to the next one. -/
inductive Cases (H N P : Type) where
  | nil
  | cons (label : Option N) (body : Stmt H N P) (rest : Cases H N P)
  | fall (label : Option N) (rest : Cases H N P)

/-- A composable package: its parser and the body of its control. -/
inductive Package (H N P : Type) where
  | mk (parser : P) (body : Stmt H N P)

end

variable {H N P : Type}

/-- `actionList.size()`. -/
def ActionList.length : ActionList H N P → ℕ
  | .nil => 0
  | .cons _ _ l => l.length + 1

/-- `cases.size()`. -/
def Cases.length : Cases H N P → ℕ
  | .nil => 0
  | .cons _ _ l => l.length + 1
  | .fall _ l => l.length + 1

/-! ## Execution paths -/

section Paths

variable [DecidableEq N]

mutual

/-- The header operations along each execution path.  Operations of a package that is
applied are on headers of its own. -/
def Stmt.paths : Stmt H N P → List (List (HdrOp H))
  | .skip => [[]]
  | .op o => [[o]]
  | .seq s t => s.paths.flatMap fun p => t.paths.map fun q => p ++ q
  | .ite c t e => c.paths.flatMap fun p => (t.paths ++ e.paths).map fun q => p ++ q
  | .switch _ al cs => al.runs.flatMap fun r =>
      ((cs.find (some r.1)).getD ((cs.find none).getD [[]])).map fun q => r.2 ++ q
  | .apply _ al => al.runs.map Prod.snd
  | .call _ b => b.paths
  | .pkg _ _ => [[]]

/-- The actions a table may run, with the paths through each. -/
def ActionList.runs : ActionList H N P → List (N × List (HdrOp H))
  | .nil => []
  | .cons a b l => b.paths.map (fun p => (a, p)) ++ l.runs

/-- The paths through the case with a label, if there is one. -/
def Cases.find (label : Option N) : Cases H N P → Option (List (List (HdrOp H)))
  | .nil => none
  | .cons lab b l => if lab = label then some b.paths else l.find label
  | .fall lab l => if lab = label then some l.fallThrough else l.find label

/-- The paths through the first statement of a list of cases. -/
def Cases.fallThrough : Cases H N P → List (List (HdrOp H))
  | .nil => [[]]
  | .cons _ b _ => b.paths
  | .fall _ l => l.fallThrough

end

end Paths

end Analysis
end MicroP4
