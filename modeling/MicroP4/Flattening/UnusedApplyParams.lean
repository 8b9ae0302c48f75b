import MicroP4.Foundations.CopyInCopyOut

/-!
# Removing unused parameters of controls

`RemoveUnusedApplyParams` goes through the controls of a program in the order they are declared.
It removes the parameters of a control that nothing refers to, remembers their positions under
the name of the control, and deletes the arguments at these positions from the calls of the
control.  `RmUnusedApplyParams` repeats this until nothing changes, since the arguments that
were deleted may have been the last references to parameters of the caller.  Controls on a list
keep their parameters.

The parameter lists that are visited are those of the control and of its actions.  The latter
are treated in the same way: an unused parameter of an action is removed from the action, its
position is added to the positions of the control, and from then on parameters of its name are
removed as well.
-/

namespace MicroP4
namespace Flattening

open CopyInCopyOut

variable {N O : Type} [DecidableEq N] [DecidableEq O]

/-! ## Programs -/

structure Action (N O : Type) where
  name : N
  params : List (Param N)
  body : Stmt N O
  deriving DecidableEq

/-- A table with its key; the action it runs is up to the entries. -/
structure Table (N O : Type) where
  name : N
  key : List (Expr N O)
  deriving DecidableEq

/-- A control.  Its calls name the control whose instance they apply. -/
structure Control (N O : Type) where
  name : N
  params : List (Param N)
  actions : List (Action N O)
  tables : List (Table N O)
  body : Stmt N O
  deriving DecidableEq

/-- The controls of a program in the order they are declared. -/
abbrev Program (N O : Type) := List (Control N O)

/-- The variables of the control that an action refers to. -/
def Action.refs (a : Action N O) : List N :=
  a.body.refs.filter fun x => x ∉ a.params.map Param.name

/-- The variables that a control refers to. -/
def Control.refs (C : Control N O) : List N :=
  C.actions.flatMap Action.refs ++
    (C.tables.flatMap (fun t => t.key.flatMap Expr.refs) ++ C.body.refs)

/-- The calls of controls in a control. -/
def Control.calls (C : Control N O) : List (N × List (Arg N O)) :=
  C.actions.flatMap (fun a => a.body.calls) ++ C.body.calls

/-! ## One round -/

/-- `unusedParams`, by name, and `unusedParamLocations`. -/
structure UnusedState (N : Type) where
  unusedParams : List N
  unusedParamLocations : List ℕ

/-- The positions of elements, counted from `s`. -/
def locations {α : Type} (p : α → Bool) : (s : ℕ) → List α → List ℕ
  | _, [] => []
  | s, a :: l => if p a then s :: locations p (s + 1) l else locations p (s + 1) l

/-- The elements at other positions, counted from `s`. -/
def deleteFrom {α : Type} (locs : List ℕ) : (s : ℕ) → List α → List α
  | _, [] => []
  | s, a :: l => if s ∈ locs then deleteFrom locs (s + 1) l else a :: deleteFrom locs (s + 1) l

/-- `preorder(IR::Parameter*)` for each parameter of a list, and `postorder(IR::ParameterList*)`.
That the name of an unused parameter is already in `unusedParams`, which is also reported as an
error, makes no difference to the result. -/
def visitParameterList (isUsed : N → Bool) (st : UnusedState N) (pl : List (Param N)) :
    List (Param N) × UnusedState N :=
  let unusedParams := st.unusedParams ++ (pl.filter fun p => !isUsed p.name).map Param.name
  (pl.filter fun p => p.name ∉ unusedParams,
    ⟨unusedParams,
      st.unusedParamLocations ++ locations (fun p => p.name ∈ unusedParams) 0 pl⟩)

/-- `controlUnusedParamLocMap`. -/
abbrev LocMap (N : Type) := List (N × List ℕ)

/-- `preorder(IR::MethodCallExpression*)`, for the arguments of the call of a control. -/
def deleteArgs (map : LocMap N) (callee : N) (args : List (Arg N O)) : List (Arg N O) :=
  match map.lookup callee with
  | none => args
  | some unusedLocs => deleteFrom unusedLocs 0 args

/-- Visiting the actions among `controlLocals`. -/
def visitActions (map : LocMap N) : UnusedState N → List (Action N O) →
    List (Action N O) × UnusedState N
  | st, [] => ([], st)
  | st, a :: actions =>
      let (params, st) := visitParameterList (fun x => x ∈ a.body.refs) st a.params
      let (actions, st) := visitActions map st actions
      (⟨a.name, params, a.body.mapCalls (deleteArgs map)⟩ :: actions, st)

/-- `preorder(IR::P4Control*)`. -/
def visitControl (skipDecl : List N) (map : LocMap N) (C : Control N O) :
    Control N O × LocMap N :=
  if C.name ∈ skipDecl then ({ C with body := C.body.mapCalls (deleteArgs map) }, map)
  else
    let (params, st) := visitParameterList (fun x => x ∈ C.refs) ⟨[], []⟩ C.params
    let (actions, st) := visitActions map st C.actions
    ({ C with
        params := params
        actions := actions
        body := C.body.mapCalls (deleteArgs map) },
      if st.unusedParamLocations = [] then map
      else map ++ [(C.name, st.unusedParamLocations)])

/-- The controls of a program, in order. -/
def visitControls (skipDecl : List N) : LocMap N → Program N O → Program N O
  | _, [] => []
  | map, C :: cs =>
      (visitControl skipDecl map C).1 ::
        visitControls skipDecl (visitControl skipDecl map C).2 cs

/-- `RemoveUnusedApplyParams`. -/
def removeUnusedApplyParams (skipDecl : List N) (P : Program N O) : Program N O :=
  visitControls skipDecl [] P

/-! ## All rounds -/

/-- What `TypeInference` checks of the calls: each has as many arguments as there are
parameters. -/
def ArityOk (P : Program N O) : Prop :=
  ∀ C ∈ P, ∀ call ∈ C.calls, ∀ D ∈ P, D.name = call.1 → call.2.length = D.params.length

instance (P : Program N O) : Decidable (ArityOk P) :=
  inferInstanceAs (Decidable
    (∀ C ∈ P, ∀ call ∈ C.calls, ∀ D ∈ P, D.name = call.1 → call.2.length = D.params.length))

/-- `RmUnusedApplyParams`, for at most `n` rounds: rounds until nothing changes.  An error of
the type inference ends them. -/
def rmUnusedApplyParams (skipDecl : List N) : (n : ℕ) → Program N O → Program N O
  | 0, P => P
  | n + 1, P =>
      if ArityOk P then
        if removeUnusedApplyParams skipDecl P = P then P
        else rmUnusedApplyParams skipDecl n (removeUnusedApplyParams skipDecl P)
      else P

/-! ## Running programs -/

section Running

variable {E : Type} (I : Interp N O E)

/-- The actions of a control.  An action may call those in front of it. -/
def actionEnv (ctrls : N → Option (Callee N E)) (keys : N → List (Expr N O)) :
    (acts : N → Option (Callee N E)) → List (Action N O) → N → Option (Callee N E)
  | acts, [] => acts
  | acts, a :: actions =>
      actionEnv ctrls keys
        (Function.update acts a.name (some ⟨a.params, a.body.exec I ctrls acts keys⟩)) actions

/-- The key of a table. -/
def Control.keys (C : Control N O) (t : N) : List (Expr N O) :=
  ((C.tables.find? fun table => table.name = t).map Table.key).getD []

/-- What a control does, in its frame. -/
def Control.run (ctrls : N → Option (Callee N E)) (C : Control N O) :
    CopyInCopyOut.Rel N E :=
  C.body.exec I ctrls (actionEnv I ctrls C.keys (fun _ => none) C.actions) C.keys

/-- The controls of a program.  A control may call those in front of it. -/
def controlEnv : (ctrls : N → Option (Callee N E)) → Program N O → N → Option (Callee N E)
  | ctrls, [] => ctrls
  | ctrls, C :: cs =>
      controlEnv (Function.update ctrls C.name (some ⟨C.params, C.run I ctrls⟩)) cs

/-- What the controls of a program do. -/
def Program.behaviour (P : Program N O) : N → Option (Callee N E) :=
  controlEnv I (fun _ => none) P

end Running

end Flattening
end MicroP4
