import MicroP4.Partitioning.AllPartitions
import MicroP4.Partitioning.Declarations

/-!
# Slicing a control

`SlicePipeControl` looks for the first call that the pipeline does not allow, and cuts the body of
the control in front of it.  A block is cut at the statement where the cut is; what is in front of
it goes to the first half, and the rest to the second one.  A call of a control that is cut itself
becomes a call of its first half, and one of its second half.  The traversal keeps the first half
of the statement it comes from in `slicedHalf`, and what belongs to the second half in
`newStmtVec`.

A cut under a condition is not handled like this.  A block that is cut is visited to no statement:
as the branch of an `if` without one the compiler stops, as the other branch it is gone.

The first half of a converted package ends with the call of a deparser, and the second one starts
with the call of a parser, which read the packet again.
-/

namespace MicroP4
namespace Partitioning

open CopyInCopyOut

variable {N O : Type}

/-- `processExternMethodCall`: whether a call must not be in the pipeline. -/
def processExternMethodCall (partitionState : ControlConstraintStates)
    (originalExternType method : String) : Bool :=
  match partitionState with
  | .rwImR => (originalExternType = "im_t" && method = "get_value") ||
      (originalExternType = "multicast_engine" && method = "apply")
  | .rEmR => originalExternType = "im_t" && method = "set_out_port"

/-- What is made for a converted package that `controlToReconInfoMap` has: the deparser whose call
is appended to the first half, the parser whose call is put in front of the second one, and the
variables that each half declares for itself. -/
structure ReconCalls (N O : Type) where
  deparserInst : N
  deparser : N
  deparserArgs : List (Arg N O)
  parserInst : N
  parser : N
  parserArgs : List (Arg N O)
  replicateDecls : List N

/-- The instances for the calls. -/
def ReconCalls.decls (r : ReconCalls N O) : List (Decl N O) :=
  [.instance r.deparserInst r.deparser, .instance r.parserInst r.parser]

/-- The names and symbols of the code that is made, the variable that tells a converted package,
and what `controlToReconInfoMap` has for the control. -/
structure SliceNames (N O : Type) where
  sharedStructInstArgName : N
  ifField : ℕ → N
  const : ℕ → O
  equ : O
  intermediateCSAPacketHeaderInst : N
  reconCalls : Option (ReconCalls N O)

/-- A control that was cut, as its caller sees it: the variable for the shared struct with its
type, and the instances of the halves with their types. -/
structure ApplySplit (N : Type) where
  varName : N
  structType : Shape N
  inst₁ : N
  type₁ : N
  inst₂ : N
  type₂ : N

/-- The members of the traversal. -/
structure SliceState (N O : Type) where
  slice : Bool
  slicedHalf : Option (Statement N O)
  newStmtVec : List (Statement N O)
  ifVarIndex : ℕ
  newFieldsInfo : List (N × ℕ)
  splits : List (ApplySplit N)

def SliceState.initial : SliceState N O := ⟨false, none, [], 0, [], []⟩

/-- `appendStatement`.  What is not a block gets lost: the block it is put into is another one
than the one that is returned. -/
def appendStatement (currStmt : Statement N O) : Option (Statement N O) → Statement N O
  | none => currStmt
  | some inStmt =>
      match currStmt with
      | .block components => .block (components ++ [inStmt])
      | _ => .block []

/-- A statement makes a call that must not be in the pipeline. -/
def Simple.cuts (cut : O → Bool) : Simple N O → Bool
  | .method f _ _ => cut f
  | _ => false

def Condition.cuts (cut : O → Bool) : Condition N O → Bool
  | .method f _ => cut f
  | _ => false

section Visit

variable (names : SliceNames N O) (cut : O → Bool) (callee : N → Option (ApplySplit N))

/-- `getFieldNameForSlice`, for the `if` statements: the field has two bits for three values. -/
def SliceState.addField (st : SliceState N O) : SliceState N O :=
  { st with
    ifVarIndex := st.ifVarIndex + 1
    newFieldsInfo := st.newFieldsInfo ++ [(names.ifField st.ifVarIndex, 2)] }

/-- A field of the shared struct. -/
def SliceNames.field (f : N) : Place N := ⟨names.sharedStructInstArgName, [f]⟩

/-- `createAssignmentStatement`. -/
def createAssignmentStatement (f : N) (value : ℕ) : Statement N O :=
  .simple (.assign (names.field f) (.lit (names.const value)))

/-- `createIfStatement`. -/
def createIfStatement (f : N) (rv : ℕ) (ifTrue : Statement N O) : Statement N O :=
  .ifStatement (.expr (.op names.equ (.place (names.field f)) (.lit (names.const rv)))) ifTrue none

/-- Taking the statements of the second half off again, the last one first. -/
def SliceState.popTo (st : SliceState N O) (size : ℕ) : List (Statement N O) :=
  (st.newStmtVec.drop size).reverse

/-- The statements after a branch that was cut. -/
def SliceState.pushIf (st : SliceState N O) (size : ℕ) (f : N) (rv : ℕ) : SliceState N O :=
  { st with
    newStmtVec := st.newStmtVec.take size ++
      [createIfStatement names f rv (.block (st.popTo size))] }

/-- `preorder(MethodCallExpression)` on the call of a control that is cut. -/
def SliceState.splitApply (st : SliceState N O) (s : ApplySplit N) (args : List (Arg N O)) :
    Statement N O × SliceState N O :=
  let newArgs := args ++ [⟨none, .place (.ofVar s.varName)⟩]
  (.apply s.inst₁ newArgs,
    { st with
      slice := true
      slicedHalf := some (.apply s.inst₁ newArgs)
      newStmtVec := st.newStmtVec ++ [.apply s.inst₂ newArgs]
      splits := st.splits ++ [s] })

/-- The end of `preorder(BlockStatement)`: the statements of the first half, and the rest. -/
def SliceState.endBlock (st : SliceState N O) (size : ℕ) (returnStmt rest : List (Statement N O)) :
    Option (Statement N O) × SliceState N O :=
  if st.slice then
    (none, { st with
      newStmtVec := st.newStmtVec.take size ++ [.block (st.popTo size ++ rest)]
      slicedHalf := some (.block returnStmt) })
  else (some (.block returnStmt), st)

/-- The end of `preorder(IfStatement)`, with the branches that are left.  An `if` without its
first branch does not pass `validate`. -/
def SliceState.endIf (st : SliceState N O) (c : Condition N O) (ifTrue : Option (Statement N O))
    (ifFalse : Option (Statement N O)) (ifAsStmt elseAsStmt : Option (Statement N O)) :
    Option (Option (Statement N O) × SliceState N O) :=
  match ifTrue with
  | none => none
  | some ifTrue =>
      if st.slice then
        some (none, { st with
          slicedHalf := some (.ifStatement c (appendStatement ifTrue ifAsStmt)
            (ifFalse.map fun s => appendStatement s elseAsStmt)) })
      else some (some (.ifStatement c ifTrue ifFalse), st)

mutual

/-- Visiting a statement: what takes its place, if anything does.  It fails where the compiler
stops. -/
def visit : Statement N O → SliceState N O → Option (Option (Statement N O) × SliceState N O)
  | .simple s, st => some (some (.simple s), if s.cuts cut then { st with slice := true } else st)
  | .apply c args, st =>
      match callee c with
      | none => some (some (.apply c args), st)
      | some s => some (some (st.splitApply s args).1, (st.splitApply s args).2)
  | .block components, st =>
      match visitComponents components { st with slice := false, slicedHalf := none } with
      | none => none
      | some (returnStmt, rest, st') => some (st'.endBlock st.newStmtVec.length returnStmt rest)
  | .ifStatement c ifTrue ifFalse, st =>
      if c.cuts cut then
        some (some (.ifStatement c ifTrue ifFalse), { st with slice := true, slicedHalf := none })
      else
        match visit ifTrue { st with slice := false } with
        | none => none
        | some (ifTrue', st₁) =>
            if st₁.slice then
              let f := names.ifField st₁.ifVarIndex
              let st₂ := (st₁.addField names).pushIf names st.newStmtVec.length f 1
              match visitOption ifFalse { st₂ with slice := false } with
              | none => none
              | some (ifFalse', st₃) =>
                  if st₃.slice then
                    (st₃.pushIf names st₂.newStmtVec.length f 2).endIf c ifTrue' ifFalse'
                      (some (createAssignmentStatement names f 1))
                      (some (createAssignmentStatement names f 2))
                  else
                    SliceState.endIf { st₃ with slice := true } c ifTrue' ifFalse'
                      (some (createAssignmentStatement names f 1)) none
            else
              match visitOption ifFalse st₁ with
              | none => none
              | some (ifFalse', st₂) =>
                  if st₂.slice then
                    let f := names.ifField st₂.ifVarIndex
                    ((st₂.addField names).pushIf names st₁.newStmtVec.length f 2).endIf c ifTrue'
                      ifFalse' none (some (createAssignmentStatement names f 2))
                  else st₂.endIf c ifTrue' ifFalse' none none
  | .switchStatement t cases, st =>
      match visitCases cases st with
      | none => none
      | some (cases', st') => some (some (.switchStatement t cases'), st')

/-- The loop of `preorder(BlockStatement)`: the statements that stay, those that are left when it
stops, and the members. -/
def visitComponents : List (Statement N O) → SliceState N O →
    Option (List (Statement N O) × List (Statement N O) × SliceState N O)
  | [], st => some ([], [], st)
  | s :: l, st =>
      match visit s st with
      | none => none
      | some (s', st') =>
          if st'.slice then
            match st'.slicedHalf with
            | some half => some ([half], l, { st' with slicedHalf := none })
            | none => some ([], s'.toList ++ l, st')
          else
            match visitComponents l st' with
            | none => none
            | some (returnStmt, rest, st'') => some (s'.toList ++ returnStmt, rest, st'')

def visitOption : Option (Statement N O) → SliceState N O →
    Option (Option (Statement N O) × SliceState N O)
  | none, st => some (none, st)
  | some s, st => visit s st

/-- The cases of a `switch`, one after the other. -/
def visitCases : List (Option N × Option (Statement N O)) → SliceState N O →
    Option (List (Option N × Option (Statement N O)) × SliceState N O)
  | [], st => some ([], st)
  | (l, s) :: cases, st =>
      match visitOption s st with
      | none => none
      | some (s', st') =>
          match visitCases cases st' with
          | none => none
          | some (cases', st'') => some ((l, s') :: cases', st'')

end

/-- Visiting the declarations.  The body of an action must stay. -/
def visitLocals : List (Decl N O) → SliceState N O → Option (SliceState N O)
  | [], st => some st
  | .action _ _ body :: locals, st =>
      match visit names cut callee (.block body) st with
      | some (some _, st') => visitLocals locals st'
      | _ => none
  | _ :: locals, st => visitLocals locals st

end Visit

/-! ## The two halves -/

/-- The bodies of the halves, and the declarations with those of the shared struct of a control
that is called in halves. -/
structure Slice (N O : Type) where
  part1Body : List (Statement N O)
  part2Body : List (Statement N O)
  controlLocals : List (Decl N O)
  newFieldsInfo : List (N × ℕ)

/-- The variable and the instances for a control that is called in halves. -/
def ApplySplit.decls (s : ApplySplit N) : List (Decl N O) :=
  [.variable s.varName s.structType, .instance s.inst₁ s.type₁, .instance s.inst₂ s.type₂]

/-- `to<IR::BlockStatement>()->components`. -/
def componentsOf : Option (Statement N O) → List (Statement N O)
  | some (.block l) => l
  | _ => []

/-- The traversal of a control: nothing if it is not cut. -/
def Control.traverse (names : SliceNames N O) (cut : O → Bool) (callee : N → Option (ApplySplit N))
    (c : Control N O) : Option (Option (Slice N O)) :=
  if c.csaPacket then some none
  else
    match visitLocals names cut callee c.controlLocals .initial with
    | none => none
    | some st =>
        match visit names cut callee (.block c.body) st with
        | none => none
        | some (_, st') =>
            some (if st'.slice then
              some ⟨componentsOf st'.slicedHalf, st'.newStmtVec,
                c.controlLocals ++ st'.splits.flatMap ApplySplit.decls, st'.newFieldsInfo⟩
            else none)

section SharedStruct

variable [DecidableEq N]

/-- `isConvertedCPackage`, after `preorder(Declaration_Variable)`. -/
def Control.isConvertedCPackage (names : SliceNames N O) (c : Control N O) : Bool :=
  c.controlLocals.any fun d =>
    d.isVariable && decide (d.name = names.intermediateCSAPacketHeaderInst)

/-- The calls that are made for a control. -/
def Control.reconCalls (names : SliceNames N O) (c : Control N O) : Option (ReconCalls N O) :=
  if c.isConvertedCPackage names then names.reconCalls else none

/-- The bodies with these calls, and the instances for them. -/
def Slice.reconstruct (s : Slice N O) (r : Option (ReconCalls N O)) : Slice N O :=
  r.elim s fun r =>
    { s with
      part1Body := s.part1Body ++ [.apply r.deparserInst r.deparserArgs]
      part2Body := .apply r.parserInst r.parserArgs :: s.part2Body
      controlLocals := s.controlLocals ++ r.decls }

/-- `GetUsedDeclarations::preorder(PathExpression)`: the declaration of a name comes behind those
that it uses, unless it is there.  Declarations that use one another would be visited forever. -/
def useName (locals : List (Decl N O)) : (fuel : ℕ) → List (Decl N O) → N →
    Option (List (Decl N O))
  | 0, _, _ => none
  | fuel + 1, usedDecls, n =>
      match getDeclaration locals n with
      | none => some usedDecls
      | some d =>
          if (getDeclaration usedDecls d.name).isSome then some usedDecls
          else ((d.names.map Ref.name).foldlM (useName locals fuel) usedDecls).map (· ++ [d])

/-- The declarations that some statements use. -/
def usedDeclarations (locals : List (Decl N O)) (l : List (Statement N O)) :
    Option (List (Decl N O)) :=
  ((namesOf l).map Ref.name).foldlM (useName locals (locals.length + 1)) []

/-- The declarations of a half.  `RereferenceDeclPathsToArg` moves what both use to the fields of
the parameter. -/
def halfLocals (arg : N) (shared : List N) (used : List (Decl N O)) : List (Decl N O) :=
  (used.filter fun d => d.name ∉ shared).map (Decl.under (moved shared arg))

/-- One of the halves. -/
def Control.half (params : List (Param N)) (arg : N) (shared : List N) (used : List (Decl N O))
    (body : List (Statement N O)) : Control N O where
  params := params ++ [⟨arg, .inout⟩]
  csaPacket := false
  controlLocals := halfLocals arg shared used
  body := underOf (moved shared arg) body

/-- `createSharedStructType`: the halves, and the fields of the struct.  An instance that both
use does not pass `BUG_CHECK`; an action or a table that both use is declared in neither of them,
so that the types of the halves cannot be inferred.  What is replicated stays in both. -/
def createSharedStructType (params : List (Param N)) (arg : N) (s : Slice N O)
    (replicateDecls : List N) : Option (Control N O × Control N O × List (N × Shape N)) :=
  match usedDeclarations s.controlLocals s.part1Body,
    usedDeclarations s.controlLocals s.part2Body with
  | some used₁, some used₂ =>
      let usedDecls := used₁.filter fun d =>
        (getDeclaration used₂ d.name).isSome && decide (d.name ∉ replicateDecls)
      if usedDecls.all Decl.isVariable then
        let shared := usedDecls.map Decl.name
        some (Control.half params arg shared used₁ s.part1Body,
          Control.half params arg shared used₂ s.part2Body,
          s.newFieldsInfo.map (fun f => (f.1, .any)) ++
            shared.map fun x => (x, typesOf s.controlLocals x))
      else none
  | _, _ => none

/-- `preorder(P4Control)`: the halves of a control, if it is cut. -/
def Control.slice (names : SliceNames N O) (cut : O → Bool)
    (callee : N → Option (ApplySplit N)) (c : Control N O) :
    Option (Option (Control N O × Control N O × List (N × Shape N))) :=
  match c.traverse names cut callee with
  | none => none
  | some none => some none
  | some (some s) =>
      (createSharedStructType c.params names.sharedStructInstArgName
        (s.reconstruct (c.reconCalls names))
        ((c.reconCalls names).elim [] ReconCalls.replicateDecls)).map some

end SharedStruct

end Partitioning
end MicroP4
