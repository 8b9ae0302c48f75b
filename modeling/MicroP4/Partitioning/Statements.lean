import MicroP4.Foundations.SplitCall

/-!
# Statements of a control

The statements that `SlicePipeControl` goes through: blocks, `if` and `switch` statements with
optional branches, calls of other controls, and the statements without statements in them.  What
these do is the language of calls by copy-in and copy-out; a condition may apply a table or call
something outside.
-/

namespace MicroP4
namespace Partitioning

open CopyInCopyOut

variable {N O E : Type}

/-! ## Syntax -/

/-- A statement without statements in it. -/
inductive Simple (N O : Type) where
  | assign (l : Place N) (e : Expr N O)
  | method (f : O) (ins : List (Expr N O)) (outs : List (Place N))
  | table (t : N)
  | action (a : N) (args : List (Arg N O))

/-- A condition: an expression, whether a table has a match when it is applied, or the result of
a call. -/
inductive Condition (N O : Type) where
  | expr (e : Expr N O)
  | hit (t : N)
  | method (f : O) (ins : List (Expr N O))

/-- Statements.  A branch or the statement of a case may be missing; a case without a label is the
default. -/
inductive Statement (N O : Type) where
  | simple (s : Simple N O)
  | apply (c : N) (args : List (Arg N O))
  | block (components : List (Statement N O))
  | ifStatement (c : Condition N O) (ifTrue : Statement N O) (ifFalse : Option (Statement N O))
  | switchStatement (t : N) (cases : List (Option N × Option (Statement N O)))

def Simple.stmt : Simple N O → Stmt N O
  | .assign l e => .assign l e
  | .method f ins outs => .method f ins outs
  | .table t => .table t
  | .action a args => .action a args

/-- What a condition does before it has a value. -/
def Condition.stmt : Condition N O → Stmt N O
  | .expr e => .cond e .skip .skip
  | .hit t => .table t
  | .method f ins => .method f ins []

mutual

/-- The statements and conditions in a statement. -/
def Statement.leaves : Statement N O → List (Stmt N O)
  | .simple s => [s.stmt]
  | .apply c args => [.apply c args]
  | .block l => leavesOf l
  | .ifStatement c t f => c.stmt :: (t.leaves ++ leavesOfOption f)
  | .switchStatement t cases => .table t :: leavesOfCases cases

def leavesOf : List (Statement N O) → List (Stmt N O)
  | [] => []
  | s :: l => s.leaves ++ leavesOf l

def leavesOfOption : Option (Statement N O) → List (Stmt N O)
  | none => []
  | some s => s.leaves

def leavesOfCases : List (Option N × Option (Statement N O)) → List (Stmt N O)
  | [] => []
  | (_, s) :: cases => leavesOfOption s ++ leavesOfCases cases

end

/-! ## Running statements -/

section Exec

variable [DecidableEq N] (I : Interp N O E) (ctrls acts : N → Option (Callee N E))
  (keys : N → List (Expr N O))

/-- The value of a condition. -/
def Condition.test (σ : Frame N) (e : E) : Condition N O → Bool
  | .expr r => I.holds (r.eval I σ)
  | .hit t => (I.select t ((keys t).map (Expr.eval I σ))).isSome
  | .method f ins => I.holds ((I.method f (ins.map (Expr.eval I σ)) e).1.headD (.bits 0))

/-- The action a table runs. -/
def actionRun (σ : Frame N) (t : N) : Option N :=
  (I.select t ((keys t).map (Expr.eval I σ))).map Prod.fst

mutual

def Statement.exec : Statement N O → CopyInCopyOut.Rel N E
  | .simple s => s.stmt.exec I ctrls acts keys
  | .apply c args => (Stmt.apply c args).exec I ctrls acts keys
  | .block l => execOf l
  | .ifStatement c t f => fun σ e σ' e' => ∃ τ d, c.stmt.exec I ctrls acts keys σ e τ d ∧
      if c.test I keys σ e then t.exec τ d σ' e' else execOfOption f τ d σ' e'
  | .switchStatement t cases => fun σ e σ' e' => ∃ τ d,
      (Stmt.table t).exec I ctrls acts keys σ e τ d ∧
        execOfCases (actionRun I keys σ t) cases τ d σ' e'

def execOf : List (Statement N O) → CopyInCopyOut.Rel N E
  | [] => fun σ e σ' e' => σ' = σ ∧ e' = e
  | s :: l => fun σ e σ' e' => ∃ τ d, s.exec σ e τ d ∧ execOf l τ d σ' e'

def execOfOption : Option (Statement N O) → CopyInCopyOut.Rel N E
  | none => fun σ e σ' e' => σ' = σ ∧ e' = e
  | some s => s.exec

/-- The cases of a `switch` for the action that was run. -/
def execOfCases (a : Option N) : List (Option N × Option (Statement N O)) → CopyInCopyOut.Rel N E
  | [] => fun σ e σ' e' => σ' = σ ∧ e' = e
  | (l, some s) :: cases => if l = none ∨ l = a then s.exec else execOfCases a cases
  | (l, none) :: cases => if l = none ∨ l = a then execFrom cases else execOfCases a cases

/-- A case without a statement falls through to the next one. -/
def execFrom : List (Option N × Option (Statement N O)) → CopyInCopyOut.Rel N E
  | [] => fun σ e σ' e' => σ' = σ ∧ e' = e
  | (_, some s) :: _ => s.exec
  | (_, none) :: cases => execFrom cases

end

theorem execOf_append : ∀ l l' : List (Statement N O),
    execOf I ctrls acts keys (l ++ l')
      = (execOf I ctrls acts keys l).andThen (execOf I ctrls acts keys l')
  | [], l' => by
      funext σ e σ' e'
      refine propext ⟨fun h => ⟨σ, e, ⟨rfl, rfl⟩, h⟩, ?_⟩
      rintro ⟨_, _, ⟨rfl, rfl⟩, h⟩
      exact h
  | s :: l, l' => by
      funext σ e σ' e'
      rw [List.cons_append, execOf, execOf_append l l']
      refine propext ⟨?_, ?_⟩
      · rintro ⟨τ, d, hs, μ, c, hl, hl'⟩
        exact ⟨μ, c, ⟨τ, d, hs, hl⟩, hl'⟩
      · rintro ⟨μ, c, ⟨τ, d, hs, hl⟩, hl'⟩
        exact ⟨τ, d, hs, μ, c, hl, hl'⟩

end Exec

/-! ## Moving variables -/

def Simple.under (loc : N → Place N) : Simple N O → Simple N O
  | .assign l e => .assign (l.under loc) (e.under loc)
  | .method f ins outs => .method f (ins.map (Expr.under loc)) (outs.map (Place.under loc))
  | .table t => .table t
  | .action a args => .action a (args.map (Arg.under loc))

def Condition.under (loc : N → Place N) : Condition N O → Condition N O
  | .expr e => .expr (e.under loc)
  | .hit t => .hit t
  | .method f ins => .method f (ins.map (Expr.under loc))

mutual

/-- A statement with its variables at other places. -/
def Statement.under (loc : N → Place N) : Statement N O → Statement N O
  | .simple s => .simple (s.under loc)
  | .apply c args => .apply c (args.map (Arg.under loc))
  | .block l => .block (underOf loc l)
  | .ifStatement c t f => .ifStatement (c.under loc) (t.under loc) (underOfOption loc f)
  | .switchStatement t cases => .switchStatement t (underOfCases loc cases)

def underOf (loc : N → Place N) : List (Statement N O) → List (Statement N O)
  | [] => []
  | s :: l => s.under loc :: underOf loc l

def underOfOption (loc : N → Place N) : Option (Statement N O) → Option (Statement N O)
  | none => none
  | some s => some (s.under loc)

def underOfCases (loc : N → Place N) :
    List (Option N × Option (Statement N O)) → List (Option N × Option (Statement N O))
  | [] => []
  | (l, s) :: cases => (l, underOfOption loc s) :: underOfCases loc cases

end

theorem stmt_under (loc : N → Place N) : ∀ s : Simple N O, (s.under loc).stmt = s.stmt.under loc
  | .assign _ _ | .method _ _ _ | .table _ | .action _ _ => rfl

theorem Condition.stmt_under (loc : N → Place N) : ∀ c : Condition N O,
    (c.under loc).stmt = c.stmt.under loc
  | .expr _ | .hit _ | .method _ _ => rfl

@[simp] theorem Simple.under_ofVar : ∀ s : Simple N O, s.under Place.ofVar = s
  | .assign l e => by rw [Simple.under, Expr.under_ofVar, Place.under_ofVar]
  | .method f ins outs => by
      rw [Simple.under, List.map_id'' Expr.under_ofVar, List.map_id'' Place.under_ofVar]
  | .table t => rfl
  | .action a args => by rw [Simple.under, List.map_id'' Arg.under_ofVar]

@[simp] theorem Condition.under_ofVar : ∀ c : Condition N O, c.under Place.ofVar = c
  | .expr e => by rw [Condition.under, Expr.under_ofVar]
  | .hit t => rfl
  | .method f ins => by rw [Condition.under, List.map_id'' Expr.under_ofVar]

mutual

@[simp] theorem Statement.under_ofVar : ∀ s : Statement N O, s.under Place.ofVar = s
  | .simple s => by rw [Statement.under, Simple.under_ofVar]
  | .apply c args => by rw [Statement.under, List.map_id'' Arg.under_ofVar]
  | .block l => by rw [Statement.under, underOf_ofVar]
  | .ifStatement c t f => by
      rw [Statement.under, Condition.under_ofVar, Statement.under_ofVar t, underOfOption_ofVar]
  | .switchStatement t cases => by rw [Statement.under, underOfCases_ofVar]

theorem underOf_ofVar : ∀ l : List (Statement N O), underOf Place.ofVar l = l
  | [] => rfl
  | s :: l => by rw [underOf, Statement.under_ofVar s, underOf_ofVar l]

theorem underOfOption_ofVar : ∀ s : Option (Statement N O), underOfOption Place.ofVar s = s
  | none => rfl
  | some s => by rw [underOfOption, Statement.under_ofVar s]

theorem underOfCases_ofVar : ∀ cases : List (Option N × Option (Statement N O)),
    underOfCases Place.ofVar cases = cases
  | [] => rfl
  | (l, s) :: cases => by rw [underOfCases, underOfOption_ofVar s, underOfCases_ofVar cases]

end

mutual

theorem Statement.leaves_under (loc : N → Place N) : ∀ s : Statement N O,
    (s.under loc).leaves = s.leaves.map (Stmt.under loc)
  | .simple s => by rw [Statement.under, Statement.leaves, stmt_under]; rfl
  | .apply c args => rfl
  | .block l => leavesOf_under loc l
  | .ifStatement c t f => by
      rw [Statement.under, Statement.leaves, Statement.leaves, Condition.stmt_under,
        Statement.leaves_under loc t, leavesOfOption_under loc f, List.map_cons, List.map_append]
  | .switchStatement t cases => by
      rw [Statement.under, Statement.leaves, Statement.leaves, leavesOfCases_under loc cases,
        List.map_cons]
      rfl

theorem leavesOf_under (loc : N → Place N) : ∀ l : List (Statement N O),
    leavesOf (underOf loc l) = (leavesOf l).map (Stmt.under loc)
  | [] => rfl
  | s :: l => by
      rw [underOf, leavesOf, leavesOf, Statement.leaves_under loc s, leavesOf_under loc l,
        List.map_append]

theorem leavesOfOption_under (loc : N → Place N) : ∀ s : Option (Statement N O),
    leavesOfOption (underOfOption loc s) = (leavesOfOption s).map (Stmt.under loc)
  | none => rfl
  | some s => Statement.leaves_under loc s

theorem leavesOfCases_under (loc : N → Place N) :
    ∀ cases : List (Option N × Option (Statement N O)),
    leavesOfCases (underOfCases loc cases) = (leavesOfCases cases).map (Stmt.under loc)
  | [] => rfl
  | (l, s) :: cases => by
      rw [underOfCases, leavesOfCases, leavesOfCases, leavesOfOption_under loc s,
        leavesOfCases_under loc cases, List.map_append]

end

section Bisim

variable [DecidableEq N] (I : Interp N O E) {loc : N → Place N} {V : Set N}
  {ctrls acts ctrls' acts' : N → Option (Callee N E)} {keys keys' : N → List (Expr N O)}

/-- All that some statements name stays in step. -/
def Alike (loc : N → Place N) (V : Set N) (ctrls acts : N → Option (Callee N E))
    (keys : N → List (Expr N O)) (ctrls' acts' : N → Option (Callee N E))
    (keys' : N → List (Expr N O)) (leaves : List (Stmt N O)) : Prop :=
  ∀ l ∈ leaves, ∀ r ∈ l.names, RefAlike I loc V ctrls acts keys ctrls' acts' keys' r

omit [DecidableEq N] in
theorem Condition.test_under {σ τ : Frame N} (h : Located loc V σ τ) (e : E) :
    ∀ {c : Condition N O}, Alike I loc V ctrls acts keys ctrls' acts' keys' [c.stmt] →
    (c.under loc).test I keys' τ e = c.test I keys σ e
  | .expr r, hc => by
      have hr := List.forall_mem_singleton.mp hc
      rw [Condition.stmt, Stmt.names, List.forall_mem_append] at hr
      rw [Condition.under, Condition.test, Condition.test, h.eval_under I (refs_of_names hr.1)]
  | .hit t, hc => by
      obtain ⟨hkeys, hrefs, -⟩ := List.forall_mem_singleton.mp hc _ (List.mem_singleton_self _)
      rw [Condition.under, Condition.test, Condition.test, hkeys, h.map_eval_under I hrefs]
  | .method f ins, hc => by
      have hr := List.forall_mem_singleton.mp hc
      rw [Condition.stmt, Stmt.names, List.forall_mem_append] at hr
      rw [Condition.under, Condition.test, Condition.test, h.map_eval_under I fun r hmem =>
        refs_of_names fun n hn => hr.1 n (List.mem_flatMap.mpr ⟨r, hmem, hn⟩)]

mutual

/-- **A statement and its rewriting stay in step.** -/
theorem Statement.exec_bisim (hsep : Separate loc V) : ∀ s : Statement N O,
    Alike I loc V ctrls acts keys ctrls' acts' keys' s.leaves →
    Bisim (Located loc V) (s.exec I ctrls acts keys) ((s.under loc).exec I ctrls' acts' keys')
  | .simple s, h => by
      rw [Statement.under, Statement.exec, Statement.exec, stmt_under]
      exact CopyInCopyOut.exec_bisim I hsep (h _ (List.mem_singleton_self _))
  | .apply c args, h => by
      rw [Statement.under, Statement.exec, Statement.exec]
      exact CopyInCopyOut.exec_bisim I hsep (h _ (List.mem_singleton_self _))
  | .block l, h => by
      rw [Statement.under, Statement.exec, Statement.exec]
      exact execOf_bisim hsep l h
  | .ifStatement c t f, h => by
      rw [Alike, Statement.leaves, List.forall_mem_cons, List.forall_mem_append] at h
      obtain ⟨hc, ht, hf⟩ := h
      have hcond : Bisim (Located loc V) (c.stmt.exec I ctrls acts keys)
          ((c.stmt.under loc).exec I ctrls' acts' keys') := CopyInCopyOut.exec_bisim I hsep hc
      have htrue := Statement.exec_bisim hsep t ht
      have hfalse := execOfOption_bisim hsep f hf
      intro σ τ hρ e e'
      have htest : (c.under loc).test I keys' τ e = c.test I keys σ e :=
        Condition.test_under I hρ e (List.forall_mem_singleton.mpr hc)
      simp only [Statement.under, Statement.exec, Condition.stmt_under, htest]
      cases c.test I keys σ e with
      | true => exact (hcond.seq htrue) σ τ hρ e e'
      | false => exact (hcond.seq hfalse) σ τ hρ e e'
  | .switchStatement t cases, h => by
      rw [Alike, Statement.leaves, List.forall_mem_cons] at h
      obtain ⟨ht, hcases⟩ := h
      have htable : Bisim (Located loc V) ((Stmt.table t).exec I ctrls acts keys)
          ((Stmt.table t).exec I ctrls' acts' keys') := CopyInCopyOut.exec_bisim I hsep ht
      intro σ τ hρ e e'
      obtain ⟨hkeys, hrefs, -⟩ := ht _ (List.mem_singleton_self _)
      have hrun : actionRun I keys' τ t = actionRun I keys σ t := by
        rw [actionRun, actionRun, hkeys, hρ.map_eval_under I hrefs]
      simp only [Statement.under, Statement.exec, hrun]
      exact (htable.seq (execOfCases_bisim hsep (actionRun I keys σ t) cases hcases)) σ τ hρ e e'

theorem execOf_bisim (hsep : Separate loc V) : ∀ l : List (Statement N O),
    Alike I loc V ctrls acts keys ctrls' acts' keys' (leavesOf l) →
    Bisim (Located loc V) (execOf I ctrls acts keys l) (execOf I ctrls' acts' keys' (underOf loc l))
  | [], _ => Bisim.skip
  | s :: l, h => by
      rw [Alike, leavesOf, List.forall_mem_append] at h
      exact (Statement.exec_bisim hsep s h.1).seq (execOf_bisim hsep l h.2)

theorem execOfOption_bisim (hsep : Separate loc V) : ∀ s : Option (Statement N O),
    Alike I loc V ctrls acts keys ctrls' acts' keys' (leavesOfOption s) →
    Bisim (Located loc V) (execOfOption I ctrls acts keys s)
      (execOfOption I ctrls' acts' keys' (underOfOption loc s))
  | none, _ => Bisim.skip
  | some s, h => Statement.exec_bisim hsep s h

theorem execOfCases_bisim (hsep : Separate loc V) (a : Option N) :
    ∀ cases : List (Option N × Option (Statement N O)),
    Alike I loc V ctrls acts keys ctrls' acts' keys' (leavesOfCases cases) →
    Bisim (Located loc V) (execOfCases I ctrls acts keys a cases)
      (execOfCases I ctrls' acts' keys' a (underOfCases loc cases))
  | [], _ => Bisim.skip
  | (l, some s) :: cases, h => by
      rw [Alike, leavesOfCases, List.forall_mem_append] at h
      rw [underOfCases, underOfOption, execOfCases, execOfCases]
      split
      · exact Statement.exec_bisim hsep s h.1
      · exact execOfCases_bisim hsep a cases h.2
  | (l, none) :: cases, h => by
      rw [Alike, leavesOfCases, List.forall_mem_append] at h
      rw [underOfCases, underOfOption, execOfCases, execOfCases]
      split
      · exact execFrom_bisim hsep cases h.2
      · exact execOfCases_bisim hsep a cases h.2

theorem execFrom_bisim (hsep : Separate loc V) :
    ∀ cases : List (Option N × Option (Statement N O)),
    Alike I loc V ctrls acts keys ctrls' acts' keys' (leavesOfCases cases) →
    Bisim (Located loc V) (execFrom I ctrls acts keys cases)
      (execFrom I ctrls' acts' keys' (underOfCases loc cases))
  | [], _ => Bisim.skip
  | (_, some s) :: cases, h => by
      rw [Alike, leavesOfCases, List.forall_mem_append] at h
      exact Statement.exec_bisim hsep s h.1
  | (_, none) :: cases, h => by
      rw [Alike, leavesOfCases, List.forall_mem_append] at h
      exact execFrom_bisim hsep cases h.2

end

end Bisim

/-! ## Variables that keep their value -/

section Keeps

variable [DecidableEq N] (I : Interp N O E) {ctrls acts : N → Option (Callee N E)}
  {keys : N → List (Expr N O)} {x : N}

mutual

/-- A statement keeps what the statements and conditions in it keep. -/
theorem Statement.exec_keeps : ∀ s : Statement N O,
    (∀ l ∈ s.leaves, (l.exec I ctrls acts keys).Keeps x) → (s.exec I ctrls acts keys).Keeps x
  | .simple s, h => h _ (List.mem_singleton_self _)
  | .apply c args, h => h _ (List.mem_singleton_self _)
  | .block l, h => execOf_keeps l h
  | .ifStatement c t f, h => by
      rw [Statement.leaves, List.forall_mem_cons, List.forall_mem_append] at h
      obtain ⟨hc, ht, hf⟩ := h
      rintro σ e σ' e' ⟨τ, d, hrun, hbranch⟩
      rw [← hc _ _ _ _ hrun]
      split at hbranch
      · exact Statement.exec_keeps t ht _ _ _ _ hbranch
      · exact execOfOption_keeps f hf _ _ _ _ hbranch
  | .switchStatement t cases, h => by
      rw [Statement.leaves, List.forall_mem_cons] at h
      rintro σ e σ' e' ⟨τ, d, hrun, hcases⟩
      rw [← h.1 _ _ _ _ hrun]
      exact execOfCases_keeps _ cases h.2 _ _ _ _ hcases

theorem execOf_keeps : ∀ l : List (Statement N O),
    (∀ s ∈ leavesOf l, (s.exec I ctrls acts keys).Keeps x) → (execOf I ctrls acts keys l).Keeps x
  | [], _ => fun _ _ _ _ hrun => by rw [hrun.1]
  | s :: l, h => by
      rw [leavesOf, List.forall_mem_append] at h
      rintro σ e σ' e' ⟨τ, d, hs, hl⟩
      exact (execOf_keeps l h.2 _ _ _ _ hl).trans (Statement.exec_keeps s h.1 _ _ _ _ hs)

theorem execOfOption_keeps : ∀ s : Option (Statement N O),
    (∀ l ∈ leavesOfOption s, (l.exec I ctrls acts keys).Keeps x) →
    (execOfOption I ctrls acts keys s).Keeps x
  | none, _ => fun _ _ _ _ hrun => by rw [hrun.1]
  | some s, h => Statement.exec_keeps s h

theorem execOfCases_keeps (a : Option N) : ∀ cases : List (Option N × Option (Statement N O)),
    (∀ l ∈ leavesOfCases cases, (l.exec I ctrls acts keys).Keeps x) →
    (execOfCases I ctrls acts keys a cases).Keeps x
  | [], _ => fun _ _ _ _ hrun => by rw [hrun.1]
  | (l, some s) :: cases, h => by
      rw [leavesOfCases, List.forall_mem_append] at h
      rw [execOfCases]
      split
      · exact Statement.exec_keeps s h.1
      · exact execOfCases_keeps a cases h.2
  | (l, none) :: cases, h => by
      rw [leavesOfCases, List.forall_mem_append] at h
      rw [execOfCases]
      split
      · exact execFrom_keeps cases h.2
      · exact execOfCases_keeps a cases h.2

theorem execFrom_keeps : ∀ cases : List (Option N × Option (Statement N O)),
    (∀ l ∈ leavesOfCases cases, (l.exec I ctrls acts keys).Keeps x) →
    (execFrom I ctrls acts keys cases).Keeps x
  | [], _ => fun _ _ _ _ hrun => by rw [hrun.1]
  | (_, some s) :: cases, h => by
      rw [leavesOfCases, List.forall_mem_append] at h
      exact Statement.exec_keeps s h.1
  | (_, none) :: cases, h => by
      rw [leavesOfCases, List.forall_mem_append] at h
      exact execFrom_keeps cases h.2

end

end Keeps

/-! ## Controls -/

/-- A declaration in a control.  An instance has the name of the type of another control. -/
inductive Decl (N O : Type) where
  | variable (x : N) (type : Shape N)
  | action (a : N) (params : List (Param N)) (body : List (Statement N O))
  | table (t : N) (keys : List (Expr N O)) (actions : List N)
  | instance (c : N) (type : N)

def Decl.name : Decl N O → N
  | .variable x _ | .action x _ _ | .table x _ _ | .instance x _ => x

/-- What a declaration names. -/
def Decl.names : Decl N O → List (Ref N)
  | .variable _ _ => []
  | .action _ _ body => (leavesOf body).flatMap Stmt.names
  | .table _ keys actions => keys.flatMap Expr.names ++ actions.map .action
  | .instance _ _ => []

/-- `getDeclaration`. -/
def getDeclaration [DecidableEq N] (locals : List (Decl N O)) (n : N) : Option (Decl N O) :=
  locals.find? fun d => d.name = n

/-- A control.  `csaPacket` tells whether its first parameter is the packet struct, as in the
parsers and deparsers that were converted. -/
structure Control (N O : Type) where
  params : List (Param N)
  csaPacket : Bool
  controlLocals : List (Decl N O)
  body : List (Statement N O)

section Env

variable [DecidableEq N] (I : Interp N O E) (program : N → Option (Callee N E))
  (locals : List (Decl N O))

/-- The actions of a control.  In the body of an action nothing else is called. -/
def actsOf (a : N) : Option (Callee N E) :=
  match getDeclaration locals a with
  | some (.action _ params body) =>
      some ⟨params, execOf I (fun _ => none) (fun _ => none) (fun _ => []) body⟩
  | _ => none

/-- The keys of the tables of a control. -/
def keysOf (t : N) : List (Expr N O) :=
  match getDeclaration locals t with
  | some (.table _ keys _) => keys
  | _ => []

/-- The controls that have instances in a control. -/
def ctrlsOf (c : N) : Option (Callee N E) :=
  match getDeclaration locals c with
  | some (.instance _ type) => program type
  | _ => none

/-- The types of the variables of a control. -/
def typesOf (x : N) : Shape N :=
  match getDeclaration locals x with
  | some (.variable _ type) => type
  | _ => .any

/-- The variables of a control. -/
def variablesOf : List N :=
  locals.filterMap fun d => match d with
    | .variable x _ => some x
    | _ => none

/-- What some statements do in a control. -/
def runIn (l : List (Statement N O)) : CopyInCopyOut.Rel N E :=
  execOf I (ctrlsOf program locals) (actsOf I locals) (keysOf locals) l

end Env

/-- A control as something that is called. -/
def Control.callee [DecidableEq N] (I : Interp N O E) (program : N → Option (Callee N E))
    (c : Control N O) : Callee N E :=
  ⟨c.params, (runIn I program c.controlLocals c.body).initially (typesOf c.controlLocals)
    (variablesOf c.controlLocals)⟩

end Partitioning
end MicroP4
