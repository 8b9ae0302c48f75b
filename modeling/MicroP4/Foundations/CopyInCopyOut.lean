import Mathlib.Data.List.Forall2
import Mathlib.Logic.Function.Basic

/-!
# Calls by copy-in and copy-out

A small language of statements that call one another.  Variables hold trees of fields, and a
place is a variable with a path of fields.  A call evaluates the arguments of the parameters
that carry values in, runs the callee in a frame of its own, and then copies the parameters
that carry values out to the places of their arguments, in the order of the parameters.  What
nothing has assigned is unspecified, so running a statement is a relation.

The two facts for changing calls are that a statement does not depend on variables that it
does not mention (`exec_ignores`), and that a parameter the callee does not mention can be
left out with its argument (`call_of_call_filter`).
-/

namespace MicroP4
namespace CopyInCopyOut

/-! ## Values and places -/

/-- A value: a number, or a tree of fields. -/
inductive Val (N : Type) where
  | bits (n : ℕ)
  | struct (fields : N → Val N)

/-- A variable with a path of fields. -/
structure Place (N : Type) where
  var : N
  path : List N
  deriving DecidableEq

/-- The values of the variables. -/
abbrev Frame (N : Type) := N → Val N

variable {N : Type} [DecidableEq N]

namespace Val

/-- The part of a value at a path. -/
def get : List N → Val N → Val N
  | [], v => v
  | f :: p, .struct fields => get p (fields f)
  | _ :: _, .bits _ => .bits 0

/-- A value with the part at a path replaced. -/
def set (w : Val N) : List N → Val N → Val N
  | [], _ => w
  | f :: p, .struct fields => .struct (Function.update fields f (set w p (fields f)))
  | _ :: _, .bits n => .bits n

theorem set_get : ∀ (p : List N) (v : Val N), set (get p v) p v = v
  | [], _ => rfl
  | f :: p, .struct fields => by
      rw [get, set, set_get p (fields f), Function.update_eq_self]
  | _ :: _, .bits _ => rfl

/-- Two paths of which neither goes through the other. -/
def Diverge (p q : List N) : Prop := ¬ p <+: q ∧ ¬ q <+: p

theorem get_set_of_diverge (w : Val N) : ∀ {p q : List N} (v : Val N), Diverge p q →
    get p (set w q v) = get p v
  | [], q, _, h => absurd (List.nil_prefix) h.1
  | _ :: _, [], _, h => absurd (List.nil_prefix) h.2
  | _ :: _, _ :: _, .bits _, _ => rfl
  | f :: p, g :: q, .struct fields, h => by
      rw [set, get, get]
      by_cases hfg : f = g
      · subst hfg
        rw [Function.update_self]
        refine get_set_of_diverge w (fields f) ⟨fun hp => h.1 ?_, fun hq => h.2 ?_⟩
        · exact List.cons_prefix_cons.mpr ⟨rfl, hp⟩
        · exact List.cons_prefix_cons.mpr ⟨rfl, hq⟩
      · rw [Function.update_of_ne hfg]

end Val

namespace Place

/-- The value at a place. -/
def get (l : Place N) (σ : Frame N) : Val N := (σ l.var).get l.path

/-- Assigning to a place. -/
def set (l : Place N) (w : Val N) (σ : Frame N) : Frame N :=
  Function.update σ l.var (Val.set w l.path (σ l.var))

/-- Places that do not overlap. -/
def Apart (l m : Place N) : Prop := l.var = m.var → Val.Diverge l.path m.path

theorem set_get (l : Place N) (σ : Frame N) : l.set (l.get σ) σ = σ := by
  rw [set, get, Val.set_get, Function.update_eq_self]

theorem get_set_of_apart {l m : Place N} (h : l.Apart m) (w : Val N) (σ : Frame N) :
    l.get (m.set w σ) = l.get σ := by
  rw [get, get, set]
  by_cases hvar : l.var = m.var
  · rw [hvar, Function.update_self]
    exact Val.get_set_of_diverge w (σ m.var) (h hvar)
  · rw [Function.update_of_ne hvar]

theorem set_update_of_ne {l : Place N} {x : N} (hx : l.var ≠ x) (w v : Val N) (σ : Frame N) :
    l.set w (Function.update σ x v) = Function.update (l.set w σ) x v := by
  rw [set, set, Function.update_of_ne hx]
  exact Function.update_comm hx.symm _ _ σ

end Place

/-! ## Statements -/

/-- Literals and operators are symbols `O`. -/
inductive Expr (N O : Type) where
  | lit (o : O)
  | place (l : Place N)
  | op (o : O) (a b : Expr N O)
  deriving DecidableEq

/-- The direction of a parameter; one without a direction is only read. -/
inductive Dir where
  | none
  | input
  | output
  | inout
  deriving DecidableEq

/-- The argument is evaluated before the call. -/
def Dir.copiesIn : Dir → Bool
  | .output => false
  | _ => true

/-- The parameter is assigned to its argument after the call. -/
def Dir.copiesOut : Dir → Bool
  | .output | .inout => true
  | _ => false

structure Param (N : Type) where
  name : N
  dir : Dir
  deriving DecidableEq

/-- An argument, by position or by the name of a parameter. -/
structure Arg (N O : Type) where
  name : Option N
  value : Expr N O
  deriving DecidableEq

/-- Statements.  `method` calls something outside with values and assigns its results, `table`
matches and runs the action that is selected, `action` calls an action, which shares the frame
of its caller but for its parameters, and `apply` calls what has a frame of its own. -/
inductive Stmt (N O : Type) where
  | skip
  | seq (s t : Stmt N O)
  | assign (l : Place N) (e : Expr N O)
  | cond (c : Expr N O) (s t : Stmt N O)
  | method (f : O) (ins : List (Expr N O)) (outs : List (Place N))
  | table (t : N)
  | action (a : N) (args : List (Arg N O))
  | apply (c : N) (args : List (Arg N O))
  deriving DecidableEq

variable {O : Type}

/-- The variables of an expression. -/
def Expr.refs : Expr N O → List N
  | .lit _ => []
  | .place l => [l.var]
  | .op _ a b => a.refs ++ b.refs

/-- The variables of a statement. -/
def Stmt.refs : Stmt N O → List N
  | .skip => []
  | .seq s t => s.refs ++ t.refs
  | .assign l e => l.var :: e.refs
  | .cond c s t => c.refs ++ (s.refs ++ t.refs)
  | .method _ ins outs => ins.flatMap Expr.refs ++ outs.map Place.var
  | .table _ => []
  | .action _ args => args.flatMap fun a => a.value.refs
  | .apply _ args => args.flatMap fun a => a.value.refs

/-- The calls of what has a frame of its own, in order. -/
def Stmt.calls : Stmt N O → List (N × List (Arg N O))
  | .skip => []
  | .seq s t => s.calls ++ t.calls
  | .assign _ _ => []
  | .cond _ s t => s.calls ++ t.calls
  | .method _ _ _ => []
  | .table _ => []
  | .action _ _ => []
  | .apply c args => [(c, args)]

/-- Changing the arguments of these calls. -/
def Stmt.mapCalls (f : N → List (Arg N O) → List (Arg N O)) : Stmt N O → Stmt N O
  | .skip => .skip
  | .seq s t => .seq (s.mapCalls f) (t.mapCalls f)
  | .assign l e => .assign l e
  | .cond c s t => .cond c (s.mapCalls f) (t.mapCalls f)
  | .method g ins outs => .method g ins outs
  | .table t => .table t
  | .action a args => .action a args
  | .apply c args => .apply c (f c args)

omit [DecidableEq N] in
theorem calls_mapCalls (f : N → List (Arg N O) → List (Arg N O)) : ∀ s : Stmt N O,
    (s.mapCalls f).calls = s.calls.map fun call => (call.1, f call.1 call.2)
  | .skip | .assign _ _ | .method _ _ _ | .table _ | .action _ _ | .apply _ _ => rfl
  | .seq s t => by
      rw [Stmt.mapCalls, Stmt.calls, Stmt.calls, calls_mapCalls f s, calls_mapCalls f t,
        List.map_append]
  | .cond c s t => by
      rw [Stmt.mapCalls, Stmt.calls, Stmt.calls, calls_mapCalls f s, calls_mapCalls f t,
        List.map_append]

omit [DecidableEq N] in
theorem mapCalls_congr {f g : N → List (Arg N O) → List (Arg N O)} : ∀ {s : Stmt N O},
    (∀ call ∈ s.calls, f call.1 call.2 = g call.1 call.2) → s.mapCalls f = s.mapCalls g
  | .skip, _ | .assign _ _, _ | .method _ _ _, _ | .table _, _ | .action _ _, _ => rfl
  | .seq s t, h => by
      rw [Stmt.mapCalls, Stmt.mapCalls, mapCalls_congr fun c hc => h c (List.mem_append_left _ hc),
        mapCalls_congr fun c hc => h c (List.mem_append_right _ hc)]
  | .cond c s t, h => by
      rw [Stmt.mapCalls, Stmt.mapCalls, mapCalls_congr fun c hc => h c (List.mem_append_left _ hc),
        mapCalls_congr fun c hc => h c (List.mem_append_right _ hc)]
  | .apply c args, h => by
      rw [Stmt.mapCalls, Stmt.mapCalls, h (c, args) (List.mem_singleton_self _)]

omit [DecidableEq N] in
theorem mapCalls_id : ∀ s : Stmt N O, (s.mapCalls fun _ args => args) = s
  | .skip | .assign _ _ | .method _ _ _ | .table _ | .action _ _ | .apply _ _ => rfl
  | .seq s t => by rw [Stmt.mapCalls, mapCalls_id s, mapCalls_id t]
  | .cond c s t => by rw [Stmt.mapCalls, mapCalls_id s, mapCalls_id t]

omit [DecidableEq N] in
/-- Leaving out arguments adds no variables. -/
theorem refs_mapCalls_subset {f : N → List (Arg N O) → List (Arg N O)}
    (hf : ∀ c args, f c args ⊆ args) : ∀ s : Stmt N O, (s.mapCalls f).refs ⊆ s.refs
  | .skip | .assign _ _ | .method _ _ _ | .table _ | .action _ _ => List.Subset.refl _
  | .seq s t => List.append_subset.mpr
      ⟨fun _ hx => List.mem_append_left _ (refs_mapCalls_subset hf s hx),
        fun _ hx => List.mem_append_right _ (refs_mapCalls_subset hf t hx)⟩
  | .cond c s t => by
      refine List.append_subset.mpr ⟨List.subset_append_left _ _, fun x hx => ?_⟩
      refine List.mem_append_right _ ?_
      rcases List.mem_append.mp hx with hx | hx
      · exact List.mem_append_left _ (refs_mapCalls_subset hf s hx)
      · exact List.mem_append_right _ (refs_mapCalls_subset hf t hx)
  | .apply c args => by
      intro x hx
      obtain ⟨a, ha, hx⟩ := List.mem_flatMap.mp hx
      exact List.mem_flatMap.mpr ⟨a, hf c args ha, hx⟩

/-! ## Arguments of a call -/

/-- The argument goes to a parameter of this name, and says so. -/
def Arg.isFor (n : N) (a : Arg N O) : Bool := a.name = some n

/-- The first argument and the others, if it has no name. -/
def takeFirst : List (Arg N O) → Option (Expr N O × List (Arg N O))
  | ⟨none, v⟩ :: rest => some (v, rest)
  | _ => none

/-- The argument for a parameter and the others: the one with the name of the parameter, or
else the first one, if it has no name. -/
def takeArg (n : N) (args : List (Arg N O)) : Option (Expr N O × List (Arg N O)) :=
  match args.find? (Arg.isFor n) with
  | some a => some (a.value, args.eraseP (Arg.isFor n))
  | none => takeFirst args

/-- The parameters with their arguments. -/
def bindings : List (Param N) → List (Arg N O) → List (Param N × Expr N O)
  | [], _ => []
  | p :: ps, args =>
      match takeArg p.name args with
      | some (v, rest) => (p, v) :: bindings ps rest
      | none => bindings ps args

/-- The arguments stand in the order of the parameters, and there is one for each. -/
def InOrder (params : List (Param N)) (args : List (Arg N O)) : Prop :=
  List.Forall₂ (fun p a => a.name = none ∨ a.name = some p.name) params args

instance (params : List (Param N)) (args : List (Arg N O)) : Decidable (InOrder params args) :=
  inferInstanceAs (Decidable
    (List.Forall₂ (fun p a => a.name = none ∨ a.name = some p.name) params args))

omit [DecidableEq N] in
theorem InOrder.name_of_mem : ∀ {params : List (Param N)} {args : List (Arg N O)},
    InOrder params args → ∀ b ∈ args, b.name = none ∨ ∃ p ∈ params, b.name = some p.name
  | _, _, .nil, _, hb => absurd hb List.not_mem_nil
  | p :: _, _, .cons hname hrest, b, hb => by
      rcases List.mem_cons.mp hb with rfl | hb
      · exact hname.imp_right fun h => ⟨p, List.mem_cons_self, h⟩
      · refine (InOrder.name_of_mem hrest b hb).imp_right fun h => ?_
        obtain ⟨q, hq, hname⟩ := h
        exact ⟨q, List.mem_cons_of_mem _ hq, hname⟩

theorem bindings_eq_zip : ∀ {params : List (Param N)} {args : List (Arg N O)},
    (params.map Param.name).Nodup → InOrder params args →
    bindings params args = params.zip (args.map Arg.value)
  | [], _, _, .nil => rfl
  | p :: ps, a :: args, hnodup, .cons hname hrest => by
      rw [List.map_cons, List.nodup_cons] at hnodup
      have htake : takeArg p.name (a :: args) = some (a.value, args) := by
        rcases hname with hname | hname
        · -- no other argument has the name of the parameter
          have hnone : (a :: args).find? (Arg.isFor p.name) = none := by
            rw [List.find?_eq_none]
            intro b hb
            rcases List.mem_cons.mp hb with rfl | hb
            · simp [Arg.isFor, hname]
            · rcases InOrder.name_of_mem hrest b hb with hb | ⟨q, hq, hb⟩
              · simp [Arg.isFor, hb]
              · have hne : q.name ≠ p.name := fun heq =>
                  hnodup.1 (heq ▸ List.mem_map.mpr ⟨q, hq, rfl⟩)
                simp [Arg.isFor, hb, hne]
          obtain ⟨name, v⟩ := a
          dsimp only at hname
          subst hname
          rw [takeArg, hnone]
          rfl
        · have hfor : Arg.isFor p.name a = true := by simp [Arg.isFor, hname]
          rw [takeArg, List.find?_cons_of_pos hfor, List.eraseP_cons_of_pos hfor]
      rw [bindings, htake]
      dsimp only
      rw [bindings_eq_zip hnodup.2 hrest]
      rfl

theorem mem_of_takeArg {n : N} {v : Expr N O} {args rest : List (Arg N O)}
    (h : takeArg n args = some (v, rest)) :
    (∃ a ∈ args, a.value = v) ∧ ∀ a ∈ rest, a ∈ args := by
  rw [takeArg] at h
  split at h
  · rename_i a ha
    rw [Option.some.injEq, Prod.mk.injEq] at h
    obtain ⟨rfl, rfl⟩ := h
    exact ⟨⟨a, List.mem_of_find?_eq_some ha, rfl⟩, fun b hb => List.mem_of_mem_eraseP hb⟩
  · rw [takeFirst.eq_def] at h
    split at h
    · rw [Option.some.injEq, Prod.mk.injEq] at h
      obtain ⟨rfl, rfl⟩ := h
      exact ⟨⟨_, List.mem_cons_self, rfl⟩, fun b hb => List.mem_cons_of_mem _ hb⟩
    · exact absurd h.symm (Option.some_ne_none _)

/-- What is bound is a parameter with the value of an argument. -/
theorem mem_of_mem_bindings {b : Param N × Expr N O} : ∀ {params : List (Param N)}
    {args : List (Arg N O)}, b ∈ bindings params args →
    b.1 ∈ params ∧ ∃ a ∈ args, a.value = b.2
  | [], _, h => absurd h List.not_mem_nil
  | p :: ps, args, h => by
      rw [bindings] at h
      split at h
      · rename_i v rest htake
        obtain ⟨⟨a, ha, hv⟩, hrest⟩ := mem_of_takeArg htake
        rcases List.mem_cons.mp h with rfl | h
        · exact ⟨List.mem_cons_self, a, ha, hv⟩
        · obtain ⟨hp, a', ha', heq⟩ := mem_of_mem_bindings h
          exact ⟨List.mem_cons_of_mem _ hp, a', hrest a' ha', heq⟩
      · obtain ⟨hp, ha'⟩ := mem_of_mem_bindings h
        exact ⟨List.mem_cons_of_mem _ hp, ha'⟩

/-! ## Running statements -/

/-- What the symbols mean.  `method` may change the state `E` of what is outside; `select` is
the action a table runs for the values of its key, with the values of its parameters, if there
is a match. -/
structure Interp (N O E : Type) where
  lit : O → Val N
  op : O → Val N → Val N → Val N
  holds : Val N → Bool
  method : O → List (Val N) → E → List (Val N) × E
  select : N → List (Val N) → Option (N × (N → Val N))

variable {E : Type} (I : Interp N O E)

/-- What a statement can do to the frame and to what is outside. -/
abbrev Rel (N E : Type) := Frame N → E → Frame N → E → Prop

/-- Something that is called: its parameters and what it does in its frame. -/
structure Callee (N E : Type) where
  params : List (Param N)
  body : Rel N E

def Expr.eval (σ : Frame N) : Expr N O → Val N
  | .lit o => I.lit o
  | .place l => l.get σ
  | .op o a b => I.op o (a.eval σ) (b.eval σ)

/-- Assigning results to places in order. -/
def setAll : List (Place N) → List (Val N) → Frame N → Frame N
  | l :: ls, w :: ws, σ => setAll ls ws (l.set w σ)
  | _, _, σ => σ

/-- The parameters that carry values in have those of their arguments. -/
def CopiedIn (binds : List (Param N × Expr N O)) (σ φ : Frame N) : Prop :=
  ∀ b ∈ binds, b.1.dir.copiesIn = true → φ b.1.name = b.2.eval I σ

/-- Copying one parameter out. -/
def copyOutOne (φ σ : Frame N) (b : Param N × Expr N O) : Frame N :=
  if b.1.dir.copiesOut then
    match b.2 with
    | .place l => l.set (φ b.1.name) σ
    | _ => σ
  else σ

/-- Copying the parameters out. -/
def copyOut (binds : List (Param N × Expr N O)) (φ σ : Frame N) : Frame N :=
  binds.foldl (copyOutOne φ) σ

/-- A call of something with a frame of its own. -/
def callApply (binds : List (Param N × Expr N O)) (body : Rel N E) : Rel N E := fun σ e σ' e' =>
  ∃ φ φ', CopiedIn I binds σ φ ∧ body φ e φ' e' ∧ σ' = copyOut binds φ' σ

/-- Running the body of an action in the frame of its caller, with other values for its
parameters, to which the frame then goes back. -/
def inFrame (params : List (Param N)) (body : Rel N E) (init : Frame N → Prop)
    (σ : Frame N) (e : E) (φ' : Frame N) (restored : Frame N) (e' : E) : Prop :=
  ∃ φ, (∀ x ∉ params.map Param.name, φ x = σ x) ∧ init φ ∧ body φ e φ' e' ∧
    restored = fun x => if x ∈ params.map Param.name then σ x else φ' x

/-- A call of an action. -/
def callAction (params : List (Param N)) (binds : List (Param N × Expr N O)) (body : Rel N E) :
    Rel N E := fun σ e σ' e' =>
  ∃ φ' τ, inFrame params body (CopiedIn I binds σ) σ e φ' τ e' ∧ σ' = copyOut binds φ' τ

/-- Running a statement.  A name that is not declared does nothing. -/
def Stmt.exec (ctrls acts : N → Option (Callee N E)) (keys : N → List (Expr N O)) :
    Stmt N O → Rel N E
  | .skip, σ, e, σ', e' => σ' = σ ∧ e' = e
  | .seq s t, σ, e, σ', e' =>
      ∃ τ d, s.exec ctrls acts keys σ e τ d ∧ t.exec ctrls acts keys τ d σ' e'
  | .assign l r, σ, e, σ', e' => σ' = l.set (r.eval I σ) σ ∧ e' = e
  | .cond c s t, σ, e, σ', e' =>
      if I.holds (c.eval I σ) then s.exec ctrls acts keys σ e σ' e'
      else t.exec ctrls acts keys σ e σ' e'
  | .method f ins outs, σ, e, σ', e' =>
      σ' = setAll outs (I.method f (ins.map (Expr.eval I σ)) e).1 σ ∧
        e' = (I.method f (ins.map (Expr.eval I σ)) e).2
  | .table t, σ, e, σ', e' =>
      match I.select t ((keys t).map (Expr.eval I σ)) with
      | none => σ' = σ ∧ e' = e
      | some (a, vals) =>
          match acts a with
          | none => σ' = σ ∧ e' = e
          | some c => ∃ φ', inFrame c.params c.body
              (fun φ => ∀ p ∈ c.params, φ p.name = vals p.name) σ e φ' σ' e'
  | .action a args, σ, e, σ', e' =>
      match acts a with
      | none => σ' = σ ∧ e' = e
      | some c => callAction I c.params (bindings c.params args) c.body σ e σ' e'
  | .apply c args, σ, e, σ', e' =>
      match ctrls c with
      | none => σ' = σ ∧ e' = e
      | some c => callApply I (bindings c.params args) c.body σ e σ' e'

/-! ## Variables that are not mentioned -/

section Ignores

variable {x : N}

/-- Whatever a relation can do, it can do with another value of `x`, which it keeps. -/
def Rel.Ignores (R : Rel N E) (x : N) : Prop :=
  ∀ v {σ e σ' e'}, R σ e σ' e' → R (Function.update σ x v) e (Function.update σ' x v) e'

theorem eval_update {v : Val N} {σ : Frame N} : ∀ {r : Expr N O}, x ∉ r.refs →
    r.eval I (Function.update σ x v) = r.eval I σ
  | .lit _, _ => rfl
  | .place l, h => by
      have hne : l.var ≠ x := fun heq => h (by rw [Expr.refs, heq]; exact List.mem_singleton_self x)
      rw [Expr.eval, Expr.eval, Place.get, Place.get, Function.update_of_ne hne]
  | .op o a b, h => by
      rw [Expr.refs, List.mem_append, not_or] at h
      rw [Expr.eval, Expr.eval, eval_update h.1, eval_update h.2]

theorem map_eval_update {v : Val N} {σ : Frame N} {l : List (Expr N O)}
    (h : ∀ r ∈ l, x ∉ r.refs) :
    l.map (Expr.eval I (Function.update σ x v)) = l.map (Expr.eval I σ) :=
  List.map_congr_left fun r hr => eval_update I (h r hr)

theorem setAll_update {v : Val N} : ∀ {ls : List (Place N)} {ws : List (Val N)} {σ : Frame N},
    (∀ l ∈ ls, l.var ≠ x) →
    setAll ls ws (Function.update σ x v) = Function.update (setAll ls ws σ) x v
  | [], _, _, _ => rfl
  | _ :: _, [], _, _ => rfl
  | l :: ls, w :: ws, σ, h => by
      rw [setAll, Place.set_update_of_ne (h l List.mem_cons_self),
        setAll_update fun m hm => h m (List.mem_cons_of_mem _ hm), setAll]

theorem copyOut_update {v : Val N} {φ : Frame N} : ∀ {binds : List (Param N × Expr N O)}
    {σ : Frame N}, (∀ b ∈ binds, x ∉ b.2.refs) →
    copyOut binds φ (Function.update σ x v) = Function.update (copyOut binds φ σ) x v
  | [], _, _ => rfl
  | b :: binds, σ, h => by
      have hone : copyOutOne φ (Function.update σ x v) b =
          Function.update (copyOutOne φ σ b) x v := by
        have hb := h b List.mem_cons_self
        rw [copyOutOne, copyOutOne]
        split
        · cases hval : b.2 with
          | lit o => rfl
          | op o r r' => rfl
          | place l =>
              rw [hval, Expr.refs, List.mem_singleton] at hb
              exact Place.set_update_of_ne (Ne.symm hb) _ _ σ
        · rfl
      have ih := copyOut_update (φ := φ) (σ := copyOutOne φ σ b) (v := v)
        fun c hc => h c (List.mem_cons_of_mem _ hc)
      rw [copyOut] at ih ⊢
      rw [List.foldl_cons, hone]
      exact ih

theorem copiedIn_update {v : Val N} {σ φ : Frame N} {binds : List (Param N × Expr N O)}
    (h : ∀ b ∈ binds, x ∉ b.2.refs) (hin : CopiedIn I binds σ φ) :
    CopiedIn I binds (Function.update σ x v) φ := by
  intro b hb hdir
  rw [hin b hb hdir, eval_update I (h b hb)]

theorem notMem_refs_of_mem_bindings {params : List (Param N)} {args : List (Arg N O)}
    (h : x ∉ args.flatMap fun a => a.value.refs) : ∀ b ∈ bindings params args, x ∉ b.2.refs := by
  intro b hb hx
  obtain ⟨-, a, ha, heq⟩ := mem_of_mem_bindings hb
  exact h (List.mem_flatMap.mpr ⟨a, ha, heq ▸ hx⟩)

theorem callApply_ignores {binds : List (Param N × Expr N O)} {body : Rel N E}
    (h : ∀ b ∈ binds, x ∉ b.2.refs) : (callApply I binds body).Ignores x := by
  rintro v σ e _ e' ⟨φ, φ', hin, hbody, rfl⟩
  exact ⟨φ, φ', copiedIn_update I h hin, hbody, (copyOut_update h).symm⟩

/-- The variable of a frame is either hidden by a parameter or not mentioned by the body. -/
theorem inFrame_update {params : List (Param N)} {body : Rel N E} {init init' : Frame N → Prop}
    {σ φ' τ : Frame N} {e e' : E} (hbody : x ∈ params.map Param.name ∨ body.Ignores x) (v : Val N)
    (hinit : ∀ φ, init φ → x ∉ params.map Param.name → init' (Function.update φ x v))
    (hinit' : ∀ φ, init φ → init' φ) (h : inFrame params body init σ e φ' τ e') :
    ∃ ψ', (∀ y ∈ params.map Param.name, ψ' y = φ' y) ∧
      inFrame params body init' (Function.update σ x v) e ψ' (Function.update τ x v) e' := by
  obtain ⟨φ, hshare, hφ, hrun, rfl⟩ := h
  by_cases hx : x ∈ params.map Param.name
  · refine ⟨φ', fun _ _ => rfl, φ, fun y hy => ?_, hinit' φ hφ, hrun, ?_⟩
    · have hne : y ≠ x := fun heq => hy (heq ▸ hx)
      rw [hshare y hy, Function.update_of_ne hne]
    · funext y
      by_cases hyx : y = x
      · subst hyx
        rw [Function.update_self, if_pos hx, Function.update_self]
      · simp only [Function.update_of_ne hyx]
  · refine ⟨Function.update φ' x v, fun y hy => ?_, Function.update φ x v, fun y hy => ?_,
      hinit φ hφ hx, (hbody.resolve_left hx) v hrun, ?_⟩
    · have hne : y ≠ x := fun heq => hx (heq ▸ hy)
      rw [Function.update_of_ne hne]
    · by_cases hyx : y = x
      · rw [hyx, Function.update_self, Function.update_self]
      · rw [Function.update_of_ne hyx, Function.update_of_ne hyx, hshare y hy]
    · funext y
      by_cases hyx : y = x
      · subst hyx
        rw [Function.update_self, if_neg hx, Function.update_self]
      · simp only [Function.update_of_ne hyx]

theorem copyOut_congr {φ ψ : Frame N} : ∀ {binds : List (Param N × Expr N O)} {σ : Frame N},
    (∀ b ∈ binds, φ b.1.name = ψ b.1.name) → copyOut binds φ σ = copyOut binds ψ σ
  | [], _, _ => rfl
  | b :: binds, σ, h => by
      have hone : copyOutOne φ σ b = copyOutOne ψ σ b := by
        rw [copyOutOne, copyOutOne, h b List.mem_cons_self]
      have ih := copyOut_congr (σ := copyOutOne ψ σ b) fun c hc => h c (List.mem_cons_of_mem _ hc)
      rw [copyOut] at ih ⊢
      rw [List.foldl_cons, hone]
      exact ih

theorem callAction_ignores {params : List (Param N)} {args : List (Arg N O)} {body : Rel N E}
    (hbody : x ∈ params.map Param.name ∨ body.Ignores x)
    (hargs : x ∉ args.flatMap fun a => a.value.refs) :
    (callAction I params (bindings params args) body).Ignores x := by
  have hrefs : ∀ b ∈ bindings params args, x ∉ b.2.refs := notMem_refs_of_mem_bindings hargs
  have hname : ∀ b ∈ bindings params args, b.1.name ∈ params.map Param.name := fun b hb =>
    List.mem_map.mpr ⟨b.1, (mem_of_mem_bindings hb).1, rfl⟩
  rintro v σ e _ e' ⟨φ', τ, hin, rfl⟩
  have hinit : ∀ φ, CopiedIn I (bindings params args) σ φ → x ∉ params.map Param.name →
      CopiedIn I (bindings params args) (Function.update σ x v) (Function.update φ x v) := by
    intro φ hφ hx b hb hdir
    have hne : b.1.name ≠ x := fun heq => hx (heq ▸ hname b hb)
    rw [Function.update_of_ne hne]
    exact copiedIn_update I hrefs hφ b hb hdir
  obtain ⟨ψ', hψ, hin'⟩ := inFrame_update hbody v hinit
    (fun φ hφ => copiedIn_update I hrefs hφ) hin
  refine ⟨ψ', _, hin', ?_⟩
  rw [copyOut_update hrefs, copyOut_congr fun b hb => hψ b.1.name (hname b hb)]

/-- **A statement does not depend on variables that it does not mention**, and keeps them. -/
theorem exec_ignores {ctrls acts : N → Option (Callee N E)} {keys : N → List (Expr N O)}
    (hacts : ∀ a c, acts a = some c → x ∈ c.params.map Param.name ∨ c.body.Ignores x)
    (hkeys : ∀ t, ∀ r ∈ keys t, x ∉ r.refs) :
    ∀ s : Stmt N O, x ∉ s.refs → (s.exec I ctrls acts keys).Ignores x
  | .skip, _ => by
      rintro v σ e _ _ ⟨rfl, rfl⟩
      exact ⟨rfl, rfl⟩
  | .seq s t, h => by
      rw [Stmt.refs, List.mem_append, not_or] at h
      rintro v σ e σ' e' ⟨τ, d, hs, ht⟩
      exact ⟨_, d, exec_ignores hacts hkeys s h.1 v hs, exec_ignores hacts hkeys t h.2 v ht⟩
  | .assign l r, h => by
      rw [Stmt.refs, List.mem_cons, not_or] at h
      rintro v σ e _ _ ⟨rfl, rfl⟩
      rw [Stmt.exec, eval_update I h.2, Place.set_update_of_ne (Ne.symm h.1)]
      exact ⟨rfl, rfl⟩
  | .cond c s t, h => by
      rw [Stmt.refs, List.mem_append, not_or, List.mem_append, not_or] at h
      intro v σ e σ' e' hrun
      rw [Stmt.exec] at hrun ⊢
      rw [eval_update I h.1]
      split at hrun
      · rename_i hc
        rw [if_pos hc]
        exact exec_ignores hacts hkeys s h.2.1 v hrun
      · rename_i hc
        rw [if_neg hc]
        exact exec_ignores hacts hkeys t h.2.2 v hrun
  | .method f ins outs, h => by
      rw [Stmt.refs, List.mem_append, not_or] at h
      rintro v σ e _ _ ⟨rfl, rfl⟩
      rw [Stmt.exec, map_eval_update I fun r hr hx => h.1 (List.mem_flatMap.mpr ⟨r, hr, hx⟩),
        setAll_update fun l hl hx => h.2 (List.mem_map.mpr ⟨l, hl, hx⟩)]
      exact ⟨rfl, rfl⟩
  | .table t, _ => by
      intro v σ e σ' e' hrun
      rw [Stmt.exec] at hrun ⊢
      rw [map_eval_update I (hkeys t)]
      split at hrun
      · obtain ⟨rfl, rfl⟩ := hrun
        exact ⟨rfl, rfl⟩
      · rename_i a vals _
        split at hrun
        · obtain ⟨rfl, rfl⟩ := hrun
          exact ⟨rfl, rfl⟩
        · rename_i c hc
          obtain ⟨φ', hin⟩ := hrun
          have hinit : ∀ φ : Frame N, (∀ p ∈ c.params, φ p.name = vals p.name) →
              x ∉ c.params.map Param.name →
              ∀ p ∈ c.params, Function.update φ x v p.name = vals p.name := by
            intro φ hφ hx p hp
            have hne : p.name ≠ x := fun heq => hx (heq ▸ List.mem_map.mpr ⟨p, hp, rfl⟩)
            rw [Function.update_of_ne hne, hφ p hp]
          obtain ⟨ψ', -, hin'⟩ := inFrame_update (hacts a c hc) v hinit (fun _ hφ => hφ) hin
          exact ⟨ψ', hin'⟩
  | .action a args, h => by
      intro v σ e σ' e' hrun
      rw [Stmt.exec] at hrun ⊢
      split at hrun
      · obtain ⟨rfl, rfl⟩ := hrun
        exact ⟨rfl, rfl⟩
      · rename_i c hc
        exact callAction_ignores I (hacts a c hc) h v hrun
  | .apply c args, h => by
      intro v σ e σ' e' hrun
      rw [Stmt.exec] at hrun ⊢
      split at hrun
      · obtain ⟨rfl, rfl⟩ := hrun
        exact ⟨rfl, rfl⟩
      · exact callApply_ignores I (notMem_refs_of_mem_bindings h) v hrun

end Ignores

/-! ## Leaving out parameters -/

/-- Everything the one relation can do, the other can. -/
def Rel.Refines (R R' : Rel N E) : Prop := ∀ σ e σ' e', R σ e σ' e' → R' σ e σ' e'

/-- Where an argument is read and assigned for a parameter that is not kept, nothing that is
assigned before it overlaps. -/
def SparesDropped (keep : Param N → Bool) (binds : List (Param N × Expr N O)) : Prop :=
  binds.Pairwise fun b c => b.1.dir.copiesOut = true → keep c.1 = false → c.1.dir = .inout →
    ∀ l m, b.2 = .place l → c.2 = .place m → m.Apart l

theorem copyOutOne_place {φ σ : Frame N} {b : Param N × Expr N O} {l : Place N}
    (hdir : b.1.dir.copiesOut = true) (hb : b.2 = .place l) :
    copyOutOne φ σ b = l.set (φ b.1.name) σ := by
  rw [copyOutOne, if_pos hdir, hb]

/-- A parameter whose value is what stands at its argument changes nothing. -/
theorem copyOutOne_eq_self {φ σ : Frame N} {b : Param N × Expr N O}
    (h : b.1.dir.copiesOut = true → ∀ l, b.2 = .place l → φ b.1.name = l.get σ) :
    copyOutOne φ σ b = σ := by
  by_cases hdir : b.1.dir.copiesOut = true
  · cases hb : b.2 with
    | place l => rw [copyOutOne_place hdir hb, h hdir l hb, Place.set_get]
    | lit o => rw [copyOutOne, if_pos hdir, hb]
    | op o r r' => rw [copyOutOne, if_pos hdir, hb]
  · rw [copyOutOne, if_neg hdir]

omit [DecidableEq N] in
/-- A value for a parameter that is not mentioned: the one of its argument, or, if only the
value afterwards counts, the one that is at its argument then. -/
theorem exists_value {σ₀ σ : Frame N} {b : Param N × Expr N O}
    (h : b.1.dir = .inout → ∀ l, b.2 = .place l → l.get σ = l.get σ₀) :
    ∃ v, (b.1.dir.copiesIn = true → v = b.2.eval I σ₀) ∧
      (b.1.dir.copiesOut = true → ∀ l, b.2 = .place l → v = l.get σ) := by
  cases hdir : b.1.dir with
  | none => exact ⟨b.2.eval I σ₀, fun _ => rfl, fun hout => Bool.noConfusion hout⟩
  | input => exact ⟨b.2.eval I σ₀, fun _ => rfl, fun hout => Bool.noConfusion hout⟩
  | output =>
      cases hb : b.2 with
      | place l =>
          refine ⟨l.get σ, fun hin => Bool.noConfusion hin, fun _ m hm => ?_⟩
          rw [Expr.place.injEq] at hm
          rw [hm]
      | lit o => exact ⟨.bits 0, fun hin => Bool.noConfusion hin, fun _ _ hm => nomatch hm⟩
      | op o r r' => exact ⟨.bits 0, fun hin => Bool.noConfusion hin, fun _ _ hm => nomatch hm⟩
  | inout =>
      refine ⟨b.2.eval I σ₀, fun _ => rfl, fun _ l hl => ?_⟩
      rw [hl, Expr.eval, h hdir l hl]

/-- The frames of a callee without some parameters, completed by values for these. -/
theorem exists_frames {keep : Param N → Bool} {R : Rel N E} {σ₀ : Frame N} {e e' : E} :
    ∀ {binds : List (Param N × Expr N O)} {σ φ φ' : Frame N},
    (binds.map fun b => b.1.name).Nodup → SparesDropped keep binds →
    (∀ b ∈ binds, keep b.1 = false → R.Ignores b.1.name) →
    (∀ b ∈ binds, keep b.1 = false → b.1.dir = .inout → ∀ l, b.2 = .place l →
      l.get σ = l.get σ₀) →
    R φ e φ' e' → CopiedIn I (binds.filter fun b => keep b.1) σ₀ φ →
    ∃ ψ ψ', R ψ e ψ' e' ∧ CopiedIn I binds σ₀ ψ ∧
      copyOut binds ψ' σ = copyOut (binds.filter fun b => keep b.1) φ' σ ∧
      ∀ x, (∀ b ∈ binds, keep b.1 = false → b.1.name ≠ x) → ψ x = φ x ∧ ψ' x = φ' x
  | [], σ, φ, φ', _, _, _, _, hrun, _ =>
      ⟨φ, φ', hrun, fun _ hb => absurd hb List.not_mem_nil, rfl, fun _ _ => ⟨rfl, rfl⟩⟩
  | b :: binds, σ, φ, φ', hnodup, hspares, hign, hsame, hrun, hin => by
      rw [List.map_cons, List.nodup_cons] at hnodup
      obtain ⟨hfirst, hspares⟩ := List.pairwise_cons.mp hspares
      have hne : ∀ c ∈ binds, c.1.name ≠ b.1.name := fun c hc heq =>
        hnodup.1 (List.mem_map.mpr ⟨c, hc, heq⟩)
      have hign' : ∀ c ∈ binds, keep c.1 = false → R.Ignores c.1.name := fun c hc =>
        hign c (List.mem_cons_of_mem _ hc)
      cases hkeep : keep b.1 with
      | true =>
        have hfilter : (b :: binds).filter (fun c => keep c.1) =
            b :: binds.filter fun c => keep c.1 := List.filter_cons_of_pos hkeep
        rw [hfilter] at hin ⊢
        have hsame' : ∀ c ∈ binds, keep c.1 = false → c.1.dir = .inout → ∀ l, c.2 = .place l →
            l.get (copyOutOne φ' σ b) = l.get σ₀ := by
          intro c hc hdrop hdir l hl
          rw [← hsame c (List.mem_cons_of_mem _ hc) hdrop hdir l hl]
          by_cases hout : b.1.dir.copiesOut = true
          · cases hb : b.2 with
            | place m =>
                rw [copyOutOne_place hout hb]
                exact Place.get_set_of_apart (hfirst c hc hout hdrop hdir m l hb hl) _ σ
            | lit o => rw [copyOutOne, if_pos hout, hb]
            | op o r r' => rw [copyOutOne, if_pos hout, hb]
          · rw [copyOutOne, if_neg hout]
        obtain ⟨ψ, ψ', hrun', hin', hcopy, hother⟩ := exists_frames hnodup.2 hspares hign' hsame'
          hrun fun c hc => hin c (List.mem_cons_of_mem _ hc)
        obtain ⟨hψ, hψ'⟩ := hother b.1.name fun c hc _ => hne c hc
        refine ⟨ψ, ψ', hrun', fun c hc hdir => ?_, ?_, fun x hx => ?_⟩
        · rcases List.mem_cons.mp hc with rfl | hc
          · rw [hψ, hin c List.mem_cons_self hdir]
          · exact hin' c hc hdir
        · have hone : copyOutOne ψ' σ b = copyOutOne φ' σ b := by
            rw [copyOutOne, copyOutOne, hψ']
          rw [copyOut, copyOut, List.foldl_cons, List.foldl_cons, hone]
          exact hcopy
        · exact hother x fun c hc => hx c (List.mem_cons_of_mem _ hc)
      | false =>
        have hfilter : (b :: binds).filter (fun c => keep c.1) = binds.filter fun c => keep c.1 :=
          List.filter_cons_of_neg (by rw [hkeep]; exact Bool.false_ne_true)
        rw [hfilter] at hin ⊢
        obtain ⟨v, hvin, hvout⟩ := exists_value I (hsame b List.mem_cons_self hkeep)
        have hrun₁ := hign b List.mem_cons_self hkeep v hrun
        have hin₁ : CopiedIn I (binds.filter fun c => keep c.1) σ₀
            (Function.update φ b.1.name v) := by
          intro c hc hdir
          rw [Function.update_of_ne (hne c (List.mem_of_mem_filter hc))]
          exact hin c hc hdir
        obtain ⟨ψ, ψ', hrun', hin', hcopy, hother⟩ := exists_frames hnodup.2 hspares hign'
          (fun c hc => hsame c (List.mem_cons_of_mem _ hc)) hrun₁ hin₁
        obtain ⟨hψ, hψ'⟩ := hother b.1.name fun c hc _ => hne c hc
        rw [Function.update_self] at hψ hψ'
        refine ⟨ψ, ψ', hrun', fun c hc hdir => ?_, ?_, fun x hx => ?_⟩
        · rcases List.mem_cons.mp hc with rfl | hc
          · rw [hψ, hvin hdir]
          · exact hin' c hc hdir
        · have hone : copyOutOne ψ' σ b = σ :=
            copyOutOne_eq_self fun hout l hl => hψ'.trans (hvout hout l hl)
          have hcongr : copyOut (binds.filter fun c => keep c.1)
              (Function.update φ' b.1.name v) σ = copyOut (binds.filter fun c => keep c.1) φ' σ :=
            copyOut_congr fun c hc =>
              Function.update_of_ne (hne c (List.mem_of_mem_filter hc)) _ _
          rw [← hcongr, ← hcopy, copyOut, List.foldl_cons, hone]
          rfl
        · have hxb : x ≠ b.1.name := (hx b List.mem_cons_self hkeep).symm
          obtain ⟨hx₁, hx₂⟩ := hother x fun c hc => hx c (List.mem_cons_of_mem _ hc)
          rw [Function.update_of_ne hxb] at hx₁ hx₂
          exact ⟨hx₁, hx₂⟩

/-- **A parameter that is not mentioned can be left out with its argument.**  Every result of
the call without it is a result of the call with it, for some unspecified values. -/
theorem callApply_of_filter {keep : Param N → Bool} {binds : List (Param N × Expr N O)}
    {R R' : Rel N E} (hnodup : (binds.map fun b => b.1.name).Nodup)
    (hspares : SparesDropped keep binds)
    (hign : ∀ b ∈ binds, keep b.1 = false → R.Ignores b.1.name) (hsub : R'.Refines R) :
    (callApply I (binds.filter fun b => keep b.1) R').Refines (callApply I binds R) := by
  rintro σ e _ e' ⟨φ, φ', hin, hrun, rfl⟩
  obtain ⟨ψ, ψ', hrun', hin', hcopy, -⟩ := exists_frames I hnodup hspares hign
    (fun _ _ _ _ _ _ => rfl) (hsub _ _ _ _ hrun) hin
  exact ⟨ψ, ψ', hin', hrun', hcopy.symm⟩

/-! ## Changing the calls of a statement -/

theorem inFrame_mono {params : List (Param N)} {R R' : Rel N E} (h : R'.Refines R)
    {init : Frame N → Prop} {σ φ' τ : Frame N} {e e' : E}
    (hrun : inFrame params R' init σ e φ' τ e') : inFrame params R init σ e φ' τ e' := by
  obtain ⟨φ, hshare, hinit, hbody, hτ⟩ := hrun
  exact ⟨φ, hshare, hinit, h _ _ _ _ hbody, hτ⟩

/-- Callees with the same parameters, of which the one does what the other can do. -/
def Callee.Refines (c' c : Callee N E) : Prop := c.params = c'.params ∧ c'.body.Refines c.body

omit [DecidableEq N] in
theorem eq_none_of_rel {o : Option (Callee N E)} :
    Option.Rel Callee.Refines none o → o = none
  | .none => rfl

omit [DecidableEq N] in
theorem exists_eq_some_of_rel {c' : Callee N E} {o : Option (Callee N E)} :
    Option.Rel Callee.Refines (some c') o → ∃ c, o = some c ∧ c'.Refines c
  | .some h => ⟨_, rfl, h⟩

/-- **A statement with other calls refines the statement** if each of its calls does. -/
theorem exec_mapCalls_refines {ctrls ctrls' acts acts' : N → Option (Callee N E)}
    {keys : N → List (Expr N O)} {f : N → List (Arg N O) → List (Arg N O)}
    (hacts : ∀ a, Option.Rel Callee.Refines (acts' a) (acts a)) :
    ∀ s : Stmt N O, (∀ call ∈ s.calls,
      ((Stmt.apply call.1 (f call.1 call.2)).exec I ctrls' acts' keys).Refines
        ((Stmt.apply call.1 call.2).exec I ctrls acts keys)) →
    ((s.mapCalls f).exec I ctrls' acts' keys).Refines (s.exec I ctrls acts keys)
  | .skip, _ => fun _ _ _ _ h => h
  | .seq s t, hcalls => by
      rintro σ e σ' e' ⟨τ, d, hs, ht⟩
      exact ⟨τ, d, exec_mapCalls_refines hacts s
          (fun c hc => hcalls c (List.mem_append_left _ hc)) _ _ _ _ hs,
        exec_mapCalls_refines hacts t
          (fun c hc => hcalls c (List.mem_append_right _ hc)) _ _ _ _ ht⟩
  | .assign _ _, _ => fun _ _ _ _ h => h
  | .cond c s t, hcalls => by
      intro σ e σ' e' hrun
      rw [Stmt.mapCalls, Stmt.exec] at hrun
      rw [Stmt.exec]
      split at hrun
      · rename_i hc
        rw [if_pos hc]
        exact exec_mapCalls_refines hacts s
          (fun c hc => hcalls c (List.mem_append_left _ hc)) _ _ _ _ hrun
      · rename_i hc
        rw [if_neg hc]
        exact exec_mapCalls_refines hacts t
          (fun c hc => hcalls c (List.mem_append_right _ hc)) _ _ _ _ hrun
  | .method _ _ _, _ => fun _ _ _ _ h => h
  | .table t, _ => by
      intro σ e σ' e' hrun
      rw [Stmt.mapCalls, Stmt.exec] at hrun
      rw [Stmt.exec]
      split at hrun
      · exact hrun
      · rename_i a vals _
        have hrel := hacts a
        split at hrun
        · rename_i hnone
          rw [hnone] at hrel
          rw [eq_none_of_rel hrel]
          exact hrun
        · rename_i c' hsome
          rw [hsome] at hrel
          obtain ⟨c, hc, hparams, hbody⟩ := exists_eq_some_of_rel hrel
          obtain ⟨φ', hin⟩ := hrun
          rw [hc]
          dsimp only
          rw [hparams]
          exact ⟨φ', inFrame_mono hbody hin⟩
  | .action a args, _ => by
      intro σ e σ' e' hrun
      rw [Stmt.mapCalls, Stmt.exec] at hrun
      rw [Stmt.exec]
      have hrel := hacts a
      split at hrun
      · rename_i hnone
        rw [hnone] at hrel
        rw [eq_none_of_rel hrel]
        exact hrun
      · rename_i c' hsome
        rw [hsome] at hrel
        obtain ⟨c, hc, hparams, hbody⟩ := exists_eq_some_of_rel hrel
        obtain ⟨φ', τ, hin, hout⟩ := hrun
        rw [hc]
        dsimp only
        rw [hparams]
        exact ⟨φ', τ, inFrame_mono hbody hin, hout⟩
  | .apply c args, hcalls => hcalls (c, args) (List.mem_singleton_self _)

/-- A statement without calls does not depend on what could be called. -/
theorem exec_refines_of_calls_eq_nil {acts acts' : N → Option (Callee N E)}
    {keys : N → List (Expr N O)} (hacts : ∀ a, Option.Rel Callee.Refines (acts' a) (acts a))
    (ctrls ctrls' : N → Option (Callee N E)) {s : Stmt N O} (hs : s.calls = []) :
    (s.exec I ctrls' acts' keys).Refines (s.exec I ctrls acts keys) := by
  have hrefines : ((s.mapCalls fun _ args => args).exec I ctrls' acts' keys).Refines
      (s.exec I ctrls acts keys) := exec_mapCalls_refines I hacts s (by
    rw [hs]
    exact fun call hcall => absurd hcall List.not_mem_nil)
  rw [mapCalls_id] at hrefines
  exact hrefines

/-! ## Every statement has a result -/

def Rel.Total (R : Rel N E) : Prop := ∀ σ e, ∃ σ' e', R σ e σ' e'

/-- A callee that can be called: its parameters have different names. -/
structure Callee.Total (c : Callee N E) : Prop where
  nodup : (c.params.map Param.name).Nodup
  body : Rel.Total c.body

theorem bindings_sublist : ∀ (params : List (Param N)) (args : List (Arg N O)),
    ((bindings params args).map Prod.fst).Sublist params
  | [], _ => List.Sublist.refl _
  | p :: ps, args => by
      rw [bindings]
      split
      · exact (bindings_sublist ps _).cons_cons p
      · exact (bindings_sublist ps _).cons p

theorem nodup_bindings {params : List (Param N)} (h : (params.map Param.name).Nodup)
    (args : List (Arg N O)) : ((bindings params args).map fun b => b.1.name).Nodup := by
  have hsub := (bindings_sublist params args).map Param.name
  rw [List.map_map] at hsub
  exact h.sublist hsub

theorem exists_copiedIn (σ φ₀ : Frame N) : ∀ {binds : List (Param N × Expr N O)},
    (binds.map fun b => b.1.name).Nodup →
    ∃ φ, (∀ x, (∀ b ∈ binds, b.1.name ≠ x) → φ x = φ₀ x) ∧ CopiedIn I binds σ φ
  | [], _ => ⟨φ₀, fun _ _ => rfl, fun _ hb => absurd hb List.not_mem_nil⟩
  | b :: binds, h => by
      rw [List.map_cons, List.nodup_cons] at h
      obtain ⟨φ, hφ, hin⟩ := exists_copiedIn σ φ₀ h.2
      refine ⟨Function.update φ b.1.name (b.2.eval I σ), fun x hx => ?_, fun c hc hdir => ?_⟩
      · rw [Function.update_of_ne (hx b List.mem_cons_self).symm]
        exact hφ x fun c hc => hx c (List.mem_cons_of_mem _ hc)
      · rcases List.mem_cons.mp hc with rfl | hc
        · exact Function.update_self _ _ _
        · have hne : c.1.name ≠ b.1.name := fun heq => h.1 (List.mem_map.mpr ⟨c, hc, heq⟩)
          rw [Function.update_of_ne hne]
          exact hin c hc hdir

theorem callAction_total {c : Callee N E} (hc : c.Total) (args : List (Arg N O)) :
    (callAction I c.params (bindings c.params args) c.body).Total := by
  intro σ e
  obtain ⟨φ, hφ, hin⟩ := exists_copiedIn I σ σ (nodup_bindings hc.nodup args)
  obtain ⟨φ', e', hrun⟩ := hc.body φ e
  refine ⟨_, e', φ', _, ⟨φ, fun x hx => hφ x fun b hb heq => ?_, hin, hrun, rfl⟩, rfl⟩
  exact hx (List.mem_map.mpr ⟨b.1, (mem_of_mem_bindings hb).1, heq⟩)

theorem callApply_total {c : Callee N E} (hc : c.Total) (args : List (Arg N O)) :
    (callApply I (bindings c.params args) c.body).Total := by
  intro σ e
  obtain ⟨φ, -, hin⟩ := exists_copiedIn I σ σ (nodup_bindings hc.nodup args)
  obtain ⟨φ', e', hrun⟩ := hc.body φ e
  exact ⟨_, e', φ, φ', hin, hrun, rfl⟩

/-- **Every statement has a result** if all that it calls has. -/
theorem exec_total {ctrls acts : N → Option (Callee N E)} {keys : N → List (Expr N O)}
    (hctrls : ∀ n c, ctrls n = some c → c.Total) (hacts : ∀ n c, acts n = some c → c.Total) :
    ∀ s : Stmt N O, (s.exec I ctrls acts keys).Total
  | .skip, σ, e => ⟨σ, e, rfl, rfl⟩
  | .seq s t, σ, e => by
      obtain ⟨τ, d, hs⟩ := exec_total hctrls hacts s σ e
      obtain ⟨σ', e', ht⟩ := exec_total hctrls hacts t τ d
      exact ⟨σ', e', τ, d, hs, ht⟩
  | .assign l r, σ, e => ⟨_, e, rfl, rfl⟩
  | .cond c s t, σ, e => by
      simp only [Stmt.exec]
      split
      · exact exec_total hctrls hacts s σ e
      · exact exec_total hctrls hacts t σ e
  | .method f ins outs, σ, e => ⟨_, _, rfl, rfl⟩
  | .table t, σ, e => by
      simp only [Stmt.exec]
      split
      · exact ⟨σ, e, rfl, rfl⟩
      · rename_i a vals _
        split
        · exact ⟨σ, e, rfl, rfl⟩
        · rename_i c hc
          have htotal := hacts a c hc
          obtain ⟨φ', e', hrun⟩ := htotal.body
            (fun x => if x ∈ c.params.map Param.name then vals x else σ x) e
          refine ⟨_, e', φ', _, fun x hx => if_neg hx, fun p hp => ?_, hrun, rfl⟩
          exact if_pos (List.mem_map.mpr ⟨p, hp, rfl⟩)
  | .action a args, σ, e => by
      simp only [Stmt.exec]
      split
      · exact ⟨σ, e, rfl, rfl⟩
      · rename_i c hc
        exact callAction_total I (hacts a c hc) args σ e
  | .apply n args, σ, e => by
      simp only [Stmt.exec]
      split
      · exact ⟨σ, e, rfl, rfl⟩
      · rename_i c hc
        exact callApply_total I (hctrls n c hc) args σ e

end CopyInCopyOut
end MicroP4
