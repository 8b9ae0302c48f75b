import Mathlib.Algebra.Order.BigOperators.Group.List
import Mathlib.Algebra.Order.Ring.Nat
import Mathlib.Logic.Function.Iterate
import MicroP4.Flattening.UnusedParamsRound

/-!
# Removing unused parameters keeps calls consistent

A program whose rounds are all safe stays well typed, its calls keep binding the parameters that
remain to the arguments they had, and what its controls do is what they could do before
(`rmUnusedApplyParams_keepsCalls`).  Values that are unspecified before, those of parameters that
carry values out and are never written, may come out as what stood at the argument; so the
program afterwards does one of the things that the program could do before.

An unused parameter of an action is enough to lose an argument of every call of its control
(`not_keepsCalls_unusedActionParam`).
-/

namespace MicroP4
namespace Flattening

open CopyInCopyOut

variable {N O : Type} [DecidableEq N] [DecidableEq O] {skipDecl : List N} {P : Program N O}

/-! ## Calls after a round -/

omit [DecidableEq N] [DecidableEq O] in
theorem Control.calls_eq {C : Control N O} (h : ∀ a ∈ C.actions, a.body.calls = []) :
    C.calls = C.body.calls := by
  have hnil : C.actions.flatMap (fun a => a.body.calls) = [] := List.flatMap_eq_nil_iff.mpr h
  rw [Control.calls, hnil, List.nil_append]

omit [DecidableEq O] in
theorem calls_shrink {C : Control N O} (h : ∀ a ∈ C.actions, a.body.calls = []) :
    (shrink skipDecl P C).calls =
      C.calls.map fun call => (call.1, dropArgs skipDecl P call.1 call.2) := by
  rw [Control.calls_eq h, ← calls_mapCalls]
  exact Control.calls_eq h

omit [DecidableEq O] in
/-- **A call after a round** has an argument for each parameter that is kept, the one it had. -/
theorem bindings_dropArgs (hwt : WellTyped P) (hsafe : RoundSafe skipDecl P) {C : Control N O}
    (hC : C ∈ P) {call : N × List (Arg N O)} (hcall : call ∈ C.calls) {D : Control N O}
    (hD : D ∈ P) (hname : D.name = call.1) :
    bindings (D.params.filter (keeps skipDecl D)) (dropArgs skipDecl P call.1 call.2) =
        (bindings D.params call.2).filter (fun b => keeps skipDecl D b.1) ∧
      (dropArgs skipDecl P call.1 call.2).length =
        (D.params.filter (keeps skipDecl D)).length := by
  have harity := hwt.arity C hC call hcall D hD hname
  rw [← hname, dropArgs_eq hwt.names hD]
  by_cases hdrop : ∃ p ∈ D.params, keeps skipDecl D p = false
  · have horder := hsafe.inOrder C hC call hcall D hD hname hdrop
    have horder' : InOrder (D.params.filter (keeps skipDecl D))
        (deleteFrom (locations (fun p => !keeps skipDecl D p) 0 D.params) 0 call.2) :=
      forall₂_deleteFrom (keeps skipDecl D) 0 horder
    have hnodup := hwt.params D hD
    have hnodup' : ((D.params.filter (keeps skipDecl D)).map Param.name).Nodup :=
      hnodup.sublist (List.filter_sublist.map Param.name)
    refine ⟨?_, horder'.length_eq.symm⟩
    rw [bindings_eq_zip hnodup horder, bindings_eq_zip hnodup' horder']
    exact zip_deleteFrom Arg.value (keeps skipDecl D) 0 harity.symm
  · have hkeeps : ∀ p ∈ D.params, keeps skipDecl D p = true := by
      intro p hp
      rw [← Bool.not_eq_false]
      exact fun hfalse => hdrop ⟨p, hp, hfalse⟩
    have hlocs : locations (fun p => !keeps skipDecl D p) 0 D.params = [] :=
      locations_eq_nil 0 fun p hp => by rw [hkeeps p hp]; rfl
    have hbind : (bindings D.params call.2).filter (fun b => keeps skipDecl D b.1) =
        bindings D.params call.2 :=
      List.filter_eq_self.mpr fun b hb => hkeeps b.1 (mem_of_mem_bindings hb).1
    rw [hlocs, deleteFrom_nil, List.filter_eq_self.mpr hkeeps, hbind]
    exact ⟨rfl, harity⟩

omit [DecidableEq O] in
/-- A round keeps a program well typed. -/
theorem WellTyped.shrink (hwt : WellTyped P) (hsafe : RoundSafe skipDecl P) :
    WellTyped (P.map (shrink skipDecl P)) where
  names := by
    rw [List.map_map]
    exact hwt.names
  params := by
    intro C' hC'
    obtain ⟨C, hC, rfl⟩ := List.mem_map.mp hC'
    exact (hwt.params C hC).sublist (List.filter_sublist.map Param.name)
  actionParams := by
    intro C' hC'
    obtain ⟨C, hC, rfl⟩ := List.mem_map.mp hC'
    exact hwt.actionParams C hC
  actionCalls := by
    intro C' hC'
    obtain ⟨C, hC, rfl⟩ := List.mem_map.mp hC'
    exact hwt.actionCalls C hC
  declared := by
    intro pre C' post hP call hcall
    obtain ⟨l, l', hl, rfl, hl'⟩ := List.map_eq_append_iff.mp hP
    obtain ⟨C, post', rfl, rfl, rfl⟩ := List.map_eq_cons_iff.mp hl'
    have hC : C ∈ P := hl ▸ List.mem_append_right _ List.mem_cons_self
    rw [calls_shrink (hwt.actionCalls C hC)] at hcall
    obtain ⟨call₀, hcall₀, rfl⟩ := List.mem_map.mp hcall
    obtain ⟨D, hD, hname⟩ := hwt.declared l C post' hl call₀ hcall₀
    exact ⟨_, List.mem_map.mpr ⟨D, hD, rfl⟩, hname⟩
  arity := by
    intro C' hC' call hcall D' hD' hname
    obtain ⟨C, hC, rfl⟩ := List.mem_map.mp hC'
    obtain ⟨D, hD, rfl⟩ := List.mem_map.mp hD'
    rw [calls_shrink (hwt.actionCalls C hC)] at hcall
    obtain ⟨call₀, hcall₀, rfl⟩ := List.mem_map.mp hcall
    exact (bindings_dropArgs hwt hsafe hC hcall₀ hD hname).2

/-! ## What controls do after a round -/

section Behaviour

variable {E : Type} {I : Interp N O E}

omit [DecidableEq O] in
/-- What holds of every action of a control, if it holds of an action whenever it holds of those
in front of it. -/
theorem forall_actionEnv {Q : Callee N E → Prop} {ctrls : N → Option (Callee N E)}
    {keys : N → List (Expr N O)} : ∀ {actions : List (Action N O)}
    {acts : N → Option (Callee N E)},
    (∀ a ∈ actions, ∀ acts : N → Option (Callee N E), (∀ n c, acts n = some c → Q c) →
      Q ⟨a.params, a.body.exec I ctrls acts keys⟩) →
    (∀ n c, acts n = some c → Q c) →
    ∀ n c, actionEnv I ctrls keys acts actions n = some c → Q c
  | [], _, _, hacts => hacts
  | a :: actions, acts, hstep, hacts => by
      rw [actionEnv]
      refine forall_actionEnv (fun b hb => hstep b (List.mem_cons_of_mem _ hb)) ?_
      intro n c hc
      by_cases hn : n = a.name
      · rw [hn, Function.update_self, Option.some.injEq] at hc
        rw [← hc]
        exact hstep a List.mem_cons_self acts hacts
      · rw [Function.update_of_ne hn] at hc
        exact hacts n c hc

omit [DecidableEq O] in
/-- Actions do the same whatever the controls are. -/
theorem actionEnv_refines (ctrls ctrls' : N → Option (Callee N E)) (keys : N → List (Expr N O)) :
    ∀ {actions : List (Action N O)} {acts acts' : N → Option (Callee N E)},
    (∀ a ∈ actions, a.body.calls = []) → (∀ n, Option.Rel Callee.Refines (acts' n) (acts n)) →
    ∀ n, Option.Rel Callee.Refines (actionEnv I ctrls' keys acts' actions n)
      (actionEnv I ctrls keys acts actions n)
  | [], _, _, _, hrel => hrel
  | a :: actions, acts, acts', hcalls, hrel => by
      rw [actionEnv, actionEnv]
      refine actionEnv_refines ctrls ctrls' keys
        (fun b hb => hcalls b (List.mem_cons_of_mem _ hb)) fun n => ?_
      by_cases hn : n = a.name
      · rw [hn, Function.update_self, Function.update_self]
        exact .some ⟨rfl, exec_refines_of_calls_eq_nil I hrel ctrls ctrls'
          (hcalls a List.mem_cons_self)⟩
      · rw [Function.update_of_ne hn, Function.update_of_ne hn]
        exact hrel n

omit [DecidableEq O] in
/-- A control keeps, and does not depend on, what it does not refer to. -/
theorem Control.run_ignores {ctrls : N → Option (Callee N E)} {C : Control N O} {x : N}
    (hx : x ∉ C.refs) : (C.run I ctrls).Ignores x := by
  rw [Control.refs, List.mem_append, List.mem_append, not_or, not_or] at hx
  have hkeys : ∀ t, ∀ r ∈ C.keys t, x ∉ r.refs := by
    intro t r hr hxr
    rw [Control.keys] at hr
    cases hfind : C.tables.find? (fun table => table.name = t) with
    | none =>
      rw [hfind] at hr
      exact absurd hr List.not_mem_nil
    | some table =>
      rw [hfind] at hr
      exact hx.2.1 (List.mem_flatMap.mpr ⟨table, List.mem_of_find?_eq_some hfind,
        List.mem_flatMap.mpr ⟨r, hr, hxr⟩⟩)
  refine exec_ignores I (forall_actionEnv
    (Q := fun c => x ∈ c.params.map Param.name ∨ c.body.Ignores x)
    (fun a ha acts hacts => ?_) fun _ c hc => absurd hc (Option.some_ne_none c).symm)
    hkeys C.body hx.2.2
  by_cases hparam : x ∈ a.params.map Param.name
  · exact Or.inl hparam
  · refine Or.inr (exec_ignores I hacts hkeys a.body fun hbody => hx.1 ?_)
    exact List.mem_flatMap.mpr ⟨a, ha, List.mem_filter.mpr ⟨hbody, by simpa using hparam⟩⟩

omit [DecidableEq O] in
/-- A control has a result if all controls have that it applies. -/
theorem Control.run_total {ctrls : N → Option (Callee N E)} {C : Control N O}
    (hctrls : ∀ n c, ctrls n = some c → c.Total)
    (hparams : ∀ a ∈ C.actions, (a.params.map Param.name).Nodup) : (C.run I ctrls).Total :=
  exec_total I hctrls (forall_actionEnv (Q := Callee.Total)
    (fun a ha _ hacts => ⟨hparams a ha, exec_total I hctrls hacts a.body⟩)
    fun _ c hc => absurd hc (Option.some_ne_none c).symm) C.body

/-- The controls so far, before and after a round. -/
structure EnvSim (skipDecl : List N) (pre : Program N O) (ctrls' ctrls : N → Option (Callee N E)) :
    Prop where
  fresh : ∀ n, n ∉ pre.map Control.name → ctrls n = none ∧ ctrls' n = none
  known : ∀ D ∈ pre, ∃ R R', ctrls D.name = some ⟨D.params, R⟩ ∧
    ctrls' D.name = some ⟨D.params.filter (keeps skipDecl D), R'⟩ ∧ R'.Refines R ∧
    ∀ p ∈ D.params, keeps skipDecl D p = false → R.Ignores p.name

omit [DecidableEq O] in
/-- After a round a control does what it could do before. -/
theorem run_shrink_refines (hwt : WellTyped P) (hsafe : RoundSafe skipDecl P) {pre : Program N O}
    (hpre : ∀ D ∈ pre, D ∈ P) {ctrls ctrls' : N → Option (Callee N E)}
    (hsim : EnvSim skipDecl pre ctrls' ctrls) {C : Control N O} (hC : C ∈ P)
    (hdeclared : ∀ call ∈ C.calls, ∃ D ∈ pre, D.name = call.1) :
    ((shrink skipDecl P C).run I ctrls').Refines (C.run I ctrls) := by
  refine exec_mapCalls_refines I (actionEnv_refines ctrls ctrls' C.keys (hwt.actionCalls C hC)
    fun _ => .none) C.body fun call hcall => ?_
  have hcall : call ∈ C.calls := List.mem_append_right _ hcall
  obtain ⟨D, hD, hname⟩ := hdeclared call hcall
  obtain ⟨R, R', hR, hR', hsub, hign⟩ := hsim.known D hD
  have hbind := (bindings_dropArgs hwt hsafe hC hcall (hpre D hD) hname).1
  intro σ e σ' e' hrun
  rw [Stmt.exec] at hrun ⊢
  rw [← hname] at hrun hbind ⊢
  rw [hR'] at hrun
  rw [hR]
  dsimp only at hrun ⊢
  rw [hbind] at hrun
  refine callApply_of_filter I (nodup_bindings (hwt.params D (hpre D hD)) call.2)
    (hsafe.spared C hC call hcall D (hpre D hD) hname) (fun b hb hdrop => ?_) hsub _ _ _ _ hrun
  exact hign b.1 (mem_of_mem_bindings hb).1 hdrop

omit [DecidableEq O] in
/-- The controls after one more. -/
theorem EnvSim.append (hwt : WellTyped P) (hsafe : RoundSafe skipDecl P) {pre : Program N O}
    (hpre : ∀ D ∈ pre, D ∈ P) {ctrls ctrls' : N → Option (Callee N E)}
    (hsim : EnvSim skipDecl pre ctrls' ctrls) {C : Control N O} (hC : C ∈ P)
    (hfresh : C.name ∉ pre.map Control.name)
    (hdeclared : ∀ call ∈ C.calls, ∃ D ∈ pre, D.name = call.1) :
    EnvSim skipDecl (pre ++ [C])
      (Function.update ctrls' C.name
        (some ⟨(shrink skipDecl P C).params, (shrink skipDecl P C).run I ctrls'⟩))
      (Function.update ctrls C.name (some ⟨C.params, C.run I ctrls⟩)) where
  fresh n hn := by
    rw [List.map_append, List.mem_append, not_or] at hn
    have hne : n ≠ C.name := fun heq => hn.2 (heq ▸ List.mem_singleton_self _)
    rw [Function.update_of_ne hne, Function.update_of_ne hne]
    exact hsim.fresh n hn.1
  known D hD := by
    rcases List.mem_append.mp hD with hD | hD
    · have hne : D.name ≠ C.name := fun heq => hfresh (heq ▸ List.mem_map.mpr ⟨D, hD, rfl⟩)
      rw [Function.update_of_ne hne, Function.update_of_ne hne]
      exact hsim.known D hD
    · rw [List.mem_singleton.mp hD, Function.update_self, Function.update_self]
      refine ⟨_, _, rfl, rfl, run_shrink_refines hwt hsafe hpre hsim hC hdeclared,
        fun p _ hdrop => ?_⟩
      refine Control.run_ignores fun hx => ?_
      rw [keeps, Bool.or_eq_false_iff] at hdrop
      exact of_decide_eq_false hdrop.2 hx

omit [DecidableEq O] in
theorem controlEnv_sim (hwt : WellTyped P) (hsafe : RoundSafe skipDecl P) :
    ∀ {post pre : Program N O} {ctrls ctrls' : N → Option (Callee N E)}, P = pre ++ post →
    EnvSim skipDecl pre ctrls' ctrls →
    EnvSim skipDecl P (controlEnv I ctrls' (post.map (shrink skipDecl P)))
      (controlEnv I ctrls post)
  | [], pre, _, _, hP, hsim => by
      rw [List.append_nil] at hP
      rw [hP]
      exact hsim
  | C :: post, pre, ctrls, ctrls', hP, hsim => by
      have hmem : ∀ D ∈ pre, D ∈ P := fun D hD => hP ▸ List.mem_append_left _ hD
      have hC : C ∈ P := hP ▸ List.mem_append_right _ List.mem_cons_self
      have hfresh : C.name ∉ pre.map Control.name := by
        have hnames := hwt.names
        rw [hP, List.map_append, List.map_cons] at hnames
        exact fun hx => (List.nodup_append.mp hnames).2.2 _ hx _ List.mem_cons_self rfl
      have hnext := EnvSim.append (I := I) hwt hsafe hmem hsim hC hfresh
        (hwt.declared pre C post hP)
      rw [List.map_cons, controlEnv, controlEnv]
      exact controlEnv_sim hwt hsafe (by rw [hP, List.append_assoc]; rfl) hnext

omit [DecidableEq O] in
/-- **What the controls do after a round**: one of the things they could do before. -/
theorem behaviour_shrink (hwt : WellTyped P) (hsafe : RoundSafe skipDecl P) (n : N) :
    Option.Rel (fun c' c => c'.body.Refines c.body)
      (Program.behaviour I (P.map (shrink skipDecl P)) n) (Program.behaviour I P n) := by
  have hnil : EnvSim skipDecl ([] : Program N O) (fun _ => (none : Option (Callee N E)))
      fun _ => none := ⟨fun _ _ => ⟨rfl, rfl⟩, fun _ hD => absurd hD List.not_mem_nil⟩
  have hsim := controlEnv_sim (I := I) hwt hsafe (List.nil_append P).symm hnil
  rw [Program.behaviour, Program.behaviour]
  by_cases hn : n ∈ P.map Control.name
  · obtain ⟨D, hD, rfl⟩ := List.mem_map.mp hn
    obtain ⟨R, R', hR, hR', hsub, -⟩ := hsim.known D hD
    rw [hR, hR']
    exact .some hsub
  · rw [(hsim.fresh n hn).1, (hsim.fresh n hn).2]
    exact .none

omit [DecidableEq O] in
theorem controlEnv_total : ∀ {cs : Program N O} {ctrls : N → Option (Callee N E)},
    (∀ C ∈ cs, (C.params.map Param.name).Nodup ∧
      ∀ a ∈ C.actions, (a.params.map Param.name).Nodup) →
    (∀ n c, ctrls n = some c → c.Total) → ∀ n c, controlEnv I ctrls cs n = some c → c.Total
  | [], _, _, hctrls => hctrls
  | C :: cs, ctrls, hnodup, hctrls => by
      rw [controlEnv]
      refine controlEnv_total (fun D hD => hnodup D (List.mem_cons_of_mem _ hD)) fun n c hc => ?_
      by_cases hn : n = C.name
      · rw [hn, Function.update_self, Option.some.injEq] at hc
        rw [← hc]
        exact ⟨(hnodup C List.mem_cons_self).1,
          Control.run_total hctrls (hnodup C List.mem_cons_self).2⟩
      · rw [Function.update_of_ne hn] at hc
        exact hctrls n c hc

omit [DecidableEq O] in
/-- Every control of a well-typed program has a result. -/
theorem behaviour_total (hwt : WellTyped P) {n : N} {c : Callee N E}
    (hc : Program.behaviour I P n = some c) : c.body.Total :=
  (controlEnv_total (I := I) (fun C hC => ⟨hwt.params C hC, hwt.actionParams C hC⟩)
    (fun _ c hc => absurd hc (Option.some_ne_none c).symm) n c hc).body

end Behaviour

/-! ## All rounds -/

/-- What has become of a control of a program.  Calls bind a part of the parameters they bound
before, to the same arguments. -/
structure KeptAs (skipDecl : List N) (P Q : Program N O) (C C' : Control N O) : Prop where
  name : C'.name = C.name
  params : C'.params.Sublist C.params
  skipped : C.name ∈ skipDecl → C'.params = C.params
  calls : List.Forall₂ (fun call call' => call'.1 = call.1 ∧ ∀ D ∈ P, D.name = call.1 →
    ∃ D' ∈ Q, D'.name = call.1 ∧
      (bindings D'.params call'.2).Sublist (bindings D.params call.2)) C.calls C'.calls
  removed : ∀ p ∈ C.params, p ∉ C'.params → p.name ∉ C'.refs ∧
    ∃ k, ∃ D ∈ (removeUnusedApplyParams skipDecl)^[k] P,
      D.name = C.name ∧ p ∈ D.params ∧ p.name ∉ D.refs

/-- **Calls are consistent, and the program does what it did.**  Every call has as many arguments
as there are parameters, the controls are those of before without parameters that nothing
referred to, and each of them has results, all of which it could have before. -/
structure KeepsCalls (skipDecl : List N) (P Q : Program N O) : Prop where
  names : Q.map Control.name = P.map Control.name
  arity : ArityOk Q
  controls : ∀ C ∈ P, ∃ C' ∈ Q, KeptAs skipDecl P Q C C'
  behaviour : ∀ {E : Type} (I : Interp N O E) (n : N),
    Option.Rel (fun c' c => c'.body.Refines c.body) (Program.behaviour I Q n)
      (Program.behaviour I P n)
  total : ∀ {E : Type} (I : Interp N O E) (n : N) (c : Callee N E),
    Program.behaviour I Q n = some c → c.body.Total

omit [DecidableEq N] in
theorem rel_refines_trans {E : Type} : ∀ {o o' o'' : Option (Callee N E)},
    Option.Rel (fun c' c => c'.body.Refines c.body) o'' o' →
    Option.Rel (fun c' c => c'.body.Refines c.body) o' o →
    Option.Rel (fun c' c => c'.body.Refines c.body) o'' o
  | _, _, _, .none, .none => .none
  | _, _, _, .some h', .some h => .some fun σ e σ' e' hrun => h σ e σ' e' (h' σ e σ' e' hrun)

omit [DecidableEq N] [DecidableEq O] in
theorem forall₂_map_of_mem {α β : Type} {R S : α → β → Prop} {g : β → β} :
    ∀ {l : List α} {l' : List β}, List.Forall₂ R l l' → (∀ a, ∀ b ∈ l', R a b → S a (g b)) →
    List.Forall₂ S l (l'.map g)
  | [], _, .nil, _ => .nil
  | _ :: _, b :: _, .cons h hrest, hg =>
      .cons (hg _ b List.mem_cons_self h)
        (forall₂_map_of_mem hrest fun a c hc => hg a c (List.mem_cons_of_mem _ hc))

omit [DecidableEq O] in
theorem dropArgs_subset (callee : N) (args : List (Arg N O)) :
    dropArgs skipDecl P callee args ⊆ args := by
  rw [dropArgs]
  split
  · exact List.Subset.refl _
  · exact deleteFrom_subset args 0

omit [DecidableEq O] in
theorem refs_shrink_subset (C : Control N O) : (shrink skipDecl P C).refs ⊆ C.refs := by
  intro x hx
  rw [Control.refs, List.mem_append, List.mem_append] at hx ⊢
  exact hx.imp_right (Or.imp_right fun h => refs_mapCalls_subset dropArgs_subset C.body h)

omit [DecidableEq O] in
theorem keepsCalls_refl (hwt : WellTyped P) : KeepsCalls skipDecl P P where
  names := rfl
  arity := hwt.arity
  controls C hC := ⟨C, hC,
    { name := rfl
      params := List.Sublist.refl _
      skipped := fun _ => rfl
      calls := List.forall₂_same.mpr fun _ _ => ⟨rfl, fun D hD hname =>
        ⟨D, hD, hname, List.Sublist.refl _⟩⟩
      removed := fun _ hp hnp => absurd hp hnp }⟩
  behaviour I n := by
    cases Program.behaviour I P n with
    | none => exact .none
    | some c => exact .some fun _ _ _ _ h => h
  total _ _ _ hc := behaviour_total hwt hc

omit [DecidableEq O] in
/-- One more round. -/
theorem KeepsCalls.shrink {Q : Program N O} (h : KeepsCalls skipDecl P Q) (hwt : WellTyped Q)
    (hsafe : RoundSafe skipDecl Q) {k : ℕ}
    (hround : Q = (removeUnusedApplyParams skipDecl)^[k] P) :
    KeepsCalls skipDecl P (Q.map (shrink skipDecl Q)) where
  names := by
    rw [List.map_map, ← h.names]
    rfl
  arity := (hwt.shrink hsafe).arity
  controls C hC := by
    obtain ⟨C', hC', hkept⟩ := h.controls C hC
    refine ⟨_, List.mem_map.mpr ⟨C', hC', rfl⟩, hkept.name,
      List.filter_sublist.trans hkept.params, fun hskip => ?_, ?_, fun p hp hnp => ?_⟩
    · have hkeeps : ∀ p ∈ C'.params, keeps skipDecl C' p = true := fun p _ => by
        rw [keeps, hkept.name, decide_eq_true hskip, Bool.true_or]
      exact (List.filter_eq_self.mpr hkeeps).trans (hkept.skipped hskip)
    · rw [calls_shrink (hwt.actionCalls C' hC')]
      refine forall₂_map_of_mem hkept.calls ?_
      rintro call call' hcall' ⟨hname, hbound⟩
      refine ⟨hname, fun D hD hDname => ?_⟩
      obtain ⟨D', hD', hD'name, hsub⟩ := hbound D hD hDname
      have hbind := (bindings_dropArgs hwt hsafe hC' hcall' hD' (hD'name.trans hname.symm)).1
      refine ⟨_, List.mem_map.mpr ⟨D', hD', rfl⟩, hD'name, ?_⟩
      exact (hbind ▸ List.filter_sublist).trans hsub
    · by_cases hp' : p ∈ C'.params
      · have hdrop : p.name ∉ C'.refs := fun hx => hnp (List.mem_filter.mpr ⟨hp', by
          rw [keeps, decide_eq_true hx, Bool.or_true]⟩)
        exact ⟨fun hx => hdrop (refs_shrink_subset C' hx), k, C', hround ▸ hC', hkept.name, hp',
          hdrop⟩
      · obtain ⟨hx, hunused⟩ := hkept.removed p hp hp'
        exact ⟨fun hx' => hx (refs_shrink_subset C' hx'), hunused⟩
  behaviour I n := rel_refines_trans (behaviour_shrink hwt hsafe n) (h.behaviour I n)
  total _ _ _ hc := behaviour_total (hwt.shrink hsafe) hc

omit [DecidableEq O] in
theorem keepsCalls_iterate (hwt : WellTyped P) : ∀ k,
    (∀ j < k, RoundSafe skipDecl ((removeUnusedApplyParams skipDecl)^[j] P)) →
    WellTyped ((removeUnusedApplyParams skipDecl)^[k] P) ∧
      KeepsCalls skipDecl P ((removeUnusedApplyParams skipDecl)^[k] P)
  | 0, _ => ⟨hwt, keepsCalls_refl hwt⟩
  | k + 1, hsafe => by
      obtain ⟨hwtk, hkept⟩ := keepsCalls_iterate hwt k fun j hj => hsafe j (Nat.lt_succ_of_lt hj)
      have hsafek := hsafe k (Nat.lt_succ_self k)
      rw [Function.iterate_succ_apply', removeUnusedApplyParams_eq hwtk hsafek]
      exact ⟨hwtk.shrink hsafek, hkept.shrink hwtk hsafek rfl⟩

/-- How many parameters the controls have. -/
def paramCount (P : Program N O) : ℕ := (P.map fun C => C.params.length).sum

omit [DecidableEq O] in
theorem shrink_eq_self (h : ∀ C ∈ P, ∀ p ∈ C.params, keeps skipDecl C p = true) {C : Control N O}
    (hC : C ∈ P) : shrink skipDecl P C = C := by
  have hdrop : dropArgs skipDecl P = fun _ args => args := by
    funext callee args
    rw [dropArgs]
    split
    · rfl
    · rename_i D hD
      have hlocs : locations (fun p => !keeps skipDecl D p) 0 D.params = [] :=
        locations_eq_nil 0 fun p hp => by rw [h D (List.mem_of_find?_eq_some hD) p hp]; rfl
      rw [hlocs, deleteFrom_nil]
  rw [shrink, List.filter_eq_self.mpr (h C hC), hdrop, mapCalls_id]

omit [DecidableEq O] in
/-- A round that changes something takes a parameter away. -/
theorem paramCount_lt (hwt : WellTyped P) (hsafe : RoundSafe skipDecl P)
    (hne : removeUnusedApplyParams skipDecl P ≠ P) :
    paramCount (removeUnusedApplyParams skipDecl P) < paramCount P := by
  rw [removeUnusedApplyParams_eq hwt hsafe] at hne ⊢
  rw [paramCount, List.map_map, paramCount]
  refine List.sum_lt_sum _ _ (fun C _ => List.length_filter_le _ _) ?_
  by_contra hnone
  refine hne ?_
  have hkeeps : ∀ C ∈ P, ∀ p ∈ C.params, keeps skipDecl C p = true := by
    intro C hC p hp
    by_contra hp'
    exact hnone ⟨C, hC, List.length_filter_lt_length_iff_exists.mpr ⟨p, hp, hp'⟩⟩
  have hself : P.map (shrink skipDecl P) = P.map id :=
    List.map_congr_left fun C hC => shrink_eq_self hkeeps hC
  rw [hself, List.map_id]

/-- The rounds that are run, which are all that change something if `n` is large enough. -/
theorem rmUnusedApplyParams_eq_iterate : ∀ (n : ℕ) {P : Program N O}, WellTyped P →
    (∀ k < n, RoundSafe skipDecl ((removeUnusedApplyParams skipDecl)^[k] P)) →
    (∃ k ≤ n, rmUnusedApplyParams skipDecl n P = (removeUnusedApplyParams skipDecl)^[k] P) ∧
      (paramCount P < n → removeUnusedApplyParams skipDecl (rmUnusedApplyParams skipDecl n P) =
        rmUnusedApplyParams skipDecl n P)
  | 0, P, _, _ => ⟨⟨0, Nat.le_refl 0, rfl⟩, fun h => absurd h (Nat.not_lt_zero _)⟩
  | n + 1, P, hwt, hsafe => by
      have hsafe₀ : RoundSafe skipDecl P := hsafe 0 (Nat.succ_pos n)
      rw [rmUnusedApplyParams, if_pos hwt.arity]
      by_cases hfix : removeUnusedApplyParams skipDecl P = P
      · rw [if_pos hfix]
        exact ⟨⟨0, Nat.zero_le _, rfl⟩, fun _ => hfix⟩
      · rw [if_neg hfix]
        have hwt' : WellTyped (removeUnusedApplyParams skipDecl P) := by
          rw [removeUnusedApplyParams_eq hwt hsafe₀]
          exact hwt.shrink hsafe₀
        have hlt := paramCount_lt hwt hsafe₀ hfix
        obtain ⟨⟨k, hk, heq⟩, hend⟩ := rmUnusedApplyParams_eq_iterate n hwt'
          fun k hk => hsafe (k + 1) (Nat.succ_lt_succ hk)
        exact ⟨⟨k + 1, Nat.succ_le_succ hk, heq⟩, fun h => hend (by omega)⟩

/-- **Removing unused parameters** in rounds that are safe keeps calls consistent and what the
program does, and ends with a program that a round does not change. -/
theorem rmUnusedApplyParams_keepsCalls (n : ℕ) (hwt : WellTyped P)
    (hsafe : ∀ k < n, RoundSafe skipDecl ((removeUnusedApplyParams skipDecl)^[k] P)) :
    KeepsCalls skipDecl P (rmUnusedApplyParams skipDecl n P) ∧
      (paramCount P < n → removeUnusedApplyParams skipDecl (rmUnusedApplyParams skipDecl n P) =
        rmUnusedApplyParams skipDecl n P) := by
  obtain ⟨⟨k, hk, heq⟩, hend⟩ := rmUnusedApplyParams_eq_iterate n hwt hsafe
  refine ⟨?_, hend⟩
  rw [heq]
  exact (keepsCalls_iterate hwt k fun j hj => hsafe j (Nat.lt_of_lt_of_le hj hk)).2

/-! ## A program of two rounds, and an action that stops the first -/

omit [DecidableEq N] [DecidableEq O] in
theorem declared_of_take {P : Program N O} (h : ∀ i : Fin P.length, ∀ call ∈ (P.get i).calls,
    ∃ D ∈ P.take i, D.name = call.1) (pre : Program N O) (C : Control N O) (post : Program N O)
    (hP : P = pre ++ C :: post) : ∀ call ∈ C.calls, ∃ D ∈ pre, D.name = call.1 := by
  subst hP
  have hlt : pre.length < (pre ++ C :: post).length := by
    rw [List.length_append, List.length_cons]
    omega
  have hcalls := h ⟨pre.length, hlt⟩
  simpa using hcalls

omit [DecidableEq O] in
/-- A round that takes away parameters with one direction at most. -/
theorem RoundSafe.of_ne_inout
    (hactions : ∀ C ∈ P, C.name ∉ skipDecl → ∀ a ∈ C.actions, ∀ q ∈ a.params,
      q.name ∈ a.body.refs ∧ ∀ p ∈ C.params, p.name = q.name → p.name ∈ C.refs)
    (horder : ∀ C ∈ P, ∀ call ∈ C.calls, ∀ D ∈ P, D.name = call.1 → InOrder D.params call.2)
    (hdir : ∀ D ∈ P, ∀ p ∈ D.params, keeps skipDecl D p = false → p.dir ≠ .inout) :
    RoundSafe skipDecl P where
  actionParams := hactions
  inOrder C hC call hcall D hD hname _ := horder C hC call hcall D hD hname
  spared _ _ call _ D hD _ := by
    refine List.pairwise_of_forall_mem_list fun b _ c hc _ hdrop hinout => ?_
    exact absurd hinout (hdir D hD c.1 (mem_of_mem_bindings hc).1 hdrop)

/-- Control 12 calls 11, which has a parameter only for the argument that it passes on to 10,
where nothing refers to it. -/
def twoRounds : Program ℕ Unit :=
  [⟨10, [⟨2, .inout⟩, ⟨6, .input⟩], [], [], .assign ⟨2, []⟩ (.lit ())⟩,
    ⟨11, [⟨3, .inout⟩, ⟨4, .input⟩], [], [],
      .apply 10 [⟨none, .place ⟨3, []⟩⟩, ⟨none, .place ⟨4, []⟩⟩]⟩,
    ⟨12, [⟨5, .inout⟩], [], [], .apply 11 [⟨none, .place ⟨5, []⟩⟩, ⟨none, .lit ()⟩]⟩]

theorem rmUnusedApplyParams_keepsCalls_twoRounds :
    KeepsCalls [12] twoRounds (rmUnusedApplyParams [12] 6 twoRounds) ∧
      (paramCount twoRounds < 6 →
        removeUnusedApplyParams [12] (rmUnusedApplyParams [12] 6 twoRounds) =
          rmUnusedApplyParams [12] 6 twoRounds) := by
  refine rmUnusedApplyParams_keepsCalls 6
    ⟨by decide, by decide, by decide, by decide, declared_of_take (by decide), by decide⟩ ?_
  -- the third round changes nothing
  have hfix : removeUnusedApplyParams [12] ((removeUnusedApplyParams [12])^[2] twoRounds) =
      (removeUnusedApplyParams [12])^[2] twoRounds := by decide
  have hlast : RoundSafe [12] ((removeUnusedApplyParams [12])^[2] twoRounds) :=
    .of_ne_inout (by decide) (by decide) (by decide)
  rintro (_ | _ | k) _
  · exact .of_ne_inout (by decide) (by decide) (by decide)
  · exact .of_ne_inout (by decide) (by decide) (by decide)
  · have hk : (removeUnusedApplyParams [12])^[k + 2] twoRounds =
        (removeUnusedApplyParams [12])^[2] twoRounds :=
      (Function.iterate_add_apply _ k 2 _).trans (Function.iterate_fixed hfix k)
    exact hk ▸ hlast

/-- Control 10 has a table with action 20, which does not use its parameter. -/
def unusedActionParam : Program ℕ Unit :=
  [⟨10, [⟨2, .inout⟩], [⟨20, [⟨7, .none⟩], .skip⟩], [⟨30, []⟩],
      .seq (.table 30) (.assign ⟨2, []⟩ (.lit ()))⟩,
    ⟨12, [⟨5, .inout⟩], [], [], .apply 10 [⟨none, .place ⟨5, []⟩⟩]⟩]

theorem not_keepsCalls_unusedActionParam : WellTyped unusedActionParam ∧
    ∀ n, ¬ KeepsCalls [12] unusedActionParam (rmUnusedApplyParams [12] (n + 1) unusedActionParam)
    := by
  have harity : ¬ ArityOk (removeUnusedApplyParams [12] unusedActionParam) := by decide
  refine ⟨⟨by decide, by decide, by decide, by decide, declared_of_take (by decide), by decide⟩,
    fun n h => ?_⟩
  -- the type inference fails after the first round
  have hrounds : rmUnusedApplyParams [12] (n + 1) unusedActionParam =
      removeUnusedApplyParams [12] unusedActionParam := by
    rw [rmUnusedApplyParams, if_pos (by decide), if_neg (by decide)]
    cases n with
    | zero => rfl
    | succ n => rw [rmUnusedApplyParams, if_neg harity]
  exact harity (hrounds ▸ h.arity)

end Flattening
end MicroP4
