import MicroP4.Foundations.Relocation

/-!
# Calls that are not made

Whether a statement makes some calls to the outside can be told by giving them another meaning: a
statement that does not make them does the same (`exec_withMethod`).
-/

namespace MicroP4
namespace CopyInCopyOut

variable {N O E : Type}

/-- The same symbols, but for what the calls do. -/
def Interp.withMethod (I : Interp N O E) (method : O → List (Val N) → E → List (Val N) × E) :
    Interp N O E := { I with method := method }

/-- A statement makes none of some calls, and applies only some callees. -/
def Stmt.Allowed (cut : O → Bool) (good : N → Prop) : Stmt N O → Prop
  | .seq s t => s.Allowed cut good ∧ t.Allowed cut good
  | .cond _ s t => s.Allowed cut good ∧ t.Allowed cut good
  | .method f _ _ => cut f = false
  | .apply k _ => good k
  | _ => True

section Allowed

variable {cut : O → Bool} {good good' : N → Prop}

theorem Stmt.Allowed.mono : ∀ {s : Stmt N O}, s.Allowed cut good →
    (∀ k, .control k ∈ s.names → good k → good' k) → s.Allowed cut good'
  | .seq s t, h, hmono => ⟨h.1.mono fun k hk => hmono k (List.mem_append_left _ hk),
      h.2.mono fun k hk => hmono k (List.mem_append_right _ hk)⟩
  | .cond c s t, h, hmono => by
      refine ⟨h.1.mono fun k hk => hmono k ?_, h.2.mono fun k hk => hmono k ?_⟩
      · exact List.mem_append_right _ (List.mem_append_left _ hk)
      · exact List.mem_append_right _ (List.mem_append_right _ hk)
  | .method _ _ _, h, _ => h
  | .apply k _, h, hmono => hmono k List.mem_cons_self h
  | .skip, _, _ | .assign _ _, _, _ | .table _, _, _ | .action _ _, _, _ => trivial

theorem Stmt.Allowed.under (loc : N → Place N) : ∀ {s : Stmt N O}, s.Allowed cut good →
    (s.under loc).Allowed cut good
  | .seq _ _, h | .cond _ _ _, h => ⟨h.1.under loc, h.2.under loc⟩
  | .method _ _ _, h => h
  | .apply _ _, h => h
  | .skip, _ | .assign _ _, _ | .table _, _ | .action _ _, _ => trivial

end Allowed

section Exec

variable {I : Interp N O E} {method : O → List (Val N) → E → List (Val N) × E}

theorem eval_withMethod (σ : Frame N) : ∀ e : Expr N O, e.eval (I.withMethod method) σ = e.eval I σ
  | .lit _ | .place _ => rfl
  | .op o a b => by rw [Expr.eval, Expr.eval, eval_withMethod σ a, eval_withMethod σ b]; rfl

theorem map_eval_withMethod (σ : Frame N) (es : List (Expr N O)) :
    es.map (Expr.eval (I.withMethod method) σ) = es.map (Expr.eval I σ) :=
  List.map_congr_left fun e _ => eval_withMethod σ e

theorem copiedIn_withMethod (binds : List (Param N × Expr N O)) (σ φ : Frame N) :
    CopiedIn (I.withMethod method) binds σ φ ↔ CopiedIn I binds σ φ :=
  forall₂_congr fun b _ => by rw [eval_withMethod]

variable [DecidableEq N]

theorem callApply_withMethod (binds : List (Param N × Expr N O)) (body : Rel N E) :
    callApply (I.withMethod method) binds body = callApply I binds body := by
  funext σ e σ' e'
  simp only [callApply, copiedIn_withMethod]

theorem callAction_withMethod (params : List (Param N)) (binds : List (Param N × Expr N O))
    (body : Rel N E) :
    callAction (I.withMethod method) params binds body = callAction I params binds body := by
  funext σ e σ' e'
  simp only [callAction, inFrame, copiedIn_withMethod]

variable {cut : O → Bool} {good : N → Prop} {ctrls ctrls' acts : N → Option (Callee N E)}
  {keys : N → List (Expr N O)}

/-- **A statement does not depend on calls that it does not make.** -/
theorem exec_withMethod (hm : ∀ f, cut f = false → method f = I.method f)
    (hctrls : ∀ k, good k → ctrls' k = ctrls k) : ∀ {s : Stmt N O}, s.Allowed cut good →
    s.exec (I.withMethod method) ctrls' acts keys = s.exec I ctrls acts keys
  | .skip, _ => rfl
  | .seq s t, h => by
      funext σ e σ' e'
      simp only [Stmt.exec, exec_withMethod hm hctrls h.1, exec_withMethod hm hctrls h.2]
  | .assign l r, _ => by
      funext σ e σ' e'
      simp only [Stmt.exec, eval_withMethod]
  | .cond c s t, h => by
      funext σ e σ' e'
      simp only [Stmt.exec, eval_withMethod, exec_withMethod hm hctrls h.1,
        exec_withMethod hm hctrls h.2]
      rfl
  | .method f ins outs, h => by
      have hf : (I.withMethod method).method f = I.method f := hm f h
      funext σ e σ' e'
      simp only [Stmt.exec, map_eval_withMethod, hf]
  | .table t, _ => by
      funext σ e σ' e'
      simp only [Stmt.exec, map_eval_withMethod]
      rfl
  | .action a args, _ => by
      funext σ e σ' e'
      simp only [Stmt.exec, callAction_withMethod]
  | .apply c args, h => by
      funext σ e σ' e'
      simp only [Stmt.exec, callApply_withMethod, hctrls c h]

end Exec

end CopyInCopyOut
end MicroP4
