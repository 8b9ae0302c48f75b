import Mathlib.Data.List.Basic
import Mathlib.Logic.Function.Basic

/-!
# Straight-line code of assignments

An assignment computes a value from the locations it reads and puts it into its target.
Two facts make it possible to rearrange straight-line code: blocks that do not touch each
other's locations can be exchanged, and an assignment to a location that is assigned again
before it is read can be dropped.

Nothing here is about a particular program.
-/

namespace MicroP4
namespace Assignments

/-- An expression, known by the locations it may read. -/
structure Expr (L V : Type) where
  reads : L → Prop
  eval : (L → V) → V
  eval_congr : ∀ {σ τ}, (∀ x, reads x → σ x = τ x) → eval σ = eval τ

/-- An expression that reads nothing. -/
def Expr.const {L V : Type} (v : V) : Expr L V where
  reads _ := False
  eval _ := v
  eval_congr _ := rfl

/-- The value of a location. -/
def Expr.loc {L V : Type} (x : L) : Expr L V where
  reads y := y = x
  eval σ := σ x
  eval_congr h := h x rfl

/-- The assignment of an expression to a location. -/
structure Assignment (L V : Type) where
  target : L
  rhs : Expr L V

variable {L V : Type} [DecidableEq L]

/-- Running an assignment. -/
def Assignment.exec (σ : L → V) (a : Assignment L V) : L → V :=
  Function.update σ a.target (a.rhs.eval σ)

/-- Running assignments in order. -/
def run (l : List (Assignment L V)) (σ : L → V) : L → V := l.foldl Assignment.exec σ

variable {a b : Assignment L V} {l l₁ l₂ : List (Assignment L V)} {σ τ : L → V} {x : L}

@[simp] theorem run_nil : run [] σ = σ := rfl

@[simp] theorem run_cons : run (a :: l) σ = run l (a.exec σ) := rfl

theorem run_append : run (l₁ ++ l₂) σ = run l₂ (run l₁ σ) := List.foldl_append

@[simp] theorem exec_target : a.exec σ a.target = a.rhs.eval σ := Function.update_self _ _ _

theorem exec_of_ne (h : x ≠ a.target) : a.exec σ x = σ x := Function.update_of_ne h _ _

/-- Only targets change. -/
theorem run_of_ne (h : ∀ a ∈ l, a.target ≠ x) : run l σ x = σ x := by
  induction l generalizing σ with
  | nil => rfl
  | cons a l ih =>
      rw [run_cons, ih fun b hb => h b (List.mem_cons_of_mem a hb)]
      exact exec_of_ne (Ne.symm (h a List.mem_cons_self))

/-- The last assignment to a location decides, if the value does not depend on the store. -/
theorem run_eq_of_last {v : V} (ha : ∀ τ : L → V, a.rhs.eval τ = v)
    (h : ∀ b ∈ l₂, b.target ≠ a.target) : run (l ++ a :: l₂) σ a.target = v := by
  rw [run_append, run_cons, run_of_ne h, exec_target, ha]

/-- Stores that agree on what is read agree afterwards, also on the targets. -/
theorem run_congr (P : L → Prop) (hP : ∀ x, P x → σ x = τ x)
    (hreads : ∀ a ∈ l, ∀ x, a.rhs.reads x → P x) :
    ∀ x, (P x ∨ ∃ a ∈ l, a.target = x) → run l σ x = run l τ x := by
  induction l generalizing P σ τ with
  | nil =>
      rintro x (hx | ⟨a, ha, -⟩)
      · exact hP x hx
      · exact absurd ha List.not_mem_nil
  | cons a l ih =>
      have heval : a.rhs.eval σ = a.rhs.eval τ :=
        a.rhs.eval_congr fun x hx => hP x (hreads a List.mem_cons_self x hx)
      have hexec : ∀ x, (P x ∨ x = a.target) → a.exec σ x = a.exec τ x := by
        intro x hx
        by_cases hxa : x = a.target
        · rw [hxa, exec_target, exec_target, heval]
        · rw [exec_of_ne hxa, exec_of_ne hxa, hP x (hx.resolve_right hxa)]
      intro x hx
      refine ih (fun x => P x ∨ x = a.target) hexec
        (fun b hb y hy => Or.inl (hreads b (List.mem_cons_of_mem a hb) y hy)) x ?_
      rcases hx with hx | ⟨b, hb, rfl⟩
      · exact Or.inl (Or.inl hx)
      · rcases List.mem_cons.mp hb with rfl | hb
        · exact Or.inl (Or.inr rfl)
        · exact Or.inr ⟨b, hb, rfl⟩

/-- An assignment whose target is assigned again before it is read makes no difference. -/
theorem run_cons_of_dead (hover : ∃ b ∈ l, b.target = a.target)
    (hreads : ∀ b ∈ l, ¬ b.rhs.reads a.target) : run (a :: l) σ = run l σ := by
  funext x
  rw [run_cons]
  refine run_congr (fun y => y ≠ a.target) (fun y hy => exec_of_ne hy) ?_ x ?_
  · intro b hb y hy hya
    exact hreads b hb (hya ▸ hy)
  · by_cases hx : x = a.target
    · exact Or.inr (hx ▸ hover)
    · exact Or.inl hx

/-- Neither of two assignments touches what the other writes. -/
def Independent (a b : Assignment L V) : Prop :=
  a.target ≠ b.target ∧ ¬ a.rhs.reads b.target ∧ ¬ b.rhs.reads a.target

theorem exec_comm (h : Independent a b) : a.exec (b.exec σ) = b.exec (a.exec σ) := by
  obtain ⟨hne, hab, hba⟩ := h
  have ha : a.rhs.eval (b.exec σ) = a.rhs.eval σ :=
    a.rhs.eval_congr fun x hx => exec_of_ne fun hxb => hab (hxb ▸ hx)
  have hb : b.rhs.eval (a.exec σ) = b.rhs.eval σ :=
    b.rhs.eval_congr fun x hx => exec_of_ne fun hxa => hba (hxa ▸ hx)
  rw [Assignment.exec, ha, Assignment.exec, Assignment.exec, hb, Assignment.exec]
  exact Function.update_comm hne.symm _ _ σ

theorem run_exec_comm (h : ∀ b ∈ l, Independent a b) : run l (a.exec σ) = a.exec (run l σ) := by
  induction l generalizing σ with
  | nil => rfl
  | cons b l ih =>
      rw [run_cons, run_cons, ← exec_comm (h b List.mem_cons_self)]
      exact ih fun c hc => h c (List.mem_cons_of_mem b hc)

/-- Blocks of independent assignments can be exchanged. -/
theorem run_append_comm (h : ∀ a ∈ l₁, ∀ b ∈ l₂, Independent a b) :
    run (l₁ ++ l₂) σ = run (l₂ ++ l₁) σ := by
  rw [run_append, run_append]
  induction l₁ generalizing σ with
  | nil => rfl
  | cons a l₁ ih =>
      rw [run_cons, run_cons, ih fun c hc => h c (List.mem_cons_of_mem a hc),
        run_exec_comm (h a List.mem_cons_self)]

end Assignments
end MicroP4
