import Mathlib.Logic.Relation

/-!
# Dominance

A node dominates another if every path from the start to the other one goes through it.  What
dominates a node is the node itself and what dominates all its predecessors, except at the
start, which only the start dominates.

An edge to a node that dominates its source closes a loop, whose body are the nodes from which
the source can be reached without coming back to the head.  There is no way into the body past
the head (`Dominates.of_reach`).
-/

namespace MicroP4
namespace Foundations

open Relation

variable {α : Type*} {E : α → α → Prop} {start : α}

/-- The nodes of a path from `start` to a node, the last one first. -/
inductive PathTo (E : α → α → Prop) (start : α) : α → List α → Prop
  | start : PathTo E start start [start]
  | step {a b : α} {p : List α} (h : PathTo E start a p) (hE : E a b) : PathTo E start b (b :: p)

theorem PathTo.mem_last {a : α} {p : List α} (h : PathTo E start a p) : a ∈ p := by
  cases h with
  | start => exact List.mem_singleton_self _
  | step => exact List.mem_cons_self

/-- Every path from the start to `n` goes through `d`. -/
def Dominates (E : α → α → Prop) (start d n : α) : Prop := ∀ p, PathTo E start n p → d ∈ p

theorem Dominates.refl (n : α) : Dominates E start n n := fun _ h => h.mem_last

theorem dominates_start_iff {d : α} : Dominates E start d start ↔ d = start :=
  ⟨fun h => List.mem_singleton.mp (h _ .start), fun h => h ▸ Dominates.refl _⟩

/-- What dominates a node dominates its predecessors, but for the node itself. -/
theorem Dominates.of_edge {d c n : α} (h : Dominates E start d n) (hne : d ≠ n) (hE : E c n) :
    Dominates E start d c := fun p hp => by
  rcases List.mem_cons.mp (h _ (hp.step hE)) with heq | hmem
  · exact absurd heq hne
  · exact hmem

/-- A family of sets that holds no more at the start than the start, and no more at another node
than the node and what the sets of its predecessors have in common, holds dominators only. -/
theorem dominates_of_family {D : α → α → Prop} (hstart : ∀ d, D start d → d = start)
    (hstep : ∀ n d, D n d → d = n ∨ ∀ c, E c n → D c d) {d n : α} (h : D n d) :
    Dominates E start d n := by
  intro p hp
  induction hp generalizing d with
  | start => exact hstart d h ▸ List.mem_singleton_self _
  | step _ hE ih =>
      rcases hstep _ d h with rfl | hpred
      · exact List.mem_cons_self
      · exact List.mem_cons_of_mem _ (ih (hpred _ hE))

/-- The way from a node of the body of a loop to the source of its back edge: it does not come
back to the head. -/
def ReachesPast (E : α → α → Prop) (head : α) : α → α → Prop :=
  ReflTransGen fun a b => E a b ∧ b ≠ head

/-- The head of a loop dominates its body. -/
theorem Dominates.of_reach {head e v : α} (h : Dominates E start head e)
    (hv : ReachesPast E head v e) : Dominates E start head v := by
  induction hv using ReflTransGen.head_induction_on with
  | refl => exact h
  | head hE _ ih => exact ih.of_edge (Ne.symm hE.2) hE.1

end Foundations
end MicroP4
