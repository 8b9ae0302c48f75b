import Mathlib.Data.List.Nodup
import Mathlib.Logic.Relation

/-!
# Strongly connected components in order

The components of a graph can be listed so that every edge between two of them leads to one
that stands in front.  `ComponentOrder` builds such a list component by component.  What stands
in front of a component is closed under edges, so a list of this kind is a topological order,
read from its end, exactly when all its components are single nodes.
-/

namespace MicroP4
namespace Foundations

open Relation

variable {α : Type*} {E : α → α → Prop}

/-- Each of the two nodes can be reached from the other. -/
def Mutual (E : α → α → Prop) (a b : α) : Prop := ReflTransGen E a b ∧ ReflTransGen E b a

theorem Mutual.symm {a b : α} (h : Mutual E a b) : Mutual E b a := ⟨h.2, h.1⟩

theorem Mutual.trans {a b c : α} (h : Mutual E a b) (h' : Mutual E b c) : Mutual E a c :=
  ⟨h.1.trans h'.1, h'.2.trans h.2⟩

/-- Two different nodes of a component lie on a cycle. -/
theorem Mutual.transGen_self {a b : α} (h : Mutual E a b) (hne : a ≠ b) : TransGen E a a := by
  rcases reflTransGen_iff_eq_or_transGen.mp h.1 with rfl | hab
  · exact absurd rfl hne
  · exact hab.trans_left h.2

/-- A node on a cycle has an edge to itself, or its component has another node. -/
theorem edge_or_mutual_of_transGen {a : α} (h : TransGen E a a) :
    E a a ∨ ∃ b, b ≠ a ∧ Mutual E a b := by
  obtain ⟨b, hab, hba⟩ := TransGen.head'_iff.mp h
  by_cases hb : b = a
  · exact Or.inl (hb ▸ hab)
  · exact Or.inr ⟨b, hb, .single hab, hba⟩

/-- No edge leads out of the list. -/
def EdgeClosed (E : α → α → Prop) (l : List α) : Prop := ∀ a ∈ l, ∀ b, E a b → b ∈ l

theorem EdgeClosed.reach {l : List α} (h : EdgeClosed E l) {a b : α} (ha : a ∈ l)
    (hab : ReflTransGen E a b) : b ∈ l := by
  induction hab with
  | refl => exact ha
  | tail _ hedge ih => exact h _ ih _ hedge

/-- Components one after the other, each behind those that its edges lead to. -/
inductive ComponentOrder (E : α → α → Prop) : List α → Prop
  | nil : ComponentOrder E []
  | append {l c : List α} (hl : ComponentOrder E l) (hnodup : c.Nodup)
      (hnew : ∀ a ∈ c, a ∉ l) (hcomp : ∀ a ∈ c, ∀ b, b ∈ c ↔ Mutual E a b)
      (hedge : ∀ a ∈ c, ∀ b, E a b → b ∈ l ∨ b ∈ c) : ComponentOrder E (l ++ c)

namespace ComponentOrder

variable {l : List α}

theorem edgeClosed (h : ComponentOrder E l) : EdgeClosed E l := by
  induction h with
  | nil => exact fun _ ha => absurd ha List.not_mem_nil
  | append _ _ _ _ hedge ih =>
      intro a ha b hab
      rcases List.mem_append.mp ha with ha | ha
      · exact List.mem_append_left _ (ih a ha b hab)
      · exact List.mem_append.mpr (hedge a ha b hab)

theorem nodup (h : ComponentOrder E l) : l.Nodup := by
  induction h with
  | nil => exact List.nodup_nil
  | append _ hnodup hnew _ _ ih =>
      refine List.nodup_append.mpr ⟨ih, hnodup, fun a ha b hb hab => ?_⟩
      exact hnew b hb (hab ▸ ha)

/-- A way to a node further behind stays within a component. -/
theorem pairwise (h : ComponentOrder E l) :
    l.Pairwise fun a b => ReflTransGen E a b → Mutual E a b := by
  induction h with
  | nil => exact List.Pairwise.nil
  | append hl _ hnew hcomp _ ih =>
      refine List.pairwise_append.mpr ⟨ih, ?_, fun a ha b hb hab => ?_⟩
      · exact List.pairwise_of_forall_mem_list fun a ha b hb _ => (hcomp a ha b).mp hb
      · exact absurd (hl.edgeClosed.reach ha hab) (hnew b hb)

/-- The nodes of a component stand together. -/
theorem mutual_of_between (h : ComponentOrder E l) {l₁ m l₂ : List α} {a b : α}
    (hl : l = l₁ ++ a :: (m ++ b :: l₂)) (hab : Mutual E a b) : ∀ x ∈ m, Mutual E a x := by
  induction h generalizing l₂ with
  | nil => exact absurd hl.symm (List.append_ne_nil_of_right_ne_nil _ (List.cons_ne_nil _ _))
  | @append l c hl' _ hnew hcomp _ ih =>
      intro x hx
      by_cases ha : a ∈ c
      · -- from `a` on, everything is in the last component
        refine (hcomp a ha x).mp ?_
        rcases List.append_eq_append_iff.mp hl with ⟨k, rfl, hc⟩ | ⟨k, rfl, hc⟩
        · rw [hc]
          exact List.mem_append_right _ (List.mem_cons_of_mem _ (List.mem_append_left _ hx))
        · cases k with
          | nil =>
              rw [List.nil_append] at hc
              rw [← hc]
              exact List.mem_cons_of_mem _ (List.mem_append_left _ hx)
          | cons y k =>
              rw [List.cons_append, List.cons.injEq] at hc
              exact absurd (List.mem_append_right _ (hc.1 ▸ List.mem_cons_self)) (hnew a ha)
      · -- `a` and `b` are both in front of it
        have hall : a ∈ l ∧ b ∉ c := by
          have hmem : a ∈ l ++ c := hl ▸ List.mem_append_right _ List.mem_cons_self
          exact ⟨(List.mem_append.mp hmem).resolve_right ha,
            fun hb => ha ((hcomp b hb a).mpr hab.symm)⟩
        have hsplit : l₁ ++ a :: m ++ b :: l₂ = l ++ c := by
          rw [hl, List.append_assoc, List.cons_append]
        rcases List.append_eq_append_iff.mp hsplit with ⟨k, hk, hc⟩ | ⟨k, hk, hc⟩
        · cases k with
          | nil =>
              rw [List.nil_append] at hc
              exact absurd (hc ▸ List.mem_cons_self) hall.2
          | cons y k =>
              rw [List.cons_append, List.cons.injEq] at hc
              obtain ⟨rfl, -⟩ := hc
              have hfront : l = l₁ ++ a :: (m ++ b :: k) := by
                rw [hk, List.append_assoc, List.cons_append]
              exact ih hfront x hx
        · exact absurd (hc ▸ List.mem_append_right _ List.mem_cons_self) hall.2

/-- Without cycles every edge leads to a node in front. -/
theorem pairwise_not_edge (h : ComponentOrder E l) (hacyclic : ∀ a ∈ l, ¬ TransGen E a a) :
    l.Pairwise fun a b => a ≠ b ∧ ¬ E a b := by
  have hand := List.pairwise_and_iff.mpr ⟨h.pairwise, List.nodup_iff_pairwise_ne.mp h.nodup⟩
  refine hand.imp_of_mem fun {a b} ha _ hab => ⟨hab.2, fun hedge => ?_⟩
  exact hacyclic a ha ((hab.1 (.single hedge)).transGen_self hab.2)

end ComponentOrder

end Foundations
end MicroP4
