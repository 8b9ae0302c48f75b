import Mathlib.Data.List.Nodup
import Mathlib.Data.List.Perm.Subperm
import Mathlib.Logic.Relation

/-!
# The depth of a node

In an acyclic relation on finitely many nodes the longest chain that ends in a node has a
length, the depth of the node.  A chain that ends in a node has shorter ones inside it, so the
depth is the last length at which there is a chain, and it grows along the relation.
-/

namespace MicroP4
namespace Foundations

variable {α : Type*} {E : α → α → Prop}

/-- A chain with `k` steps ends in the node. -/
inductive HasChain (E : α → α → Prop) : α → ℕ → Prop
  | zero (a : α) : HasChain E a 0
  | succ {a b : α} {k : ℕ} : E a b → HasChain E a k → HasChain E b (k + 1)

theorem hasChain_succ_iff {b : α} {k : ℕ} :
    HasChain E b (k + 1) ↔ ∃ a, E a b ∧ HasChain E a k := by
  constructor
  · rintro (_ | ⟨hE, h⟩)
    exact ⟨_, hE, h⟩
  · rintro ⟨a, hE, h⟩
    exact .succ hE h

theorem HasChain.of_succ {a : α} {k : ℕ} (h : HasChain E a (k + 1)) : HasChain E a k := by
  induction k generalizing a with
  | zero => exact .zero a
  | succ k ih =>
      obtain ⟨b, hE, hb⟩ := hasChain_succ_iff.mp h
      exact .succ hE (ih hb)

theorem HasChain.of_le {a : α} {j k : ℕ} (h : HasChain E a k) (hjk : j ≤ k) : HasChain E a j := by
  induction hjk with
  | refl => exact h
  | step _ ih => exact ih h.of_succ

/-- Further along the relation the chains are longer. -/
theorem HasChain.of_transGen {a b : α} {k : ℕ} (h : HasChain E a k)
    (hab : Relation.TransGen E a b) : HasChain E b (k + 1) := by
  induction hab with
  | single hE => exact .succ hE h
  | tail _ hE ih => exact .succ hE ih.of_succ

/-- Around a cycle there are chains of every length. -/
theorem hasChain_of_transGen_self {a : α} (h : Relation.TransGen E a a) :
    ∀ k, HasChain E a k
  | 0 => .zero a
  | k + 1 => (hasChain_of_transGen_self h k).of_transGen h

/-- The longest chain that ends in the node has `k` steps. -/
def AtDepth (E : α → α → Prop) (a : α) (k : ℕ) : Prop := HasChain E a k ∧ ¬ HasChain E a (k + 1)

/-- Two nodes have the same depth. -/
def SameDepth (E : α → α → Prop) (a b : α) : Prop := ∃ k, AtDepth E a k ∧ AtDepth E b k

/-- A bound on the chains gives a node a depth. -/
theorem exists_atDepth {a : α} {k : ℕ} (h : ¬ HasChain E a k) : ∃ j, AtDepth E a j := by
  induction k with
  | zero => exact absurd (.zero a) h
  | succ k ih =>
      by_cases hk : HasChain E a k
      · exact ⟨k, hk, h⟩
      · exact ih hk

/-- A node and one further along have different depths. -/
theorem not_sameDepth_of_transGen {a b : α} (h : Relation.TransGen E a b) :
    ¬ SameDepth E a b := by
  rintro ⟨k, ha, hb⟩
  exact hb.2 (ha.1.of_transGen h)

/-- Where a number grows along the relation there is no cycle. -/
theorem not_transGen_self_of_lt {f : α → ℕ} (h : ∀ a b, E a b → f a < f b) (a : α) :
    ¬ Relation.TransGen E a a := by
  have hlt : ∀ b, Relation.TransGen E a b → f a < f b := by
    intro b hb
    induction hb with
    | single hE => exact h _ _ hE
    | tail _ hE ih => exact Nat.lt_trans ih (h _ _ hE)
  exact fun haa => Nat.lt_irrefl _ (hlt a haa)

/-! ## Finitely many nodes -/

/-- Without cycles, a chain passes through as many nodes as it has steps, and one more. -/
theorem HasChain.exists_nodup {a : α} {k : ℕ} (h : HasChain E a k)
    (hacyclic : ∀ b, ¬ Relation.TransGen E b b) :
    ∃ l : List α, l.length = k ∧ (a :: l).Nodup ∧
      ∀ b ∈ l, Relation.TransGen E b a ∧ ∃ c, E b c := by
  induction h with
  | zero a => exact ⟨[], rfl, List.nodup_singleton a, fun b hb => absurd hb List.not_mem_nil⟩
  | @succ a b k hE _ ih =>
      obtain ⟨l, hlen, hnd, hl⟩ := ih
      have hreach : ∀ c ∈ a :: l, Relation.TransGen E c b ∧ ∃ d, E c d := by
        intro c hc
        rcases List.mem_cons.mp hc with rfl | hc
        · exact ⟨.single hE, _, hE⟩
        · exact ⟨(hl c hc).1.tail hE, (hl c hc).2⟩
      refine ⟨a :: l, ?_, List.nodup_cons.mpr ⟨fun hb => ?_, hnd⟩, hreach⟩
      · rw [List.length_cons, hlen]
      · exact hacyclic b (hreach b hb).1

/-- Without cycles, a chain has fewer steps than there are nodes. -/
theorem HasChain.lt_length {nodes : List α} {a : α} {k : ℕ} (h : HasChain E a k)
    (hacyclic : ∀ b, ¬ Relation.TransGen E b b) (hsource : ∀ b c, E b c → b ∈ nodes)
    (ha : a ∈ nodes) : k < nodes.length := by
  obtain ⟨l, rfl, hnd, hl⟩ := h.exists_nodup hacyclic
  have hsub : a :: l ⊆ nodes := by
    intro b hb
    rcases List.mem_cons.mp hb with rfl | hb
    · exact ha
    · obtain ⟨c, hc⟩ := (hl b hb).2
      exact hsource b c hc
  exact (List.subperm_of_subset hnd hsub).length_le

end Foundations
end MicroP4
