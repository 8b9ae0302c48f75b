import Mathlib.Data.Fintype.Pigeonhole
import Mathlib.Logic.Relation
import Mathlib.Order.WellFounded

/-!
# Going on without end

Steps from `a` go on without end only if they come to two elements with the same view, when
there are finitely many views.  If the steps from an element depend on its view only, the
converse holds: what has come to its view again does so once more.
-/

namespace MicroP4
namespace Recurrence

variable {α β : Type*}

/-- What leads from `a` to elements of which a later one has the view of an earlier one. -/
def Recurs (r : α → α → Prop) (view : α → β) (a : α) : Prop :=
  ∃ b c, Relation.ReflTransGen r a b ∧ Relation.TransGen r b c ∧ view c = view b

/-- The steps from elements with `p` keep it, and lead to the same views from the same view. -/
structure Respects (r : α → α → Prop) (p : α → Prop) (view : α → β) : Prop where
  keeps : ∀ {a b}, r a b → p a → p b
  step : ∀ {a a' b}, p a → p a' → view a = view a' → r a b → ∃ b', r a' b' ∧ view b = view b'

variable {r : α → α → Prop} {p : α → Prop} {view : α → β}

theorem transGen_of_lt {f : ℕ → α} (hf : ∀ n, r (f n) (f (n + 1))) {m n : ℕ} (h : m < n) :
    Relation.TransGen r (f m) (f n) := by
  induction n, h using Nat.le_induction with
  | base => exact .single (hf m)
  | succ n _ ih => exact .tail ih (hf n)

/-- Two of infinitely many steps have the same view. -/
theorem recurs_of_not_acc [Finite β] {a : α} (h : ¬ Acc (fun b a => r a b) a) :
    Recurs r view a := by
  obtain ⟨f, rfl, hf⟩ := not_acc_iff_exists_descending_chain.mp h
  obtain ⟨m, n, hne, heq⟩ := Finite.exists_ne_map_eq_of_infinite fun n => view (f n)
  have hreach : ∀ n, Relation.ReflTransGen r (f 0) (f n) := by
    intro n
    induction n with
    | zero => exact .refl
    | succ n ih => exact .tail ih (hf n)
  rcases Nat.lt_or_gt_of_ne hne with hlt | hlt
  · exact ⟨f m, f n, hreach m, transGen_of_lt hf hlt, heq.symm⟩
  · exact ⟨f n, f m, hreach n, transGen_of_lt hf hlt, heq⟩

namespace Respects

variable (h : Respects r p view)

include h

theorem keeps_reflTransGen {a b : α} (hab : Relation.ReflTransGen r a b) (ha : p a) : p b := by
  induction hab with
  | refl => exact ha
  | tail _ hbc ih => exact h.keeps hbc ih

theorem transGen {a a' b : α} (hab : Relation.TransGen r a b) (ha : p a) (ha' : p a')
    (heq : view a = view a') : ∃ b', Relation.TransGen r a' b' ∧ view b = view b' := by
  induction hab with
  | single hab =>
      obtain ⟨b', hb', hview⟩ := h.step ha ha' heq hab
      exact ⟨b', .single hb', hview⟩
  | tail hab hbc ih =>
      obtain ⟨b', hb', hview⟩ := ih
      have hb := h.keeps_reflTransGen hab.to_reflTransGen ha
      obtain ⟨c', hc', hview'⟩ :=
        h.step hb (h.keeps_reflTransGen hb'.to_reflTransGen ha') hview hbc
      exact ⟨c', .tail hb' hc', hview'⟩

/-- What comes to its own view does so without end. -/
theorem not_acc {a b : α} (hab : Relation.TransGen r a b) (ha : p a) (heq : view b = view a) :
    ¬ Acc (fun b a => r a b) a := by
  intro hacc
  have htrans := hacc.transGen
  clear hacc
  induction htrans generalizing b with
  | intro a _ ih =>
      have hb := h.keeps_reflTransGen hab.to_reflTransGen ha
      obtain ⟨c, hbc, hview⟩ := h.transGen hab ha hb heq.symm
      have hba : Relation.TransGen (fun b a => r a b) b a := Relation.transGen_swap.mpr hab
      exact ih b hba hbc hb hview.symm

/-- **Steps go on without end** exactly if they recur. -/
theorem acc_iff [Finite β] {a : α} (ha : p a) :
    Acc (fun b a => r a b) a ↔ ¬ Recurs r view a := by
  refine ⟨?_, fun hrec => by_contra fun hacc => hrec (recurs_of_not_acc hacc)⟩
  rintro hacc ⟨b, c, hab, hbc, heq⟩
  refine h.not_acc hbc (h.keeps_reflTransGen hab ha) heq ?_
  clear hbc heq
  induction hab with
  | refl => exact hacc
  | tail _ hstep ih => exact ih.inv hstep

end Respects

end Recurrence
end MicroP4
