import Mathlib

/-!
# First visits

A traversal that visits every key once keeps, of the sequence of all visits, the first one for
each key.  `addNew` appends these to the visits that are already there.
-/

namespace MicroP4
namespace Foundations

variable {α κ : Type*} [DecidableEq κ] (key : α → κ)

/-- The visits in `done`, and those of a list whose key was not visited before. -/
def addNew : List α → List α → List α
  | done, [] => done
  | done, x :: xs => addNew (if key x ∈ done.map key then done else done ++ [x]) xs

variable {key}

theorem addNew_append (done xs ys : List α) :
    addNew key done (xs ++ ys) = addNew key (addNew key done xs) ys := by
  induction xs generalizing done with
  | nil => rfl
  | cons x xs ih => exact ih _

theorem addNew_cons_of_notMem {done : List α} {x : α} (hx : key x ∉ done.map key)
    (xs : List α) : addNew key done (x :: xs) = addNew key (done ++ [x]) xs := by
  rw [addNew, if_neg hx]

/-- Nothing is new. -/
theorem addNew_eq_self {done xs : List α} (h : ∀ x ∈ xs, key x ∈ done.map key) :
    addNew key done xs = done := by
  induction xs with
  | nil => rfl
  | cons x xs ih =>
      rw [addNew, if_pos (h x List.mem_cons_self)]
      exact ih fun y hy => h y (List.mem_cons_of_mem _ hy)

theorem mem_map_key_addNew {done xs : List α} {k : κ} :
    k ∈ (addNew key done xs).map key ↔ k ∈ done.map key ∨ k ∈ xs.map key := by
  induction xs generalizing done with
  | nil => exact (or_iff_left List.not_mem_nil).symm
  | cons x xs ih =>
      rw [addNew, ih, List.map_cons, List.mem_cons]
      by_cases hx : key x ∈ done.map key
      · rw [if_pos hx]
        constructor
        · exact fun h => h.imp_right Or.inr
        · rintro (h | rfl | h)
          · exact Or.inl h
          · exact Or.inl hx
          · exact Or.inr h
      · rw [if_neg hx, List.map_append, List.mem_append, or_assoc]
        exact or_congr_right (or_congr_left List.mem_singleton)

/-- A visit is kept if it was there, or is the first one for a new key. -/
theorem mem_addNew_iff {done xs : List α} {x : α} : x ∈ addNew key done xs ↔
    x ∈ done ∨ key x ∉ done.map key ∧ xs.find? (fun y => key y = key x) = some x := by
  induction xs generalizing done with
  | nil => simp [addNew]
  | cons y ys ih =>
      rw [addNew, ih]
      by_cases hy : key y ∈ done.map key
      · rw [if_pos hy]
        refine or_congr_right (and_congr_right fun hx => ?_)
        have hne : ¬ key y = key x := fun h => hx (h ▸ hy)
        rw [List.find?_cons_of_neg (by simpa using hne)]
      · rw [if_neg hy, List.map_append, List.mem_append, List.mem_append]
        by_cases hxy : key y = key x
        · have hx : key x ∉ done.map key := hxy ▸ hy
          rw [List.find?_cons_of_pos (by simpa using hxy)]
          simp [hxy, hx]
          exact or_congr_right eq_comm
        · have hne : x ≠ y := by
            rintro rfl
            exact hxy rfl
          rw [List.find?_cons_of_neg (by simpa using hxy)]
          simp [Ne.symm hxy, hne]

end Foundations
end MicroP4
