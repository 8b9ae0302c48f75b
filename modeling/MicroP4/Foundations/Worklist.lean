import Mathlib.Data.List.Basic

/-!
# Worklists

A worklist is a list of items to visit, the next one first.  Visiting an item puts its
successors in front, the last one first, so that the list is a stack.  `exhaust` is the list
of the items visited until the worklist is empty; it is `none` when more than the given number
of items would be visited.
-/

namespace MicroP4
namespace Worklist

variable {α : Type*}

/-- The items visited, in order. -/
def exhaust (next : α → List α) : ℕ → List α → Option (List α)
  | _, [] => some []
  | 0, _ :: _ => none
  | n + 1, a :: todo => (exhaust next n ((next a).reverse ++ todo)).map (a :: ·)

variable {next : α → List α}

/-- Every item of the worklist is visited, and with an item its successors. -/
theorem closed_of_exhaust {n : ℕ} {todo done : List α} (h : exhaust next n todo = some done) :
    (∀ a ∈ todo, a ∈ done) ∧ ∀ a ∈ done, ∀ b ∈ next a, b ∈ done := by
  induction n generalizing todo done with
  | zero =>
      cases todo with
      | nil =>
          cases h
          exact ⟨fun _ ha => ha, fun _ ha => absurd ha List.not_mem_nil⟩
      | cons a todo => exact absurd h (by simp [exhaust])
  | succ n ih =>
      cases todo with
      | nil =>
          cases h
          exact ⟨fun _ ha => ha, fun _ ha => absurd ha List.not_mem_nil⟩
      | cons a todo =>
          rw [exhaust, Option.map_eq_some_iff] at h
          obtain ⟨done', hdone', rfl⟩ := h
          obtain ⟨htodo, hnext⟩ := ih hdone'
          refine ⟨fun b hb => ?_, fun b hb c hc => ?_⟩
          · rcases List.mem_cons.mp hb with rfl | hb
            · exact List.mem_cons_self
            · exact List.mem_cons_of_mem _ (htodo b (List.mem_append_right _ hb))
          · rcases List.mem_cons.mp hb with rfl | hb
            · have hc' : c ∈ (next b).reverse ++ todo :=
                List.mem_append_left _ (List.mem_reverse.mpr hc)
              exact List.mem_cons_of_mem _ (htodo c hc')
            · exact List.mem_cons_of_mem _ (hnext b hb c hc)

/-- What holds of the worklist and is kept by successors holds of all items visited. -/
theorem forall_of_exhaust {p : α → Prop} (hp : ∀ a, p a → ∀ b ∈ next a, p b) {n : ℕ}
    {todo done : List α} (h : exhaust next n todo = some done) (htodo : ∀ a ∈ todo, p a) :
    ∀ a ∈ done, p a := by
  induction n generalizing todo done with
  | zero =>
      cases todo with
      | nil =>
          cases h
          exact htodo
      | cons a todo => exact absurd h (by simp [exhaust])
  | succ n ih =>
      cases todo with
      | nil =>
          cases h
          exact htodo
      | cons a todo =>
          rw [exhaust, Option.map_eq_some_iff] at h
          obtain ⟨done', hdone', rfl⟩ := h
          have ha : p a := htodo a List.mem_cons_self
          intro b hb
          rcases List.mem_cons.mp hb with rfl | hb
          · exact ha
          · refine ih hdone' (fun c hc => ?_) b hb
            rcases List.mem_append.mp hc with hc | hc
            · exact hp a ha c (List.mem_reverse.mp hc)
            · exact htodo c (List.mem_cons_of_mem _ hc)

/-- More items may be visited. -/
theorem isSome_exhaust_add {n k : ℕ} {todo : List α} (h : (exhaust next n todo).isSome) :
    (exhaust next (n + k) todo).isSome := by
  induction n generalizing todo with
  | zero =>
      cases todo with
      | nil => rw [exhaust, Option.isSome_some]
      | cons a todo => exact absurd h (by simp [exhaust])
  | succ n ih =>
      cases todo with
      | nil => rw [exhaust, Option.isSome_some]
      | cons a todo =>
          rw [exhaust, Option.isSome_map] at h
          rw [Nat.succ_add, exhaust, Option.isSome_map]
          exact ih h

theorem acc_of_isSome_exhaust {n : ℕ} {todo : List α} (h : (exhaust next n todo).isSome) :
    ∀ a ∈ todo, Acc (fun b a => b ∈ next a) a := by
  induction n generalizing todo with
  | zero =>
      cases todo with
      | nil => exact fun _ ha => absurd ha List.not_mem_nil
      | cons a todo => exact absurd h (by simp [exhaust])
  | succ n ih =>
      cases todo with
      | nil => exact fun _ ha => absurd ha List.not_mem_nil
      | cons a todo =>
          rw [exhaust, Option.isSome_map] at h
          have hrest := ih h
          intro b hb
          rcases List.mem_cons.mp hb with rfl | hb
          · exact .intro b fun c hc =>
              hrest c (List.mem_append_left _ (List.mem_reverse.mpr hc))
          · exact hrest b (List.mem_append_right _ hb)

/-- With more to visit behind it, a worklist becomes empty if both parts do. -/
theorem isSome_exhaust_append {n k : ℕ} {l todo : List α} (hl : (exhaust next n l).isSome)
    (htodo : (exhaust next k todo).isSome) : (exhaust next (n + k) (l ++ todo)).isSome := by
  induction n generalizing l with
  | zero =>
      cases l with
      | nil => rwa [List.nil_append, Nat.zero_add]
      | cons a l => exact absurd hl (by simp [exhaust])
  | succ n ih =>
      cases l with
      | nil =>
          rw [List.nil_append, Nat.add_comm]
          exact isSome_exhaust_add htodo
      | cons a l =>
          rw [exhaust, Option.isSome_map] at hl
          rw [List.cons_append, Nat.succ_add, exhaust, Option.isSome_map, ← List.append_assoc]
          exact ih hl

theorem exists_isSome_exhaust_singleton {a : α} (ha : Acc (fun b a => b ∈ next a) a) :
    ∃ n, (exhaust next n [a]).isSome := by
  induction ha with
  | intro a _ ih =>
      have hall : ∀ l : List α, (∀ b ∈ l, b ∈ next a) → ∃ n, (exhaust next n l).isSome := by
        intro l
        induction l with
        | nil => exact fun _ => ⟨0, rfl⟩
        | cons b l ihl =>
            intro hl
            obtain ⟨n, hn⟩ := ih b (hl b List.mem_cons_self)
            obtain ⟨k, hk⟩ := ihl fun c hc => hl c (List.mem_cons_of_mem _ hc)
            exact ⟨n + k, isSome_exhaust_append hn hk⟩
      obtain ⟨n, hn⟩ := hall (next a).reverse fun b hb => List.mem_reverse.mp hb
      refine ⟨n + 1, ?_⟩
      rw [exhaust, List.append_nil, Option.isSome_map]
      exact hn

/-- **A worklist becomes empty** exactly if no item on it leads to others without end. -/
theorem exists_isSome_exhaust_iff {todo : List α} :
    (∃ n, (exhaust next n todo).isSome) ↔ ∀ a ∈ todo, Acc (fun b a => b ∈ next a) a := by
  constructor
  · rintro ⟨n, hn⟩
    exact acc_of_isSome_exhaust hn
  · intro h
    induction todo with
    | nil => exact ⟨0, rfl⟩
    | cons a todo ih =>
        obtain ⟨k, hk⟩ := ih fun b hb => h b (List.mem_cons_of_mem _ hb)
        obtain ⟨n, hn⟩ := exists_isSome_exhaust_singleton (h a List.mem_cons_self)
        exact ⟨n + k, isSome_exhaust_append hn hk⟩

end Worklist
end MicroP4
