import Mathlib.Tactic.Ring
import MicroP4.Analysis.BranchWalk

/-!
# The records of a control body

The records and the pending operations are computed from the tree of conditionals alone
(`Stmt.visit_records`), and the element of the vector at the position of a choice gets the
operations recorded under it (`Walk.at_run`).
-/

namespace MicroP4
namespace Analysis

variable {H N P : Type} [DecidableEq H]

/-! ## Operations of a record -/

/-- The operations of a record. -/
instance : Membership (HdrOp H) (OpsRecord H) where
  mem r o := match o with
    | .setValid h => h ∈ r.setValid
    | .setInvalid h => h ∈ r.setInvalid

namespace OpsRecord

omit [DecidableEq H] in
theorem mem_setValid {r : OpsRecord H} {h : H} : HdrOp.setValid h ∈ r ↔ h ∈ r.setValid :=
  Iff.rfl

omit [DecidableEq H] in
theorem mem_setInvalid {r : OpsRecord H} {h : H} : HdrOp.setInvalid h ∈ r ↔ h ∈ r.setInvalid :=
  Iff.rfl

omit [DecidableEq H] in
@[simp] theorem not_mem_empty (o : HdrOp H) : o ∉ (empty : OpsRecord H) := by
  cases o with
  | setValid h => exact Finset.notMem_empty h
  | setInvalid h => exact Finset.notMem_empty h

@[simp] theorem mem_union {r s : OpsRecord H} {o : HdrOp H} : o ∈ r.union s ↔ o ∈ r ∨ o ∈ s := by
  cases o with
  | setValid h => exact Finset.mem_union
  | setInvalid h => exact Finset.mem_union

@[simp] theorem mem_emplace {r : OpsRecord H} {o o' : HdrOp H} :
    o' ∈ r.emplace o ↔ o' = o ∨ o' ∈ r := by
  cases o with
  | setValid h =>
      cases o' with
      | setValid h' => simp [emplace, mem_setValid]
      | setInvalid h' => simp [emplace, mem_setInvalid]
  | setInvalid h =>
      cases o' with
      | setValid h' => simp [emplace, mem_setValid]
      | setInvalid h' => simp [emplace, mem_setInvalid]

theorem isEmpty_iff {r : OpsRecord H} : r.isEmpty = true ↔ ∀ o, o ∉ r := by
  unfold isEmpty
  rw [decide_eq_true_iff]
  constructor
  · rintro rfl
    exact not_mem_empty
  · intro h
    refine OpsRecord.ext ?_ ?_
    · exact Finset.eq_empty_of_forall_notMem fun a => h (.setValid a)
    · exact Finset.eq_empty_of_forall_notMem fun a => h (.setInvalid a)

end OpsRecord

/-! ## The loop that erases empty elements -/

/-- Erasing the first element with a property does not change which others there are. -/
theorem filter_eraseP {α : Type} (p : α → Bool) (l : List α) :
    (l.eraseP p).filter (fun a => !p a) = l.filter fun a => !p a := by
  induction l with
  | nil => rfl
  | cons a l ih =>
      cases ha : p a with
      | true => simp [ha]
      | false => simp [ha, ih]

/-- Every empty element is erased, also the last one. -/
theorem eraseEmptyElements_eq_filter (dup : Bool) (v : List (OpsRecord H)) :
    eraseEmptyElements dup v = v.filter fun r => !r.isEmpty := by
  fun_induction eraseEmptyElements dup v with
  | case1 v h ih => rw [ih, filter_eraseP]
  | case2 dup v h hd ih => exact ih
  | case3 dup v h =>
      symm
      rw [List.filter_eq_self]
      intro r hr
      have hne : ¬ r.isEmpty = true := fun he => h (List.any_eq_true.mpr ⟨r, hr, he⟩)
      simpa using hne

/-! ## Elements of the vector -/

/-- The element at a position has the operations of a predicate. -/
def HasOpsAt (v : List (OpsRecord H)) (i : ℕ) (Q : HdrOp H → Prop) : Prop :=
  ∃ r, v[i]? = some r ∧ ∀ o, o ∈ r ↔ Q o

@[simp] theorem length_insertCurrOpsRecToVecEles (r : OpsRecord H) (start stop : ℕ)
    (v : List (OpsRecord H)) : (insertCurrOpsRecToVecEles r start stop v).length = v.length :=
  List.length_mapIdx

@[simp] theorem length_replicateHdrValidityOpsVec {α : Type} (n : ℕ) (v : List α) :
    (replicateHdrValidityOpsVec n v).length = v.length * n := by
  simp [replicateHdrValidityOpsVec, Nat.mul_comm]

omit [DecidableEq H] in
theorem HasOpsAt.lt {v : List (OpsRecord H)} {i : ℕ} {Q : HdrOp H → Prop}
    (h : HasOpsAt v i Q) : i < v.length := by
  obtain ⟨r, hr, -⟩ := h
  exact (List.getElem?_eq_some_iff.mp hr).1

omit [DecidableEq H] in
theorem HasOpsAt.congr {v : List (OpsRecord H)} {i : ℕ} {Q Q' : HdrOp H → Prop}
    (h : HasOpsAt v i Q) (hQ : ∀ o, Q o ↔ Q' o) : HasOpsAt v i Q' := by
  obtain ⟨r, hr, hmem⟩ := h
  exact ⟨r, hr, fun o => (hmem o).trans (hQ o)⟩

theorem HasOpsAt.insert {v : List (OpsRecord H)} {i : ℕ} {Q : HdrOp H → Prop}
    (h : HasOpsAt v i Q) (cur : OpsRecord H) (start stop : ℕ) :
    HasOpsAt (insertCurrOpsRecToVecEles cur start stop v) i
      fun o => Q o ∨ (o ∈ cur ∧ start ≤ i ∧ i < stop) := by
  obtain ⟨r, hr, hmem⟩ := h
  refine ⟨if start ≤ i ∧ i < stop then r.union cur else r, ?_, ?_⟩
  · simp [insertCurrOpsRecToVecEles, hr]
  · intro o
    by_cases hi : start ≤ i ∧ i < stop
    · simp [hi, hmem]
    · simp [hi, hmem]

omit [DecidableEq H] in
theorem HasOpsAt.replicate {v : List (OpsRecord H)} {i k n : ℕ} {Q : HdrOp H → Prop}
    (h : HasOpsAt v i Q) (hk : k < n) :
    HasOpsAt (replicateHdrValidityOpsVec n v) (i + v.length * k) Q := by
  obtain ⟨r, hr, hmem⟩ := h
  refine ⟨r, ?_, hmem⟩
  have hi : i < v.length := (List.getElem?_eq_some_iff.mp hr).1
  induction n generalizing k with
  | zero => exact absurd hk (Nat.not_lt_zero k)
  | succ n ih =>
      rw [replicateHdrValidityOpsVec, List.replicate_succ, List.flatten_cons]
      cases k with
      | zero => rw [Nat.mul_zero, Nat.add_zero, List.getElem?_append_left hi, hr]
      | succ k =>
          have hpos : i + v.length * (k + 1) - v.length = i + v.length * k := by
            rw [Nat.mul_succ]
            omega
          rw [List.getElem?_append_right (by rw [Nat.mul_succ]; omega), hpos]
          exact ih (Nat.lt_of_succ_lt_succ hk)

/-! ## Running over the tree -/

mutual

/-- The vector and the pending operations after a tree. -/
def Walk.run : Walk H → List (OpsRecord H) × OpsRecord H → List (OpsRecord H) × OpsRecord H
  | .skip, v => v
  | .op o, v => (v.1, v.2.emplace o)
  | .seq s t, v => t.run (s.run v)
  | .branch bs, v =>
      bs.run v.1.length 0 (replicateHdrValidityOpsVec bs.length
        (insertCurrOpsRecToVecEles v.2 0 v.1.length v.1), OpsRecord.empty)

/-- The vector and the pending operations after the branches of a conditional. -/
def Branches.run (currSize index : ℕ) :
    Branches H → List (OpsRecord H) × OpsRecord H → List (OpsRecord H) × OpsRecord H
  | .nil, v => v
  | .cons b bs, v =>
      bs.run currSize (index + currSize)
        (insertCurrOpsRecToVecEles (b.run v).2 index (index + currSize) (b.run v).1,
          OpsRecord.empty)

end

mutual

theorem Walk.length_run : ∀ (s : Walk H) (v : List (OpsRecord H) × OpsRecord H),
    (s.run v).1.length = v.1.length * s.count
  | .skip, v => (Nat.mul_one _).symm
  | .op o, v => (Nat.mul_one _).symm
  | .seq s t, v => by
      rw [Walk.run, Walk.length_run t, Walk.length_run s, Walk.count, Nat.mul_assoc]
  | .branch bs, v => by
      rw [Walk.run, Branches.length_run bs, length_replicateHdrValidityOpsVec,
        length_insertCurrOpsRecToVecEles, Walk.count, Nat.mul_assoc]

theorem Branches.length_run {n i : ℕ} : ∀ (bs : Branches H)
    (v : List (OpsRecord H) × OpsRecord H), (bs.run n i v).1.length = v.1.length * bs.count
  | .nil, v => (Nat.mul_one _).symm
  | .cons b bs, v => by
      rw [Branches.run, Branches.length_run bs, length_insertCurrOpsRecToVecEles,
        Walk.length_run b, Branches.count, Nat.mul_assoc]

end

/-- Nothing is pending behind the branches of a conditional. -/
theorem Branches.snd_run {n : ℕ} : ∀ (bs : Branches H) (i : ℕ) (v : List (OpsRecord H)),
    (bs.run n i (v, OpsRecord.empty)).2 = OpsRecord.empty
  | .nil, _, _ => rfl
  | .cons _ bs, _, _ => by
      rw [Branches.run]
      exact Branches.snd_run bs _ _

/-- What is pending behind a tree. -/
theorem Walk.mem_snd_run {o : HdrOp H} : ∀ (s : Walk H) (v : List (OpsRecord H) × OpsRecord H),
    o ∈ (s.run v).2 ↔ s.Trailing o ∨ (s.hasBranch = false ∧ o ∈ v.2)
  | .skip, v => by simp [Walk.run, Walk.Trailing, Walk.hasBranch]
  | .op _, v => by simp [Walk.run, Walk.Trailing, Walk.hasBranch]
  | .seq s t, v => by
      rw [Walk.run, Walk.mem_snd_run t, Walk.mem_snd_run s, Walk.Trailing, Walk.hasBranch,
        Bool.or_eq_false_iff]
      tauto
  | .branch bs, v => by
      rw [Walk.run, Branches.snd_run]
      simp [Walk.Trailing, Walk.hasBranch]

/-- A position lies in the range of branch `idx` exactly if its digit of the conditional is
`idx` and all digits of conditionals visited later are zero. -/
theorem mem_range_iff {n i own idx K m : ℕ} (hi : i < n) (hidx : idx < K) :
    (n * idx ≤ i + n * (own + K * m) ∧ i + n * (own + K * m) < n * idx + n) ↔
      own = idx ∧ m = 0 := by
  have hdiv : (i + n * (own + K * m)) / n = own + K * m := by
    rw [Nat.add_mul_div_left _ _ (Nat.zero_lt_of_lt hi), Nat.div_eq_of_lt hi, Nat.zero_add]
  rw [← Nat.mul_succ, Nat.mul_comm n idx, ← Nat.le_div_iff_mul_le (Nat.zero_lt_of_lt hi),
    Nat.mul_comm n idx.succ, ← Nat.div_lt_iff_lt_mul (Nat.zero_lt_of_lt hi), hdiv]
  constructor
  · rintro ⟨h₁, h₂⟩
    have hm : m = 0 := by
      cases m with
      | zero => rfl
      | succ m =>
          rw [Nat.mul_succ] at h₂
          omega
    subst hm
    omega
  · rintro ⟨rfl, rfl⟩
    omega

mutual

/-- The element at the position of a choice gets the operations recorded under it. -/
theorem Walk.hasOpsAt_run : ∀ (s : Walk H) (v : List (OpsRecord H) × OpsRecord H) {c : Choice}
    {i : ℕ} {Q : HdrOp H → Prop}, s.Picks c → HasOpsAt v.1 i Q →
    HasOpsAt (s.run v).1 (i + v.1.length * s.code c)
      fun o => Q o ∨ (s.hasBranch = true ∧ o ∈ v.2) ∨ s.Recorded c o
  | .skip, v, c, i, Q, _, h => h.congr fun o => by simp [Walk.hasBranch, Walk.Recorded]
  | .op _, v, c, i, Q, _, h => h.congr fun o => by simp [Walk.hasBranch, Walk.Recorded]
  | .seq s t, v, c, i, Q, hc, h => by
      have hs := Walk.hasOpsAt_run s v hc.1 h
      have ht := Walk.hasOpsAt_run t (s.run v) hc.2 hs
      have hpos : i + v.1.length * s.code (c.sub 0) + (s.run v).1.length * t.code (c.sub 1) =
          i + v.1.length * (Walk.seq s t).code c := by
        rw [Walk.length_run, Walk.code]
        ring
      rw [hpos] at ht
      refine ht.congr fun o => ?_
      rw [Walk.mem_snd_run, Walk.Recorded, Walk.hasBranch, Bool.or_eq_true]
      cases hb : s.hasBranch with
      | true => simp; tauto
      | false => simp; tauto
  | .branch bs, v, c, i, Q, hc, h => by
      have hflush := (h.insert v.2 0 v.1.length).replicate hc.1
      rw [length_insertCurrOpsRecToVecEles] at hflush
      have hlen : (replicateHdrValidityOpsVec bs.length
          (insertCurrOpsRecToVecEles v.2 0 v.1.length v.1)).length =
          v.1.length * (bs.length * 1) := by
        simp
      have hrun := Branches.hasOpsAt_run bs (c := c.sub 0) (m := 0) (w := c []) 0 hlen
        (Nat.le_of_eq (Nat.zero_add _)) hc.2 Nat.one_pos h.lt hc.1 hflush
      rw [Nat.mul_zero, Nat.zero_add, Nat.one_mul] at hrun
      refine HasOpsAt.congr hrun fun o => ?_
      simp [Walk.hasBranch, Walk.Recorded, h.lt]
      tauto

/-- The branches from `idx` on, where the vector has `M` copies for the conditionals in the
branches in front. -/
theorem Branches.hasOpsAt_run : ∀ (bs : Branches H) {v : List (OpsRecord H)} {c : Choice}
    {n K M m w i : ℕ} {Q : HdrOp H → Prop} (idx : ℕ), v.length = n * (K * M) →
    idx + bs.length ≤ K → bs.Picks c → m < M → i < n → w < K →
    HasOpsAt v (i + n * (w + K * m)) Q →
    HasOpsAt (bs.run n (n * idx) (v, OpsRecord.empty)).1
      (i + n * (w + K * (m + M * bs.code c)))
      fun o => Q o ∨ bs.Recorded w c o idx (m = 0)
  | .nil, v, c, n, K, M, m, w, i, Q, idx, _, _, _, _, _, _, h =>
      h.congr fun o => by simp [Branches.Recorded]
  | .cons b bs, v, c, n, K, M, m, w, i, Q, idx, hv, hidx, hc, hm, hi, hw, h => by
      have hb := Walk.hasOpsAt_run b (v, OpsRecord.empty) hc.1 h
      have hpos : i + n * (w + K * m) + v.length * b.code (c.sub 0) =
          i + n * (w + K * (m + M * b.code (c.sub 0))) := by
        rw [hv]
        ring
      rw [hpos] at hb
      have hins := hb.insert (b.run (v, OpsRecord.empty)).2 (n * idx) (n * idx + n)
      have hlen : (insertCurrOpsRecToVecEles (b.run (v, OpsRecord.empty)).2 (n * idx)
          (n * idx + n) (b.run (v, OpsRecord.empty)).1).length = n * (K * (M * b.count)) := by
        rw [length_insertCurrOpsRecToVecEles, Walk.length_run, hv]
        ring
      have hK : idx < K := by
        rw [Branches.length] at hidx
        omega
      have hrun := Branches.hasOpsAt_run bs (idx + 1) hlen
        (by rw [Branches.length] at hidx; omega) hc.2 (digits_lt hm (Walk.code_lt hc.1)) hi hw
        hins
      rw [Nat.mul_succ] at hrun
      have hcode : m + M * b.code (c.sub 0) + M * b.count * bs.code (c.sub 1) =
          m + M * (Branches.cons b bs).code c := by
        rw [Branches.code]
        ring
      rw [hcode] at hrun
      refine HasOpsAt.congr hrun fun o => ?_
      have hzero : (m + M * b.code (c.sub 0) = 0) = (m = 0 ∧ b.PicksFirst (c.sub 0)) :=
        propext (by rw [digits_eq_zero hm, Walk.code_eq_zero_iff hc.1])
      rw [mem_range_iff hi hK, Walk.mem_snd_run, Branches.Recorded, hzero]
      simp
      tauto

end

end Analysis
end MicroP4
