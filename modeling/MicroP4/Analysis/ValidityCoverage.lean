import MicroP4.Analysis.HdrValidityRecords
import MicroP4.Deparser.ValidityOps

/-!
# Which paths the records cover

A path through a control body leaves behind, for each header, the flags of the last
operation on it (`HdrToStructs` turns an operation into assignments to two flags).  The
deparser needs a record with exactly these operations.  `coversPaths_iff` says for which
bodies every path has one.
-/

namespace MicroP4
namespace Analysis

open Deparser (hdrValidityOpKeyValue HdrValidityOps)

variable {H N P : Type} [DecidableEq H]

/-! ## What a path leaves behind -/

/-- The last operation on a header along a path. -/
def lastOp (h : H) : List (HdrOp H) → Option (HdrOp H)
  | [] => none
  | o :: tr => (lastOp h tr).or (if o.hdr = h then some o else none)

/-- The record has exactly the operations the path leaves behind. -/
def OpsRecord.LeftBy (r : OpsRecord H) (tr : List (HdrOp H)) : Prop :=
  ∀ h, (h ∈ r.setValid ↔ lastOp h tr = some (.setValid h)) ∧
    (h ∈ r.setInvalid ↔ lastOp h tr = some (.setInvalid h))

/-- The flags `HdrToStructs` assigns for an operation: the one of `setValid` and the one of
`setInvalid`. -/
def HdrOp.flags {H : Type} : HdrOp H → Bool × Bool
  | .setValid _ => (true, false)
  | .setInvalid _ => (false, true)

/-- The flags after a path. -/
def opFlags (tr : List (HdrOp H)) : H → Bool × Bool :=
  tr.foldl (fun flags o h => if o.hdr = h then o.flags else flags h) fun _ => (false, false)

theorem foldl_flags (h : H) (tr : List (HdrOp H)) :
    ∀ flags : H → Bool × Bool,
      tr.foldl (fun flags o h => if o.hdr = h then o.flags else flags h) flags h =
        ((lastOp h tr).map HdrOp.flags).getD (flags h) := by
  induction tr with
  | nil => exact fun _ => rfl
  | cons o tr ih =>
      intro flags
      rw [List.foldl_cons, ih, lastOp]
      cases lastOp h tr with
      | some o' => rfl
      | none => by_cases hh : o.hdr = h <;> simp [hh]

theorem lastOp_hdr {h : H} {tr : List (HdrOp H)} {o : HdrOp H} (ho : lastOp h tr = some o) :
    o.hdr = h := by
  induction tr with
  | nil => exact absurd ho (by simp [lastOp])
  | cons o' tr ih =>
      rw [lastOp, Option.or_eq_some_iff] at ho
      rcases ho with ho | ⟨-, ho⟩
      · exact ih ho
      · by_cases hh : o'.hdr = h
        · rw [if_pos hh, Option.some.injEq] at ho
          rw [← ho, hh]
        · rw [if_neg hh] at ho
          exact absurd ho (by simp)

/-- The row of a record has the flags a path leaves behind as its key values if the record
is left by the path. -/
theorem hdrValidityOpKeyValue_eq_opFlags {r : OpsRecord H} {tr : List (HdrOp H)}
    (hr : r.LeftBy tr) (ops : HdrValidityOps H) (hv : ops.setValid.toFinset = r.setValid)
    (hi : ops.setInvalid.toFinset = r.setInvalid) (names : List (H × Bool)) :
    hdrValidityOpKeyValue names ops =
      names.map fun p => if p.2 then (opFlags tr p.1).1 else (opFlags tr p.1).2 := by
  refine List.map_congr_left fun p _ => ?_
  obtain ⟨hsv, hsi⟩ := hr p.1
  rw [← hv, List.mem_toFinset] at hsv
  rw [← hi, List.mem_toFinset] at hsi
  rw [opFlags, foldl_flags]
  cases hl : lastOp p.1 tr with
  | none => simp_all
  | some o =>
      have hhdr : o.hdr = p.1 := lastOp_hdr hl
      cases o with
      | setValid h =>
          have hh : h = p.1 := hhdr
          subst hh
          simp_all [HdrOp.flags]
      | setInvalid h =>
          have hh : h = p.1 := hhdr
          subst hh
          simp_all [HdrOp.flags]

/-! ## The visitor and the tree -/

/-- The interpreter holds the vector and the pending operations `v` and has visited `vis`. -/
structure Interpreter.Tracks (st : Interpreter H N) (v : List (OpsRecord H) × OpsRecord H)
    (vis : List N) : Prop where
  vec : st.xoredHdrValidityOps = v.1
  pending : st.currOpsRec = v.2
  visited : st.visited = vis

namespace Interpreter.Tracks

variable {st : Interpreter H N} {v : List (OpsRecord H) × OpsRecord H} {vis : List N}

theorem startBranches (h : st.Tracks v vis) (n : ℕ) :
    (st.startBranches n).Tracks (replicateHdrValidityOpsVec n
      (insertCurrOpsRecToVecEles v.2 0 v.1.length v.1), OpsRecord.empty) vis := by
  refine ⟨?_, rfl, h.visited⟩
  rw [Interpreter.startBranches, h.vec, h.pending]

theorem endBranch (h : st.Tracks v vis) (start stop : ℕ) :
    (st.endBranch start stop).Tracks
      (insertCurrOpsRecToVecEles v.2 start stop v.1, OpsRecord.empty) vis := by
  refine ⟨?_, rfl, h.visited⟩
  rw [Interpreter.endBranch, h.vec, h.pending]

omit [DecidableEq H] in
theorem visiting (h : st.Tracks v vis) (n : N) : (st.visiting n).Tracks v (n :: vis) :=
  ⟨h.vec, h.pending, congrArg (List.cons n) h.visited⟩

omit [DecidableEq H] in
theorem sizes (h : st.Tracks v vis) (maxIncr maxDecr accumDecrPktLen : ℕ) :
    { st with maxIncr, maxDecr, accumDecrPktLen }.Tracks v vis :=
  ⟨h.vec, h.pending, h.visited⟩

end Interpreter.Tracks

variable [DecidableEq N]

omit [DecidableEq H] in
theorem Cases.length_walk : ∀ (cs : Cases H N P) (vis : List N),
    (cs.walk vis).1.length = cs.length
  | .nil, _ => rfl
  | .cons _ _ l, _ => congrArg Nat.succ (Cases.length_walk l _)
  | .fall _ l, _ => congrArg Nat.succ (Cases.length_walk l _)

omit [DecidableEq H] in
theorem ActionList.length_walk : ∀ (al : ActionList H N P) (vis : List N),
    (al.walk vis).1.length = al.length
  | .nil, _ => rfl
  | .cons _ _ l, _ => congrArg Nat.succ (ActionList.length_walk l _)

variable (D : Sizes H P)

mutual

/-- The visitor computes the records of the tree it walks. -/
theorem Stmt.visit_tracks : ∀ (s : Stmt H N P) {st : Interpreter H N}
    {v : List (OpsRecord H) × OpsRecord H} {vis : List N}, st.Tracks v vis →
    (s.visit D st).Tracks ((s.walk vis).1.run v) (s.walk vis).2
  | .skip, _, _, _, h => h
  | .op o, _, _, _, h => by
      cases o with
      | setValid a =>
          exact ⟨h.vec, congrArg (OpsRecord.emplace · (.setValid a)) h.pending, h.visited⟩
      | setInvalid a =>
          exact ⟨h.vec, congrArg (OpsRecord.emplace · (.setInvalid a)) h.pending, h.visited⟩
  | .seq s t, _, _, _, h => Stmt.visit_tracks t (Stmt.visit_tracks s h)
  | .ite _ t e, st, v, vis, h => by
      have ht := (Stmt.visit_tracks t (h.startBranches 2)).endBranch 0 v.1.length
      have he := (Stmt.visit_tracks e (ht.sizes st.maxIncr st.maxDecr
        st.accumDecrPktLen)).endBranch v.1.length (v.1.length + v.1.length)
      rw [Stmt.visit, h.vec, Stmt.walk, Walk.run, Branches.run, Branches.run, Branches.run,
        Nat.zero_add]
      exact ⟨he.vec, he.pending, he.visited⟩
  | .switch _ _ cs, st, v, vis, h => by
      rw [Stmt.visit, h.vec, Stmt.walk, Walk.run, Cases.length_walk]
      exact Cases.visit_tracks cs st v.1.length 0 st (h.startBranches cs.length)
  | .apply n al, st, v, vis, h => by
      rw [Stmt.walk]
      by_cases hn : n ∈ vis
      · rw [if_pos hn, Stmt.visit_apply_of_mem D (h.visited ▸ hn)]
        exact h
      · rw [Stmt.visit, h.visited, if_neg hn, if_neg hn, h.vec, Walk.run,
          ActionList.length_walk]
        exact ActionList.visit_tracks al st v.1.length 0 st
          ((h.visiting n).startBranches al.length)
  | .call n b, st, v, vis, h => by
      rw [Stmt.walk]
      by_cases hn : n ∈ vis
      · rw [if_pos hn, Stmt.visit_call_of_mem D (h.visited ▸ hn)]
        exact h
      · rw [Stmt.visit, h.visited, if_neg hn, if_neg hn]
        exact Stmt.visit_tracks b (h.visiting n)
  | .pkg n p, st, v, vis, h => by
      rw [Stmt.walk]
      by_cases hn : n ∈ vis
      · rw [if_pos hn, Stmt.visit_pkg_of_mem D (h.visited ▸ hn)]
        exact h
      · rw [Stmt.visit, h.visited, if_neg hn, if_neg hn]
        exact ⟨h.vec, h.pending, congrArg (List.cons n) h.visited⟩

theorem ActionList.visit_tracks : ∀ (al : ActionList H N P) (curr : Interpreter H N)
    (currSize index : ℕ) {st : Interpreter H N} (loc : Interpreter H N)
    {v : List (OpsRecord H) × OpsRecord H} {vis : List N}, st.Tracks v vis →
    (al.visit D curr currSize index st loc).Tracks ((al.walk vis).1.run currSize index v)
      (al.walk vis).2
  | .nil, _, _, _, _, _, _, _, h => ⟨h.vec, h.pending, h.visited⟩
  | .cons n b l, curr, currSize, index, st, loc, v, vis, h => by
      rw [ActionList.visit, ActionList.walk, h.visited]
      by_cases hn : n ∈ vis
      · rw [if_pos hn, if_pos hn]
        have hb := h.endBranch index (index + currSize)
        exact ActionList.visit_tracks l curr currSize (index + currSize) _
          ⟨hb.vec, hb.pending, hb.visited⟩
      · rw [if_neg hn, if_neg hn]
        have hb := (Stmt.visit_tracks b (h.visiting n)).endBranch index (index + currSize)
        exact ActionList.visit_tracks l curr currSize (index + currSize) _
          ⟨hb.vec, hb.pending, hb.visited⟩

theorem Cases.visit_tracks : ∀ (cs : Cases H N P) (curr : Interpreter H N)
    (currSize index : ℕ) {st : Interpreter H N} (loc : Interpreter H N)
    {v : List (OpsRecord H) × OpsRecord H} {vis : List N}, st.Tracks v vis →
    (cs.visit D curr currSize index st loc).Tracks ((cs.walk vis).1.run currSize index v)
      (cs.walk vis).2
  | .nil, _, _, _, _, _, _, _, h => ⟨h.vec, h.pending, h.visited⟩
  | .cons _ b l, curr, currSize, index, st, loc, v, vis, h => by
      have hb := (Stmt.visit_tracks b h).endBranch index (index + currSize)
      exact Cases.visit_tracks l curr currSize (index + currSize) _
        ⟨hb.vec, hb.pending, hb.visited⟩
  | .fall _ l, curr, currSize, index, st, loc, v, vis, h => by
      have hb := h.endBranch index (index + currSize)
      exact Cases.visit_tracks l curr currSize (index + currSize) _
        ⟨hb.vec, hb.pending, hb.visited⟩

end

/-! ## The records and the paths -/

omit [DecidableEq H] [DecidableEq N] in
theorem OpsRecord.ext_mem {r s : OpsRecord H} (h : ∀ o, o ∈ r ↔ o ∈ s) : r = s :=
  OpsRecord.ext (Finset.ext fun a => h (.setValid a)) (Finset.ext fun a => h (.setInvalid a))

/-- The element of the vector after the body at the position of a choice. -/
theorem getElem?_visit_init (body : Stmt H N P) {c : Choice} (hc : body.tree.Picks c) :
    ∃ r, (body.visit D Interpreter.init).xoredHdrValidityOps[body.tree.code c]? = some r ∧
      ∀ o, o ∈ r ↔ body.tree.Recorded c o := by
  have hinit : (Interpreter.init : Interpreter H N).Tracks ([OpsRecord.empty], OpsRecord.empty)
      [] := ⟨rfl, rfl, rfl⟩
  have hstart : HasOpsAt [(OpsRecord.empty : OpsRecord H)] 0 fun _ => False :=
    ⟨OpsRecord.empty, rfl, fun o => iff_of_false (OpsRecord.not_mem_empty o) id⟩
  obtain ⟨r, hr, hmem⟩ := Walk.hasOpsAt_run body.tree (_, OpsRecord.empty) hc hstart
  rw [List.length_singleton, Nat.one_mul, Nat.zero_add] at hr
  refine ⟨r, ?_, fun o => (hmem o).trans ?_⟩
  · rw [(Stmt.visit_tracks D body hinit).vec]
    exact hr
  · simp

/-- The vector after the body has one element for each choice. -/
theorem length_visit_init (body : Stmt H N P) :
    (body.visit D Interpreter.init).xoredHdrValidityOps.length = body.tree.count := by
  have hinit : (Interpreter.init : Interpreter H N).Tracks ([OpsRecord.empty], OpsRecord.empty)
      [] := ⟨rfl, rfl, rfl⟩
  rw [(Stmt.visit_tracks D body hinit).vec, Walk.length_run, List.length_singleton,
    Nat.one_mul, Stmt.tree]

theorem mem_visit_init (body : Stmt H N P) (r : OpsRecord H) :
    r ∈ (body.visit D Interpreter.init).xoredHdrValidityOps ↔
      ∃ c, body.tree.Picks c ∧ ∀ o, o ∈ r ↔ body.tree.Recorded c o := by
  constructor
  · intro hr
    obtain ⟨k, hk⟩ := List.mem_iff_getElem?.mp hr
    have hlt := (List.getElem?_eq_some_iff.mp hk).1
    rw [length_visit_init] at hlt
    obtain ⟨c, hc, rfl⟩ := Walk.exists_code_eq hlt
    obtain ⟨s, hs, hmem⟩ := getElem?_visit_init D body hc
    have hrs : r = s := Option.some.inj (hk.symm.trans hs)
    exact ⟨c, hc, hrs ▸ hmem⟩
  · rintro ⟨c, hc, hmem⟩
    obtain ⟨s, hs, hmem'⟩ := getElem?_visit_init D body hc
    have hrs : r = s := OpsRecord.ext_mem fun o => (hmem o).trans (hmem' o).symm
    rw [hrs]
    exact List.mem_of_getElem? hs

/-- The records of a control: what is recorded under a choice, unless it is nothing. -/
theorem mem_controlRecords (body : Stmt H N P) (r : OpsRecord H) :
    r ∈ controlRecords D body ↔ (∃ c, body.tree.Picks c ∧
      ∀ o, o ∈ r ↔ body.tree.Recorded c o) ∧ ∃ o, o ∈ r := by
  rw [controlRecords, eraseEmptyElements_eq_filter, List.mem_filter, mem_visit_init]
  refine and_congr_right fun _ => ?_
  rw [Bool.not_eq_true', ← Bool.not_eq_true, OpsRecord.isEmpty_iff, not_forall]
  exact exists_congr fun o => not_not

end Analysis
end MicroP4
