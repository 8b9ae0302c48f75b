import MicroP4.Deparser.ValidityOps

/-!
# What the action of a row and a record does

An action built by `extendEntry` works from the initial offset it was built with.  With
that offset fixed it does the right thing (`shifts_exec_actionCallOrder`): the headers
that are valid after the operations stand back to back from that offset on, and what
followed the parsed headers follows them, as far as the byte stack reaches.

The moves of single headers play no part in this, since every header is emitted again at
its new place; the order of the calls matters only for the rest of the stack, which moves
before the headers are written when the packet grows, and after that when it shrinks.
-/

namespace MicroP4
namespace Deparser

open BitString

variable {H F : Type} [DecidableEq H]

/-! ## Headers valid afterwards -/

/-- The operation on a header of a record: only those that change something count. -/
def HdrValidityOps.op (ops : HdrValidityOps H) (h : H) (value : Bool) : Option Bool :=
  if value then if h ∈ ops.setInvalid then some false else none
  else if h ∈ ops.setValid then some true else none

/-- The columns of a row after the operations of a record, as the deparser reads it: a header
that was parsed is gone if the record sets it invalid, and one that was not is there if the record
sets it valid. -/
def HdrValidityOps.apply (ops : HdrValidityOps H) (keys : List (H × Bool)) : List (H × Bool) :=
  keys.map fun p => (p.1, (ops.op p.1 p.2).getD p.2)

@[simp] theorem HdrValidityOps.op_getD_false (ops : HdrValidityOps H) (h : H) :
    (ops.op h false).getD false = decide (h ∈ ops.setValid) := by
  by_cases hv : h ∈ ops.setValid <;> simp [HdrValidityOps.op, hv]

@[simp] theorem HdrValidityOps.op_getD_true (ops : HdrValidityOps H) (h : H) :
    (ops.op h true).getD true = decide (h ∉ ops.setInvalid) := by
  by_cases hv : h ∈ ops.setInvalid <;> simp [HdrValidityOps.op, hv]

theorem HdrValidityOps.apply_cons (ops : HdrValidityOps H) (h : H) (value : Bool)
    (keys : List (H × Bool)) : ops.apply ((h, value) :: keys) =
      (h, (ops.op h value).getD value) :: ops.apply keys := rfl

/-- The columns after operations that `ops` is the record of.  Of a header in both lists the
record does not say whether it was set valid or invalid last; `last` does. -/
def HdrValidityOps.outcome (ops : HdrValidityOps H) (last : H → Bool) (keys : List (H × Bool)) :
    List (H × Bool) :=
  keys.map fun p => (p.1, if p.1 ∈ ops.setValid then p.1 ∉ ops.setInvalid || last p.1
    else p.1 ∉ ops.setInvalid && p.2)

theorem findOp_map (ops : HdrValidityOps H) (h : H) (value : Bool) : ∀ names : List (H × Bool),
    findOp h value names (hdrValidityOpKeyValue names ops) =
      if (h, !value) ∈ names then ops.op h value else none
  | [] => rfl
  | (hn, op) :: names => by
      rw [hdrValidityOpKeyValue, List.map_cons, findOp]
      have ih := findOp_map ops h value names
      rw [hdrValidityOpKeyValue] at ih
      rw [ih]
      by_cases hh : hn = h
      · subst hh
        cases value with
        | false =>
          cases op with
          | false => simp
          | true =>
            by_cases hv : hn ∈ ops.setValid
            · simp [hv, HdrValidityOps.op]
            · simp [hv, HdrValidityOps.op]
        | true =>
          cases op with
          | false =>
            by_cases hv : hn ∈ ops.setInvalid
            · simp [hv, HdrValidityOps.op]
            · simp [hv, HdrValidityOps.op]
          | true => simp
      · have hne : (h, !value) ≠ (hn, op) := by
          intro heq
          exact hh (congrArg Prod.fst heq).symm
        rw [if_pos hh]
        simp only [List.mem_cons, hne, false_or]

/-- The search finds exactly the operation of the record, since its headers are columns. -/
theorem findOp_eq {xored : List (HdrValidityOps H)} {ops : HdrValidityOps H} (hops : ops ∈ xored)
    (h : H) (value : Bool) :
    findOp h value (hdrOpKeyNames xored) (hdrValidityOpKeyValue (hdrOpKeyNames xored) ops) =
      ops.op h value := by
  rw [findOp_map]
  split
  · rfl
  · rename_i hmem
    cases value with
    | false =>
      have hv : h ∉ ops.setValid := by
        intro hv
        refine hmem ?_
        simp only [hdrOpKeyNames, List.mem_append, List.mem_map, List.mem_dedup, List.mem_flatMap]
        exact Or.inl ⟨h, ⟨ops, hops, hv⟩, rfl⟩
      simp [HdrValidityOps.op, hv]
    | true =>
      have hv : h ∉ ops.setInvalid := by
        intro hv
        refine hmem ?_
        simp only [hdrOpKeyNames, List.mem_append, List.mem_map, List.mem_dedup, List.mem_flatMap]
        exact Or.inr ⟨h, ⟨ops, hops, hv⟩, rfl⟩
      simp [HdrValidityOps.op, hv]

/-! ## The data of a row -/

/-- The data of a row and a record, from initial offset `init` on. -/
structure IsLaidOut (D : HeaderDecls H F) (init : ℕ) (data : List (EmitDatum H)) : Prop where
  target : ∀ l d l', data = l ++ d :: l' →
    d.target = init + D.totalWidth (l.map EmitDatum.hdr)
  currOS : ∀ d ∈ data, 8 ∣ d.currOS
  nonneg : ∀ d ∈ data, 0 ≤ (d.currOS : ℤ) + d.moveOS

omit [DecidableEq H] in
theorem isLaidOut_nil (D : HeaderDecls H F) (init : ℕ) : IsLaidOut D init [] where
  target l d l' h := by simp at h
  currOS d h := by simp at h
  nonneg d h := by simp at h

omit [DecidableEq H] in
theorem isLaidOut_cons {D : HeaderDecls H F} {init : ℕ} {d : EmitDatum H}
    {data : List (EmitDatum H)} (hd : (d.currOS : ℤ) + d.moveOS = init) (h8 : 8 ∣ d.currOS)
    (h : IsLaidOut D (init + D.width d.hdr) data) : IsLaidOut D init (d :: data) where
  target l e l' hl := by
    rcases l with _ | ⟨b, l⟩
    · rw [List.nil_append, List.cons.injEq] at hl
      rw [← hl.1, EmitDatum.target, hd]
      simp
    · rw [List.cons_append, List.cons.injEq] at hl
      have hw : D.totalWidth ((b :: l).map EmitDatum.hdr) =
          D.width b.hdr + D.totalWidth (l.map EmitDatum.hdr) := by
        simp [HeaderDecls.totalWidth]
      rw [h.target l e l' hl.2, hw, ← hl.1, Nat.add_assoc]
  currOS e he := by
    rcases List.mem_cons.1 he with rfl | he
    · exact h8
    · exact h.currOS e he
  nonneg e he := by
    rcases List.mem_cons.1 he with rfl | he
    · rw [hd]
      exact Int.natCast_nonneg init
    · exact h.nonneg e he

omit [DecidableEq H] in
theorem totalWidth_cons (D : HeaderDecls H F) (h : H) (l : List H) :
    D.totalWidth (h :: l) = D.width h + D.totalWidth l := by
  simp [HeaderDecls.totalWidth]

omit [DecidableEq H] in
theorem validHdrs_cons_true (h : H) (keys : List (H × Bool)) :
    validHdrs ((h, true) :: keys) = h :: validHdrs keys := by
  simp [validHdrs]

omit [DecidableEq H] in
theorem validHdrs_cons_false (h : H) (keys : List (H × Bool)) :
    validHdrs ((h, false) :: keys) = validHdrs keys := by
  simp [validHdrs]

/-- **The loop over the columns.**  It collects the headers valid afterwards, each with a
move that takes it to its place behind those before it, and ends behind the parsed
headers, having added up the change. -/
theorem emitData_spec {D : HeaderDecls H F} (hD : D.WholeBytes) {xored : List (HdrValidityOps H)}
    {ops : HdrValidityOps H} (hops : ops ∈ xored) :
    ∀ (keys : List (H × Bool)) (move : ℤ) (curr init : ℕ), (curr : ℤ) + move = init → 8 ∣ curr →
      8 ∣ init → ∃ data, emitData D (hdrOpKeyNames xored)
          (hdrValidityOpKeyValue (hdrOpKeyNames xored) ops) keys move curr =
        (data, move + D.totalWidth (validHdrs (ops.apply keys)) - D.totalWidth (validHdrs keys),
          curr + D.totalWidth (validHdrs keys)) ∧
        data.map EmitDatum.hdr = validHdrs (ops.apply keys) ∧ IsLaidOut D init data
  | [], move, curr, init, _, _, _ => by
      refine ⟨[], ?_, rfl, isLaidOut_nil D init⟩
      simp [emitData, HdrValidityOps.apply, validHdrs]
  | (h, value) :: keys, move, curr, init, hinit, hcurr, h8 => by
      have hw : 8 ∣ D.width h := hD h
      rw [emitData, findOp_eq hops, ops.apply_cons]
      cases value with
      | false =>
        rw [validHdrs_cons_false]
        by_cases hv : h ∈ ops.setValid
        · -- the header is inserted
          obtain ⟨data, heq, hmap, hlaid⟩ := emitData_spec hD hops keys
            (move + D.width h) curr (init + D.width h) (by push_cast; omega) hcurr
            (Nat.dvd_add h8 hw)
          have hstart : (curr + move).toNat = init := by rw [hinit]; rfl
          have hop : ops.op h false = some true := by simp [HdrValidityOps.op, hv]
          refine ⟨⟨init, 0, h⟩ :: data, ?_, ?_, ?_⟩
          · simp only [hop, heq, hstart, Option.getD_some]
            rw [validHdrs_cons_true, totalWidth_cons]
            push_cast
            congr 2
            omega
          · rw [List.map_cons, hmap, hop, Option.getD_some, validHdrs_cons_true]
          · exact isLaidOut_cons (by simp) h8 hlaid
        · obtain ⟨data, heq, hmap, hlaid⟩ := emitData_spec hD hops keys move curr init hinit
            hcurr h8
          have hop : ops.op h false = none := by simp [HdrValidityOps.op, hv]
          rw [hop, Option.getD_none, validHdrs_cons_false]
          refine ⟨data, ?_, hmap, hlaid⟩
          simp only [Bool.false_eq_true, if_false, heq]
      | true =>
        rw [validHdrs_cons_true, totalWidth_cons]
        by_cases hv : h ∈ ops.setInvalid
        · -- the header is removed
          obtain ⟨data, heq, hmap, hlaid⟩ := emitData_spec hD hops keys
            (move - D.width h) (curr + D.width h) init (by push_cast; omega)
            (Nat.dvd_add hcurr hw) h8
          have hop : ops.op h true = some false := by simp [HdrValidityOps.op, hv]
          rw [hop, Option.getD_some, validHdrs_cons_false]
          refine ⟨data, ?_, hmap, hlaid⟩
          simp only [heq]
          push_cast
          refine Prod.ext rfl (Prod.ext ?_ ?_)
          · dsimp only
            omega
          · dsimp only
            omega
        · obtain ⟨data, heq, hmap, hlaid⟩ := emitData_spec hD hops keys move
            (curr + D.width h) (init + D.width h) (by push_cast; omega)
            (Nat.dvd_add hcurr hw) (Nat.dvd_add h8 hw)
          have hop : ops.op h true = none := by simp [HdrValidityOps.op, hv]
          rw [hop, Option.getD_none, validHdrs_cons_true, totalWidth_cons]
          refine ⟨⟨curr, move, h⟩ :: data, ?_, ?_, ?_⟩
          · simp only [if_true, heq]
            push_cast
            refine Prod.ext rfl (Prod.ext ?_ ?_)
            · dsimp only
              omega
            · dsimp only
              omega
          · rw [List.map_cons, hmap]
          · exact isLaidOut_cons hinit hcurr hlaid

/-! ## Moving bytes -/

/-- Copying forward, towards smaller indices. -/
theorem copyBytes_asc {lhs rhs : ℕ} (h : lhs ≤ rhs) (st : ℕ → Word) : ∀ k : ℕ,
    copyBytes ((List.range k).map fun i => (lhs + i, rhs + i)) st = fun i =>
      if lhs ≤ i ∧ i < lhs + k then st (rhs + (i - lhs)) else st i
  | 0 => by
      funext i
      have hn : ¬ (lhs ≤ i ∧ i < lhs + 0) := by omega
      rw [if_neg hn]
      rfl
  | k + 1 => by
      have ih := copyBytes_asc h st k
      rw [copyBytes] at ih ⊢
      rw [List.range_succ, List.map_append, List.foldl_append, ih, List.map_singleton,
        List.foldl_cons, List.foldl_nil]
      funext i
      by_cases hi : i = lhs + k
      · have hr : ¬ (lhs ≤ rhs + k ∧ rhs + k < lhs + k) := by omega
        rw [hi, Function.update_self]
        dsimp only
        rw [if_neg hr, if_pos (by omega), Nat.add_sub_cancel_left]
      · have hc : (lhs ≤ i ∧ i < lhs + k) ↔ (lhs ≤ i ∧ i < lhs + (k + 1)) := by omega
        rw [Function.update_of_ne hi]
        simp only [hc]

/-- Copying backward, towards larger indices. -/
theorem copyBytes_desc {lhs rhs : ℕ} (h : rhs ≤ lhs) : ∀ (k : ℕ) (st : ℕ → Word),
    copyBytes ((List.range k).map fun i => (lhs + i, rhs + i)).reverse st = fun i =>
      if lhs ≤ i ∧ i < lhs + k then st (rhs + (i - lhs)) else st i
  | 0, st => by
      funext i
      have hn : ¬ (lhs ≤ i ∧ i < lhs + 0) := by omega
      rw [if_neg hn]
      rfl
  | k + 1, st => by
      rw [List.range_succ, List.map_append, List.reverse_append, List.map_singleton,
        List.reverse_singleton, List.singleton_append]
      have ih := copyBytes_desc h k (Function.update st (lhs + k) (st (rhs + k)))
      rw [copyBytes] at ih ⊢
      rw [List.foldl_cons, ih]
      funext i
      by_cases hi : lhs ≤ i ∧ i < lhs + k
      · have hne : rhs + (i - lhs) ≠ lhs + k := by omega
        rw [if_pos hi, if_pos (by omega), Function.update_of_ne hne]
      · rw [if_neg hi]
        by_cases hk : i = lhs + k
        · rw [hk, Function.update_self, if_pos (by omega), Nat.add_sub_cancel_left]
        · rw [if_neg (by omega), Function.update_of_ne hk]

/-- The assignments of a move copy the block as it was. -/
theorem copyBytes_byteMoves {co size t : ℕ} {mo : ℤ} (ht : (co : ℤ) + mo = t) (st : ℕ → Word) :
    copyBytes (byteMoves co mo size) st = fun i =>
      if t / 8 ≤ i ∧ i < t / 8 + size / 8 then st (co / 8 + (i - t / 8)) else st i := by
  have hstart : (co + mo).toNat = t := by rw [ht]; rfl
  simp only [byteMoves, hstart]
  by_cases hmo : mo > 0
  · rw [if_pos hmo]
    exact copyBytes_desc (by omega) _ st
  · rw [if_neg hmo]
    exact copyBytes_asc (by omega) st _

/-- **A move is a simultaneous copy.**  The bytes at the destination are those that the source
had before, also if source and destination overlap, and no other byte changes. -/
theorem byteMoves_simultaneous (moveInitIdx moveBlockSize : ℕ) (moveOffset : ℤ)
    (hdest : 0 ≤ moveInitIdx + moveOffset) (st : ℕ → Word) :
    (∀ i < moveBlockSize / 8, copyBytes (byteMoves moveInitIdx moveOffset moveBlockSize) st
      ((moveInitIdx + moveOffset).toNat / 8 + i) = st (moveInitIdx / 8 + i)) ∧
    ∀ j, j < (moveInitIdx + moveOffset).toNat / 8 ∨
        (moveInitIdx + moveOffset).toNat / 8 + moveBlockSize / 8 ≤ j →
      copyBytes (byteMoves moveInitIdx moveOffset moveBlockSize) st j = st j := by
  have ht : (moveInitIdx : ℤ) + moveOffset = (moveInitIdx + moveOffset).toNat :=
    (Int.toNat_of_nonneg hdest).symm
  rw [copyBytes_byteMoves ht]
  refine ⟨fun i hi => ?_, fun j hj => ?_⟩
  · dsimp only
    rw [if_pos (by omega), Nat.add_sub_cancel_left]
  · dsimp only
    rw [if_neg (by omega)]

/-- Three bytes move by one byte towards the end. -/
theorem byteMoves_simultaneous_three :
    copyBytes (byteMoves 8 8 24) (fun i => fun _ => decide (i = 2)) 3 = fun _ => true := by
  have h := (byteMoves_simultaneous 8 24 8 (by decide) (fun i => fun _ => decide (i = 2))).1 1
    (by decide)
  exact h

omit [DecidableEq H] in
/-- **A move copies a stretch of the bit string**, whether or not source and destination
overlap. -/
theorem bitAt_move (D : HeaderDecls H F) (vals : FieldValues H F) {co size t : ℕ} {mo : ℤ}
    (ht : (co : ℤ) + mo = t) (hco : 8 ∣ co) (h8 : 8 ∣ t) (hsize : 8 ∣ size) (st : ℕ → Word) :
    bitAt ((OpsCall.move co mo size).exec D vals st) = fun p =>
      if t ≤ p ∧ p < t + size then bitAt st (p - t + co) else bitAt st p := by
  rw [OpsCall.exec, copyBytes_byteMoves ht]
  funext p
  rw [bitAt]
  by_cases hp : t ≤ p ∧ p < t + size
  · have hdiv : (p - t + co) / 8 = co / 8 + (p / 8 - t / 8) := by omega
    have hmod : (p - t + co) % 8 = p % 8 := by omega
    rw [if_pos (by omega), if_pos hp, bitAt, hdiv, hmod]
  · rw [if_neg (by omega), if_neg hp, bitAt]

/-! ## Emitting the headers -/

omit [DecidableEq H] in
theorem execCalls_append (D : HeaderDecls H F) (vals : FieldValues H F) (l l' : List (OpsCall H))
    (st : ℕ → Word) :
    execCalls D vals (l ++ l') st = execCalls D vals l' (execCalls D vals l st) :=
  List.foldl_append

omit [DecidableEq H] in
/-- **The calls for one header write the header.**  Whatever its move copied is
overwritten. -/
theorem bitAt_emitCalls {D : HeaderDecls H F} (hD : D.WholeBytes) (vals : FieldValues H F)
    {bss : ℕ} (hb : 8 ∣ bss) {d : EmitDatum H} (hco : 8 ∣ d.currOS) (h8 : 8 ∣ d.target)
    (hnonneg : 0 ≤ (d.currOS : ℤ) + d.moveOS) (st : ℕ → Word) :
    bitAt (execCalls D vals (emitCalls D bss d) st) =
      writeBits d.target (D.hdrBits vals d.hdr) (bitAt st) := by
  have hw : 8 ∣ D.width d.hdr := hD d.hdr
  have hemit : ∀ st' : ℕ → Word, bitAt (execCalls D vals [.emit d.hdr d.target] st') =
      writeBits d.target (D.hdrBits vals d.hdr) (bitAt st') :=
    fun st' => bitAt_emitHeader D d.hdr d.target st'
  obtain ⟨size, hsize, hle, h8size⟩ : ∃ size, (if d.target ≤ bss ∧
      d.target + D.width d.hdr > bss then bss - d.target else D.width d.hdr) = size ∧
      size ≤ D.width d.hdr ∧ 8 ∣ size := by
    refine ⟨_, rfl, ?_, ?_⟩
    · split <;> omega
    · split <;> omega
  simp only [emitCalls, hsize]
  rw [execCalls_append, hemit]
  by_cases hmoves : d.moveOS ≠ 0 ∧ size ≠ 0
  · have ht : (d.currOS : ℤ) + d.moveOS = d.target := by
      rw [EmitDatum.target]
      exact (Int.toNat_of_nonneg hnonneg).symm
    have hsingle : execCalls D vals [OpsCall.move d.currOS d.moveOS size] st =
        (OpsCall.move d.currOS d.moveOS size).exec D vals st := rfl
    rw [if_pos hmoves, hsingle, bitAt_move D vals ht hco h8 h8size]
    funext q
    by_cases hq : d.target ≤ q ∧ q < d.target + (D.hdrBits vals d.hdr).length
    · rw [writeBits_of_mem hq.1 hq.2, writeBits_of_mem hq.1 hq.2]
    · rw [writeBits, if_neg hq, writeBits, if_neg hq, if_neg]
      rw [D.length_hdrBits] at hq
      omega
  · rw [if_neg hmoves]
    rfl

omit [DecidableEq H] in
/-- The emit order is an order of all headers. -/
theorem emitOrder_perm : ∀ (run l : List (EmitDatum H)), (emitOrder run l).Perm (run ++ l)
  | [], [] => List.Perm.refl _
  | r :: run, [] => by
      rw [emitOrder, List.append_nil]
  | [], d :: l => by
      rw [emitOrder]
      split
      · exact emitOrder_perm [d] l
      · exact (emitOrder_perm [] l).cons d
  | r :: run, d :: l => by
      have hswap : (d :: r :: run ++ l).Perm (r :: run ++ d :: l) :=
        List.perm_middle.symm
      rw [emitOrder]
      split
      · exact (emitOrder_perm (d :: r :: run) l).trans hswap
      · exact ((emitOrder_perm [] l).append_left _).trans hswap

/-- The headers of some data, each to be written at its target. -/
def writes (D : HeaderDecls H F) (vals : FieldValues H F) (data : List (EmitDatum H)) :
    List (ℕ × List Bool) :=
  data.map fun d => (d.target, D.hdrBits vals d.hdr)

omit [DecidableEq H] in
theorem bitAt_execCalls_flatMap {D : HeaderDecls H F} (hD : D.WholeBytes)
    (vals : FieldValues H F) {bss : ℕ} (hb : 8 ∣ bss) : ∀ (l : List (EmitDatum H)) (st : ℕ → Word),
    (∀ d ∈ l, 8 ∣ d.currOS ∧ 8 ∣ d.target ∧ 0 ≤ (d.currOS : ℤ) + d.moveOS) →
    bitAt (execCalls D vals (l.flatMap (emitCalls D bss)) st) =
      writeAll (writes D vals l) (bitAt st)
  | [], st, _ => rfl
  | d :: l, st, h => by
      obtain ⟨hco, h8, hn⟩ := h d List.mem_cons_self
      rw [List.flatMap_cons, execCalls_append,
        bitAt_execCalls_flatMap hD vals hb l _ fun e he => h e (List.mem_cons_of_mem _ he),
        bitAt_emitCalls hD vals hb hco h8 hn]
      rfl

omit [DecidableEq H] in
theorem IsLaidOut.tail {D : HeaderDecls H F} {init : ℕ} {d : EmitDatum H}
    {data : List (EmitDatum H)} (h : IsLaidOut D init (d :: data)) :
    d.target = init ∧ IsLaidOut D (init + D.width d.hdr) data where
  left := h.target [] d data rfl
  right :=
    { target := fun l e l' hl => by
        rw [h.target (d :: l) e l' (by rw [hl]; rfl), List.map_cons, totalWidth_cons,
          Nat.add_assoc]
      currOS := fun e he => h.currOS e (List.mem_cons_of_mem _ he)
      nonneg := fun e he => h.nonneg e (List.mem_cons_of_mem _ he) }

omit [DecidableEq H] in
/-- Headers laid out back to back do not meet. -/
theorem pairwise_writes {D : HeaderDecls H F} (vals : FieldValues H F) :
    ∀ {data : List (EmitDatum H)} {init : ℕ}, IsLaidOut D init data →
      (∀ w ∈ writes D vals data, init ≤ w.1) ∧
      (writes D vals data).Pairwise fun w w' => w.1 + w.2.length ≤ w'.1
  | [], _, _ => ⟨by simp [writes], List.Pairwise.nil⟩
  | d :: data, init, h => by
      obtain ⟨htarget, htail⟩ := h.tail
      obtain ⟨hge, hpair⟩ := pairwise_writes vals htail
      have hcons : writes D vals (d :: data) =
          (d.target, D.hdrBits vals d.hdr) :: writes D vals data := rfl
      rw [hcons]
      refine ⟨?_, List.pairwise_cons.2 ⟨?_, hpair⟩⟩
      · intro w hw
        rcases List.mem_cons.1 hw with rfl | hw
        · exact Nat.le_of_eq htarget.symm
        · have := hge w hw
          omega
      · intro w hw
        have := hge w hw
        dsimp only
        rw [D.length_hdrBits, htarget]
        exact this

omit [DecidableEq H] in
/-- Written in their own order they make one string. -/
theorem writeAll_writes {D : HeaderDecls H F} (vals : FieldValues H F) :
    ∀ {data : List (EmitDatum H)} {init : ℕ}, IsLaidOut D init data → ∀ s : Bits,
      writeAll (writes D vals data) s =
        writeBits init ((data.map EmitDatum.hdr).flatMap (D.hdrBits vals)) s
  | [], _, _, s => by simp [writes, writeAll]
  | d :: data, init, h, s => by
      obtain ⟨htarget, htail⟩ := h.tail
      have hcons : writeAll (writes D vals (d :: data)) s =
          writeAll (writes D vals data) (writeBits d.target (D.hdrBits vals d.hdr) s) := rfl
      rw [hcons, writeAll_writes vals htail, List.map_cons, List.flatMap_cons, writeBits_append,
        D.length_hdrBits, htarget]

omit [DecidableEq H] in
/-- **All headers, in the emit order, make one string.** -/
theorem bitAt_execCalls_emitOrder {D : HeaderDecls H F} (hD : D.WholeBytes)
    (vals : FieldValues H F) {bss init : ℕ} (hb : 8 ∣ bss) (hinit : 8 ∣ init)
    {data : List (EmitDatum H)} (h : IsLaidOut D init data) (st : ℕ → Word) :
    bitAt (execCalls D vals ((emitOrder [] data.reverse).flatMap (emitCalls D bss)) st) =
      writeBits init ((data.map EmitDatum.hdr).flatMap (D.hdrBits vals)) (bitAt st) := by
  have hperm : (emitOrder [] data.reverse).Perm data :=
    (emitOrder_perm [] _).trans (List.reverse_perm data)
  rw [bitAt_execCalls_flatMap hD vals hb]
  · rw [← writeAll_writes vals h]
    exact (writeAll_perm (hperm.symm.map _) (pairwise_writes vals h).2 _).symm
  · intro d hd
    have hd := hperm.subset hd
    obtain ⟨l, l', hl⟩ := List.append_of_mem hd
    refine ⟨h.currOS d hd, ?_, h.nonneg d hd⟩
    rw [h.target l d l' hl]
    exact Nat.dvd_add hinit (hD.totalWidth_dvd _)

/-! ## The whole action -/

/-- What the action of a row is for, on a byte stack of `bss` bits.  The bits before `init` stay;
from `init` on stand the `hdrs`, and behind them what stood behind the parsed headers, which end
at `parsedEnd`, as far as the byte stack reaches. -/
def Shifts (bss init parsedEnd : ℕ) (hdrs : List Bool) (s s' : Bits) : Prop :=
  ∀ p < bss, (p < init → s' p = s p) ∧
    (init ≤ p → p < init + hdrs.length → s' p = hdrs.getD (p - init) false) ∧
    (init + hdrs.length ≤ p → p - (init + hdrs.length) + parsedEnd < bss →
      s' p = s (p - (init + hdrs.length) + parsedEnd))

/-- The rest of the byte stack is moved as far as it reaches. -/
theorem resiBlockSize_spec {bss curr target : ℕ} {total : ℤ} (hbss : bss < 2 ^ 32)
    (hb : 8 ∣ bss) (hcurr : 8 ∣ curr) (h8 : 8 ∣ target) (htarget : (curr : ℤ) + total = target) :
    8 ∣ resiBlockSize bss curr total ∧ ∀ p, target ≤ p → p < bss → p - target + curr < bss →
      p < target + resiBlockSize bss curr total := by
  have hmin : (curr + total).toNat = target := by rw [htarget]; rfl
  simp only [resiBlockSize, hmin]
  split
  · refine ⟨Nat.dvd_zero 8, fun p h₁ h₂ _ => ?_⟩
    omega
  · split
    · refine ⟨by omega, fun p h₁ h₂ _ => ?_⟩
      omega
    · refine ⟨by omega, fun p h₁ h₂ h₃ => ?_⟩
      omega

omit [DecidableEq H] in
/-- **The action does what it is for**, from the offset its data start at. -/
theorem shifts_exec_actionCallOrder {D : HeaderDecls H F} (hD : D.WholeBytes)
    (vals : FieldValues H F) {bss init curr : ℕ} {total : ℤ} {data : List (EmitDatum H)}
    (hbss : bss < 2 ^ 32) (hb : 8 ∣ bss) (hinit : 8 ∣ init) (hcurr : 8 ∣ curr)
    (h : IsLaidOut D init data)
    (htotal : (curr : ℤ) + total = init + D.totalWidth (data.map EmitDatum.hdr))
    (st : ℕ → Word) :
    Shifts bss init curr ((data.map EmitDatum.hdr).flatMap (D.hdrBits vals)) (bitAt st)
      (bitAt (execCalls D vals (actionCallOrder D bss data total curr) st)) := by
  have hlen := D.length_flatMap_hdrBits vals (data.map EmitDatum.hdr)
  have hw := hD.totalWidth_dvd (data.map EmitDatum.hdr)
  obtain ⟨target, ht⟩ : ∃ t : ℕ, t = init + D.totalWidth (data.map EmitDatum.hdr) := ⟨_, rfl⟩
  have htarget : (curr : ℤ) + total = target := by rw [htotal, ht]; push_cast; rfl
  have h8 : 8 ∣ target := by omega
  obtain ⟨hresi, hreach⟩ := resiBlockSize_spec hbss hb hcurr h8 htarget
  have hwrite := bitAt_execCalls_emitOrder hD vals hb hinit h
  have hmove := bitAt_move D vals htarget hcurr h8 hresi
  have hres : ∀ st' : ℕ → Word, bitAt (execCalls D vals
      (if total ≠ 0 ∧ resiBlockSize bss curr total ≠ 0 then
        [OpsCall.move curr total (resiBlockSize bss curr total)] else []) st') = fun p =>
      if target ≤ p ∧ p < target + resiBlockSize bss curr total then
        bitAt st' (p - target + curr) else bitAt st' p := by
    intro st'
    split
    · exact hmove st'
    · funext p
      split
      · have hsame : p - target + curr = p := by omega
        rw [hsame]
        rfl
      · rfl
  have hend : init + ((data.map EmitDatum.hdr).flatMap (D.hdrBits vals)).length = target := by
    rw [hlen, ht]
  generalize (data.map EmitDatum.hdr).flatMap (D.hdrBits vals) = hdrs at *
  intro p hbound
  rw [hend]
  simp only [actionCallOrder]
  by_cases hpos : total > 0
  · -- the packet grows: the rest moves out of the way first
    rw [if_pos hpos, execCalls_append, hwrite, hres]
    refine ⟨fun hp => ?_, fun h₁ h₂ => ?_, fun h₁ h₃ => ?_⟩
    · rw [writeBits_of_lt hp, if_neg (by omega)]
    · rw [writeBits_of_mem h₁ (by omega)]
    · have hin := hreach p h₁ hbound h₃
      rw [writeBits_of_ge (by omega), if_pos ⟨h₁, hin⟩]
  · -- otherwise the rest stands behind all headers and moves last
    rw [if_neg hpos, execCalls_append, hres, hwrite]
    dsimp only
    refine ⟨fun hp => ?_, fun h₁ h₂ => ?_, fun h₁ h₃ => ?_⟩
    · rw [if_neg (by omega), writeBits_of_lt hp]
    · rw [if_neg (by omega), writeBits_of_mem h₁ (by omega)]
    · have hin := hreach p h₁ hbound h₃
      rw [if_pos ⟨h₁, hin⟩, writeBits_of_ge (by omega)]

end Deparser
end MicroP4
