import MicroP4.Deparser.OpsLayout

/-!
# The block sizes of a row's moves

`extendEntry` computes with unsigned numbers of 32 bits.  The block of a header is clipped
where it would reach over the end of the byte stack, and so is the block behind the parsed
headers; nothing is clipped whose new place begins behind the end, and nothing checks that
the parsed headers end within the stack before their end is subtracted from its size.

The size of the byte stack comes from the packets the parser accepts.  The table also has
rows for combinations of headers that no packet exhibits, as long as no two of the headers
are listed as exclusive, and its rows carry a first offset that can be wrong.  So a row can
reach behind the byte stack.  `moveBlocksFit_iff` says exactly when a row does not.
-/

namespace MicroP4
namespace Deparser

variable {H F : Type} [DecidableEq H]

/-! ## The property -/

/-- The exact result of a computation is an unsigned number of 32 bits. -/
def FitsUnsigned (value : ℤ) : Prop := 0 ≤ value ∧ value < 2 ^ 32

/-- No computation of `moveBlockSize` wraps for this header. -/
def EmitDatum.SizeFits (D : HeaderDecls H F) (byteStackSize : ℕ) (d : EmitDatum H) : Prop :=
  d.moveOS ≠ 0 →
    FitsUnsigned (d.currOS + d.moveOS) ∧ FitsUnsigned (d.currOS + d.moveOS + D.width d.hdr) ∧
      (d.currOS + d.moveOS ≤ byteStackSize →
        d.currOS + d.moveOS + D.width d.hdr > byteStackSize →
        FitsUnsigned (byteStackSize - (d.currOS + d.moveOS)))

/-- No computation of `resiBlockSize`, `lhsMin` and `lhsMax` wraps. -/
def ResiFits (byteStackSize currOffset : ℕ) (totalMoveOffset : ℤ) : Prop :=
  FitsUnsigned ((byteStackSize : ℤ) - currOffset) ∧ FitsUnsigned (currOffset + totalMoveOffset) ∧
    FitsUnsigned (currOffset + totalMoveOffset + (byteStackSize - currOffset)) ∧
    (currOffset + totalMoveOffset ≤ byteStackSize →
      currOffset + totalMoveOffset + (byteStackSize - currOffset) > (byteStackSize : ℤ) →
      FitsUnsigned (byteStackSize - (currOffset + totalMoveOffset)))

/-- The bytes a move reads and writes are bytes of the byte stack. -/
def OpsCall.MovesInside (byteStackSize : ℕ) : OpsCall H → Prop
  | .move co mo size =>
      ∀ p ∈ byteMoves co mo size, p.1 < byteStackSize / 8 ∧ p.2 < byteStackSize / 8
  | .emit _ _ => True

/-- **The block arithmetic of an entry does not wrap**, and its moves stay in the stack. -/
structure OpsRow.MoveBlocksFit (D : OpsInput H F) (e : OpsRow H) : Prop where
  sizes : ∀ d ∈ (D.rowData e.row e.ops).1, d.SizeFits D.toHeaderDecls D.byteStackSize
  resi : ResiFits D.byteStackSize (D.rowData e.row e.ops).2.2 (D.rowData e.row e.ops).2.1
  inside : ∀ c ∈ (D.rowAction e.row e.ops).calls, c.MovesInside D.byteStackSize

/-! ## The condition -/

/-- Where the headers of some columns end in the packet as parsed. -/
def OpsRow.parsedEnd (D : OpsInput H F) (e : OpsRow H) (keys : List (H × Bool)) : ℕ :=
  e.row.initOffset + D.totalWidth (validHdrs keys)

/-- Where they end after the operations. -/
def OpsRow.endAfter (D : OpsInput H F) (e : OpsRow H) (keys : List (H × Bool)) : ℕ :=
  e.row.initOffset + D.totalWidth (validHdrs (e.ops.apply keys))

/-- The parsed headers end within the byte stack, no header is moved to a place that begins
behind its end, and the sizes are far enough from the largest number. -/
structure OpsRow.WithinStack (D : OpsInput H F) (e : OpsRow H) : Prop where
  parsed : e.parsedEnd D e.row.keys ≤ D.byteStackSize
  moved : ∀ keys h keys', e.row.keys = keys ++ (h, true) :: keys' → h ∉ e.ops.setInvalid →
    D.width h ≠ 0 → e.endAfter D keys ≠ e.parsedEnd D keys → e.endAfter D keys ≤ D.byteStackSize
  lhsMin : e.endAfter D e.row.keys < 2 ^ 32
  lhsMax : e.endAfter D e.row.keys + D.byteStackSize < e.parsedEnd D e.row.keys + 2 ^ 32

/-! ## The calls of an action -/

theorem mem_byteMoves {co size t : ℕ} {mo : ℤ} (ht : (co : ℤ) + mo = t) {p : ℕ × ℕ} :
    p ∈ byteMoves co mo size ↔ ∃ i < size / 8, p = (t / 8 + i, co / 8 + i) := by
  have hstart : (co + mo).toNat = t := by rw [ht]; rfl
  have hmem : p ∈ (List.range (size / 8)).map (fun i => (t / 8 + i, co / 8 + i)) ↔
      ∃ i < size / 8, p = (t / 8 + i, co / 8 + i) := by
    rw [List.mem_map]
    constructor
    · rintro ⟨i, hi, rfl⟩
      exact ⟨i, List.mem_range.mp hi, rfl⟩
    · rintro ⟨i, hi, rfl⟩
      exact ⟨i, List.mem_range.mpr hi, rfl⟩
  simp only [byteMoves, hstart]
  split
  · rw [List.mem_reverse]
    exact hmem
  · exact hmem

omit [DecidableEq H] in
/-- A move of whole bytes stays inside exactly if both of its ranges end in the stack. -/
theorem movesInside_iff {bss co size t : ℕ} {mo : ℤ} (ht : (co : ℤ) + mo = t) (hb : 8 ∣ bss)
    (hco : 8 ∣ co) (h8 : 8 ∣ t) (hsize : 8 ∣ size) (hne : size ≠ 0) :
    (OpsCall.move co mo size : OpsCall H).MovesInside bss ↔ t + size ≤ bss ∧ co + size ≤ bss := by
  simp only [OpsCall.MovesInside, mem_byteMoves ht]
  constructor
  · intro h
    have hlast := h (t / 8 + (size / 8 - 1), co / 8 + (size / 8 - 1))
      ⟨size / 8 - 1, by omega, rfl⟩
    dsimp only at hlast
    omega
  · rintro ⟨hdest, hsrc⟩ p ⟨i, hi, rfl⟩
    dsimp only
    omega

/-- `moveBlockSize`, for one header. -/
def moveBlockSize (D : HeaderDecls H F) (byteStackSize : ℕ) (d : EmitDatum H) : ℕ :=
  if d.target ≤ byteStackSize ∧ d.target + D.width d.hdr > byteStackSize then
    byteStackSize - d.target
  else D.width d.hdr

omit [DecidableEq H] in
theorem mem_emitCalls {D : HeaderDecls H F} {bss : ℕ} {d : EmitDatum H} {c : OpsCall H} :
    c ∈ emitCalls D bss d ↔
      (d.moveOS ≠ 0 ∧ moveBlockSize D bss d ≠ 0) ∧
        c = .move d.currOS d.moveOS (moveBlockSize D bss d) ∨ c = .emit d.hdr d.target := by
  have hcalls : emitCalls D bss d =
      (if d.moveOS ≠ 0 ∧ moveBlockSize D bss d ≠ 0 then
        [.move d.currOS d.moveOS (moveBlockSize D bss d)] else []) ++ [.emit d.hdr d.target] := rfl
  rw [hcalls, List.mem_append, List.mem_singleton]
  split
  · rename_i hmoves
    rw [List.mem_singleton]
    exact or_congr_left ⟨fun hc => ⟨hmoves, hc⟩, fun hc => hc.2⟩
  · rename_i hmoves
    exact or_congr_left ⟨fun hc => absurd hc List.not_mem_nil, fun hc => absurd hc.1 hmoves⟩

omit [DecidableEq H] in
/-- The calls of an action are those for the headers and the move of the rest. -/
theorem mem_actionCallOrder {D : HeaderDecls H F} {bss curr : ℕ} {total : ℤ}
    {data : List (EmitDatum H)} {c : OpsCall H} :
    c ∈ actionCallOrder D bss data total curr ↔ (∃ d ∈ data, c ∈ emitCalls D bss d) ∨
      (total ≠ 0 ∧ resiBlockSize bss curr total ≠ 0) ∧
        c = .move curr total (resiBlockSize bss curr total) := by
  have hperm : (emitOrder [] data.reverse).Perm data :=
    (emitOrder_perm [] _).trans (List.reverse_perm data)
  have hcalls : c ∈ (emitOrder [] data.reverse).flatMap (emitCalls D bss) ↔
      ∃ d ∈ data, c ∈ emitCalls D bss d := by
    rw [List.mem_flatMap]
    constructor
    · rintro ⟨d, hd, hc⟩
      exact ⟨d, hperm.subset hd, hc⟩
    · rintro ⟨d, hd, hc⟩
      exact ⟨d, hperm.symm.subset hd, hc⟩
  have hres : c ∈ (if total ≠ 0 ∧ resiBlockSize bss curr total ≠ 0 then
      [OpsCall.move curr total (resiBlockSize bss curr total)] else []) ↔
      (total ≠ 0 ∧ resiBlockSize bss curr total ≠ 0) ∧
        c = .move curr total (resiBlockSize bss curr total) := by
    split
    · rename_i hmoves
      rw [List.mem_singleton]
      exact ⟨fun hc => ⟨hmoves, hc⟩, fun hc => hc.2⟩
    · rename_i hmoves
      exact ⟨fun hc => absurd hc List.not_mem_nil, fun hc => absurd hc.1 hmoves⟩
  simp only [actionCallOrder]
  split
  · rw [List.mem_append, hres, hcalls, or_comm]
  · rw [List.mem_append, hres, hcalls]

/-- Without wrapping, the move of the rest is clipped to the stack at both ends. -/
theorem resiBlockSize_ends {bss curr t : ℕ} {total : ℤ} (hbss : bss < 2 ^ 32)
    (hcurr : curr ≤ bss) (ht : (curr : ℤ) + total = t) (hmax : t + (bss - curr) < 2 ^ 32)
    (hne : resiBlockSize bss curr total ≠ 0) :
    t + resiBlockSize bss curr total ≤ bss ∧ curr + resiBlockSize bss curr total ≤ bss := by
  have hstart : (curr + total).toNat = t := by rw [ht]; rfl
  have hrest : (((bss : ℤ) - curr) % 2 ^ 32).toNat = bss - curr := by omega
  have hend : (t + (bss - curr)) % 2 ^ 32 = t + (bss - curr) := Nat.mod_eq_of_lt hmax
  simp only [resiBlockSize, hstart, hrest, hend] at hne ⊢
  split at hne
  · exact absurd rfl hne
  · rename_i hmin
    rw [if_neg hmin]
    split
    · omega
    · omega

/-! ## Where the headers of a row are -/

section Row

variable {D : OpsInput H F} {e : OpsRow H}

omit [DecidableEq H] in
theorem validHdrs_append (keys keys' : List (H × Bool)) :
    validHdrs (keys ++ keys') = validHdrs keys ++ validHdrs keys' := by
  rw [validHdrs, List.filter_append, List.map_append]
  rfl

omit [DecidableEq H] in
/-- A header that is parsed lies in front of the end of the parsed headers. -/
theorem parsedEnd_add_width_le {all keys keys' : List (H × Bool)} {h : H}
    (hkeys : all = keys ++ (h, true) :: keys') :
    e.parsedEnd D keys + D.width h ≤ e.parsedEnd D all := by
  rw [OpsRow.parsedEnd, OpsRow.parsedEnd, hkeys, validHdrs_append, validHdrs_cons_true,
    D.totalWidth_append, totalWidth_cons]
  omega

/-- A header that stays valid lies in front of the end afterwards. -/
theorem endAfter_add_width_le {all keys keys' : List (H × Bool)} {h : H}
    (hkeys : all = keys ++ (h, true) :: keys') (hh : h ∉ e.ops.setInvalid) :
    e.endAfter D keys + D.width h ≤ e.endAfter D all := by
  have happly : e.ops.apply all = e.ops.apply keys ++ (h, true) :: e.ops.apply keys' := by
    rw [hkeys, HdrValidityOps.apply, List.map_append, List.map_cons, HdrValidityOps.op_getD_true,
      decide_eq_true hh]
    rfl
  rw [OpsRow.endAfter, OpsRow.endAfter, happly, validHdrs_append, validHdrs_cons_true,
    D.totalWidth_append, totalWidth_cons]
  omega

/-- An entry of the multiplied table is one of its pairs. -/
theorem mem_pairs_of_mem_opsTable (he : e ∈ D.opsTable) : (e.row, e.ops) ∈ D.pairs := by
  rw [OpsInput.opsTable] at he
  split at he
  · exact absurd he List.not_mem_nil
  · obtain ⟨p, hp, rfl⟩ := List.mem_map.mp he
    exact hp

theorem dvd_parsedEnd (hD : D.WellSized) (he : e ∈ D.opsTable) (keys : List (H × Bool)) :
    8 ∣ e.parsedEnd D keys :=
  Nat.dvd_add (initOffset_dvd hD (mem_pairs.mp (mem_pairs_of_mem_opsTable he)).1)
    (hD.widths.totalWidth_dvd _)

theorem dvd_endAfter (hD : D.WellSized) (he : e ∈ D.opsTable) (keys : List (H × Bool)) :
    8 ∣ e.endAfter D keys :=
  Nat.dvd_add (initOffset_dvd hD (mem_pairs.mp (mem_pairs_of_mem_opsTable he)).1)
    (hD.widths.totalWidth_dvd _)

/-! ## The data of a row, column by column -/

variable (D e) in
/-- What a column adds to the data of a row, behind the columns `keys`. -/
def OpsRow.datum (keys : List (H × Bool)) : H × Bool → List (EmitDatum H)
  | (h, true) =>
      if h ∈ e.ops.setInvalid then []
      else [⟨e.parsedEnd D keys, (e.endAfter D keys : ℤ) - e.parsedEnd D keys, h⟩]
  | (h, false) => if h ∈ e.ops.setValid then [⟨e.endAfter D keys, 0, h⟩] else []

variable (D e) in
/-- What columns add to the data of a row, behind the columns `keys`. -/
def OpsRow.dataFrom : (keys : List (H × Bool)) → List (H × Bool) → List (EmitDatum H)
  | _, [] => []
  | keys, c :: cs => e.datum D keys c ++ OpsRow.dataFrom (keys ++ [c]) cs

omit [DecidableEq H] in
theorem parsedEnd_append (keys : List (H × Bool)) (h : H) (value : Bool) :
    e.parsedEnd D (keys ++ [(h, value)]) =
      e.parsedEnd D keys + if value then D.width h else 0 := by
  cases value
  · rw [OpsRow.parsedEnd, validHdrs_append_false]
    rfl
  · rw [OpsRow.parsedEnd, validHdrs_append_true, D.totalWidth_append, D.totalWidth_singleton,
      ← Nat.add_assoc]
    rfl

theorem endAfter_append (keys : List (H × Bool)) (h : H) (value : Bool) :
    e.endAfter D (keys ++ [(h, value)]) =
      e.endAfter D keys + if (e.ops.op h value).getD value then D.width h else 0 := by
  have happly : e.ops.apply (keys ++ [(h, value)]) =
      e.ops.apply keys ++ [(h, (e.ops.op h value).getD value)] := by
    rw [HdrValidityOps.apply, List.map_append]
    rfl
  rw [OpsRow.endAfter, happly]
  cases (e.ops.op h value).getD value with
  | false =>
    rw [validHdrs_append_false]
    rfl
  | true =>
    rw [validHdrs_append_true, D.totalWidth_append, D.totalWidth_singleton, ← Nat.add_assoc]
    rfl

/-- A header that was not parsed. -/
theorem endAfter_append_false (keys : List (H × Bool)) (h : H) :
    e.endAfter D (keys ++ [(h, false)]) =
      e.endAfter D keys + if h ∈ e.ops.setValid then D.width h else 0 := by
  rw [endAfter_append, HdrValidityOps.op_getD_false]
  simp only [decide_eq_true_eq]

/-- A header that was parsed. -/
theorem endAfter_append_true (keys : List (H × Bool)) (h : H) :
    e.endAfter D (keys ++ [(h, true)]) =
      e.endAfter D keys + if h ∈ e.ops.setInvalid then 0 else D.width h := by
  rw [endAfter_append, HdrValidityOps.op_getD_true]
  simp only [decide_eq_true_eq, ite_not]

/-- The loop over the columns, started behind the columns `keys`. -/
theorem emitData_eq_dataFrom (hops : e.ops ∈ D.xoredValidityOps) :
    ∀ (cs keys : List (H × Bool)),
      emitData D.toHeaderDecls (hdrOpKeyNames D.xoredValidityOps)
          (hdrValidityOpKeyValue (hdrOpKeyNames D.xoredValidityOps) e.ops) cs
          ((e.endAfter D keys : ℤ) - e.parsedEnd D keys) (e.parsedEnd D keys) =
        (e.dataFrom D keys cs, (e.endAfter D (keys ++ cs) : ℤ) - e.parsedEnd D (keys ++ cs),
          e.parsedEnd D (keys ++ cs))
  | [], keys => by
      rw [List.append_nil]
      rfl
  | (h, value) :: cs, keys => by
      have ih := emitData_eq_dataFrom hops cs (keys ++ [(h, value)])
      rw [List.append_assoc, List.singleton_append, parsedEnd_append] at ih
      rw [emitData, findOp_eq hops, OpsRow.dataFrom]
      cases value with
      | false =>
        rw [endAfter_append_false] at ih
        by_cases hv : h ∈ e.ops.setValid
        · have hop : e.ops.op h false = some true := by simp [HdrValidityOps.op, hv]
          have hmove : ((e.endAfter D keys + D.width h : ℕ) : ℤ) - e.parsedEnd D keys =
              e.endAfter D keys - e.parsedEnd D keys + D.width h := by
            omega
          have hstart : ((e.parsedEnd D keys : ℤ) +
              (e.endAfter D keys - e.parsedEnd D keys)).toNat = e.endAfter D keys := by
            omega
          simp only [if_pos hv, Bool.false_eq_true, if_false, Nat.add_zero, hmove] at ih
          simp only [hop, ih, hstart, OpsRow.datum, if_pos hv]
          rfl
        · have hop : e.ops.op h false = none := by simp [HdrValidityOps.op, hv]
          simp only [if_neg hv, Bool.false_eq_true, if_false, Nat.add_zero] at ih
          simp only [hop, Bool.false_eq_true, if_false, ih, OpsRow.datum, if_neg hv]
          rfl
      | true =>
        rw [endAfter_append_true] at ih
        by_cases hv : h ∈ e.ops.setInvalid
        · have hop : e.ops.op h true = some false := by simp [HdrValidityOps.op, hv]
          have hmove : (e.endAfter D keys : ℤ) - (e.parsedEnd D keys + D.width h : ℕ) =
              e.endAfter D keys - e.parsedEnd D keys - D.width h := by
            omega
          simp only [if_pos hv, if_true, Nat.add_zero, hmove] at ih
          simp only [hop, ih, OpsRow.datum, if_pos hv]
          rfl
        · have hop : e.ops.op h true = none := by simp [HdrValidityOps.op, hv]
          have hmove : ((e.endAfter D keys + D.width h : ℕ) : ℤ) -
              (e.parsedEnd D keys + D.width h : ℕ) = e.endAfter D keys - e.parsedEnd D keys := by
            omega
          simp only [if_neg hv, if_true, hmove] at ih
          simp only [hop, if_true, ih, OpsRow.datum, if_neg hv]
          rfl

/-- The data of a row, the total move and the end of the parsed headers. -/
theorem rowData_eq (he : e ∈ D.opsTable) :
    D.rowData e.row e.ops = (e.dataFrom D [] e.row.keys,
      (e.endAfter D e.row.keys : ℤ) - e.parsedEnd D e.row.keys, e.parsedEnd D e.row.keys) := by
  have hops := (mem_pairs.mp (mem_pairs_of_mem_opsTable he)).2
  have hdata := emitData_eq_dataFrom hops e.row.keys []
  have hnil : (e.endAfter D [] : ℤ) - e.parsedEnd D [] = 0 := Int.sub_self _
  rw [hnil] at hdata
  exact hdata

theorem mem_dataFrom {d : EmitDatum H} : ∀ {cs keys : List (H × Bool)},
    d ∈ e.dataFrom D keys cs ↔ ∃ l c l', cs = l ++ c :: l' ∧ d ∈ e.datum D (keys ++ l) c
  | [], keys => by simp [OpsRow.dataFrom]
  | a :: cs, keys => by
      rw [OpsRow.dataFrom, List.mem_append, mem_dataFrom]
      constructor
      · rintro (hd | ⟨l, c, l', rfl, hd⟩)
        · exact ⟨[], a, cs, rfl, by rwa [List.append_nil]⟩
        · exact ⟨a :: l, c, l', rfl, by rwa [List.append_assoc] at hd⟩
      · rintro ⟨l, c, l', hcs, hd⟩
        rcases l with _ | ⟨b, l⟩
        · rw [List.nil_append, List.cons.injEq] at hcs
          rw [List.append_nil, ← hcs.1] at hd
          exact Or.inl hd
        · rw [List.cons_append, List.cons.injEq] at hcs
          rw [← hcs.1] at hd
          refine Or.inr ⟨l, c, l', hcs.2, ?_⟩
          rwa [List.append_assoc]

/-- What holds between the data of a row, column by column. -/
theorem pairwise_dataFrom {S : EmitDatum H → EmitDatum H → Prop} :
    ∀ {cs keys : List (H × Bool)}, (e.dataFrom D keys cs).Pairwise S ↔
      ∀ l c l', cs = l ++ c :: l' → ∀ d ∈ e.datum D (keys ++ l) c,
        ∀ d' ∈ e.dataFrom D (keys ++ l ++ [c]) l', S d d'
  | [], keys => by simp [OpsRow.dataFrom]
  | a :: cs, keys => by
      have hsingle : (e.datum D keys a).Pairwise S := by
        obtain ⟨h, value⟩ := a
        cases value <;> rw [OpsRow.datum] <;> split <;> simp
      rw [OpsRow.dataFrom, List.pairwise_append, and_iff_right hsingle, pairwise_dataFrom]
      constructor
      · rintro ⟨hrest, hfirst⟩ l c l' hcs d hd d' hd'
        rcases l with _ | ⟨b, l⟩
        · rw [List.nil_append, List.cons.injEq] at hcs
          obtain ⟨rfl, rfl⟩ := hcs
          rw [List.append_nil] at hd hd'
          exact hfirst d hd d' hd'
        · rw [List.cons_append, List.cons.injEq] at hcs
          obtain ⟨rfl, hcs⟩ := hcs
          refine hrest l c l' hcs d ?_ d' ?_
          · rwa [List.append_assoc]
          · rwa [List.append_assoc keys]
      · intro hall
        refine ⟨fun l c l' hcs d hd d' hd' => ?_, fun d hd d' hd' => ?_⟩
        · refine hall (a :: l) c l' (by rw [hcs]; rfl) d ?_ d' ?_
          · rwa [List.append_assoc] at hd
          · rwa [List.append_assoc keys] at hd'
        · refine hall [] a cs rfl d ?_ d' ?_
          · rwa [List.append_nil]
          · rwa [List.append_nil]

/-- **The data of a row that carry a move.**  They belong to the columns that are valid and
stay so; each is found behind the parsed headers in front of it, and goes behind the headers
that are in front of it after the operations. -/
theorem mem_rowData_moved (he : e ∈ D.opsTable) {d : EmitDatum H} (hd : d.moveOS ≠ 0) :
    d ∈ (D.rowData e.row e.ops).1 ↔
      ∃ keys h keys', e.row.keys = keys ++ (h, true) :: keys' ∧ h ∉ e.ops.setInvalid ∧
        d = ⟨e.parsedEnd D keys, (e.endAfter D keys : ℤ) - e.parsedEnd D keys, h⟩ := by
  rw [rowData_eq he]
  dsimp only
  rw [mem_dataFrom]
  constructor
  · rintro ⟨keys, ⟨h, value⟩, keys', hkeys, hmem⟩
    rw [List.nil_append] at hmem
    cases value with
    | false =>
      rw [OpsRow.datum] at hmem
      split at hmem
      · rw [List.mem_singleton] at hmem
        rw [hmem] at hd
        exact absurd rfl hd
      · exact absurd hmem List.not_mem_nil
    | true =>
      rw [OpsRow.datum] at hmem
      split at hmem
      · exact absurd hmem List.not_mem_nil
      · rename_i hh
        exact ⟨keys, h, keys', hkeys, hh, List.mem_singleton.mp hmem⟩
  · rintro ⟨keys, h, keys', hkeys, hh, rfl⟩
    refine ⟨keys, (h, true), keys', hkeys, ?_⟩
    rw [OpsRow.datum, if_neg hh]
    exact List.mem_singleton.mpr rfl

/-! ## The theorem -/

/-- What the condition says about one header that moves. -/
theorem OpsRow.WithinStack.header (hD : D.WellSized) (he : e ∈ D.opsTable) (hin : e.WithinStack D)
    {d : EmitDatum H} (hd : d ∈ (D.rowData e.row e.ops).1) (hmo : d.moveOS ≠ 0) :
    ∃ t : ℕ, (d.currOS : ℤ) + d.moveOS = t ∧ 8 ∣ d.currOS ∧ 8 ∣ t ∧
      d.currOS + D.width d.hdr ≤ D.byteStackSize ∧
      t + D.width d.hdr ≤ e.endAfter D e.row.keys ∧ (D.width d.hdr ≠ 0 → t ≤ D.byteStackSize) := by
  obtain ⟨keys, h, keys', hkeys, hh, rfl⟩ := (mem_rowData_moved he hmo).mp hd
  have hparsed := parsedEnd_add_width_le (D := D) (e := e) hkeys
  have hbss := hin.parsed
  dsimp only at hmo ⊢
  refine ⟨e.endAfter D keys, by omega, dvd_parsedEnd hD he keys, dvd_endAfter hD he keys, by omega,
    endAfter_add_width_le hkeys hh, fun hw => hin.moved keys h keys' hkeys hh hw ?_⟩
  omega

/-- **Exactly when the block arithmetic does not wrap** and all moves stay in the stack. -/
theorem moveBlocksFit_iff (D : OpsInput H F) (hD : D.WellSized) {e : OpsRow H}
    (he : e ∈ D.opsTable) : e.MoveBlocksFit D ↔ e.WithinStack D := by
  have hb := hD.stack
  have hlt := hD.stack_lt
  have hsnd : (D.rowData e.row e.ops).2 =
      ((e.endAfter D e.row.keys : ℤ) - e.parsedEnd D e.row.keys, e.parsedEnd D e.row.keys) := by
    rw [rowData_eq he]
  have hcalls : (D.rowAction e.row e.ops).calls = actionCallOrder D.toHeaderDecls D.byteStackSize
      (D.rowData e.row e.ops).1 (D.rowData e.row e.ops).2.1 (D.rowData e.row e.ops).2.2 := rfl
  constructor
  · intro hfit
    have hresi := hfit.resi
    rw [hsnd] at hresi
    obtain ⟨hcurr, hmin, hmax, -⟩ := hresi
    simp only [FitsUnsigned] at hcurr hmin hmax
    refine ⟨by omega, fun keys h keys' hkeys hh hw hne => ?_, by omega, by omega⟩
    -- a header that begins behind the end is moved in full
    by_contra hbehind
    have hmo : (e.endAfter D keys : ℤ) - e.parsedEnd D keys ≠ 0 := by omega
    have htarget : (e.parsedEnd D keys : ℤ) + (e.endAfter D keys - e.parsedEnd D keys) =
        e.endAfter D keys := by omega
    have hd := (mem_rowData_moved (D := D) he
      (d := ⟨e.parsedEnd D keys, (e.endAfter D keys : ℤ) - e.parsedEnd D keys, h⟩) hmo).mpr
      ⟨keys, h, keys', hkeys, hh, rfl⟩
    have hsize : moveBlockSize D.toHeaderDecls D.byteStackSize
        ⟨e.parsedEnd D keys, (e.endAfter D keys : ℤ) - e.parsedEnd D keys, h⟩ = D.width h := by
      have hstart : EmitDatum.target
          ⟨e.parsedEnd D keys, (e.endAfter D keys : ℤ) - e.parsedEnd D keys, h⟩ =
          e.endAfter D keys := by
        rw [EmitDatum.target, htarget]
        rfl
      rw [moveBlockSize, hstart, if_neg]
      omega
    have hmem : OpsCall.move (e.parsedEnd D keys) (e.endAfter D keys - e.parsedEnd D keys)
        (D.width h) ∈ (D.rowAction e.row e.ops).calls := by
      rw [hcalls, mem_actionCallOrder]
      refine Or.inl ⟨_, hd, mem_emitCalls.mpr (Or.inl ?_)⟩
      rw [hsize]
      exact ⟨⟨hmo, hw⟩, rfl⟩
    have hinside := hfit.inside _ hmem
    have hw8 : 8 ∣ D.width h := hD.widths h
    have hends := (movesInside_iff htarget hb (dvd_parsedEnd hD he keys) (dvd_endAfter hD he keys)
      hw8 hw).mp hinside
    omega
  · intro hin
    have hparsed := hin.parsed
    have hmin := hin.lhsMin
    have hmax := hin.lhsMax
    refine ⟨fun d hd hmo => ?_, ?_, fun c hc => ?_⟩
    · obtain ⟨t, ht, -, -, -, hend, hstart⟩ := hin.header hD he hd hmo
      simp only [FitsUnsigned, ht]
      omega
    · rw [hsnd]
      simp only [ResiFits, FitsUnsigned]
      omega
    · rw [hcalls, mem_actionCallOrder] at hc
      rcases hc with ⟨d, hd, hc⟩ | ⟨⟨htotal, hne⟩, rfl⟩
      · rcases mem_emitCalls.mp hc with ⟨⟨hmo, hne⟩, rfl⟩ | rfl
        · obtain ⟨t, ht, hco, h8, hsrc, -, hstart⟩ := hin.header hD he hd hmo
          have htarget : d.target = t := by
            rw [EmitDatum.target, ht]
            rfl
          have hw : 8 ∣ D.width d.hdr := hD.widths d.hdr
          have hsize : 8 ∣ moveBlockSize D.toHeaderDecls D.byteStackSize d ∧
              moveBlockSize D.toHeaderDecls D.byteStackSize d ≤ D.width d.hdr ∧
              (t ≤ D.byteStackSize →
                t + moveBlockSize D.toHeaderDecls D.byteStackSize d ≤ D.byteStackSize) := by
            rw [moveBlockSize, htarget]
            split
            · omega
            · omega
          rw [movesInside_iff ht hb hco h8 hsize.1 hne]
          omega
        · exact trivial
      · rw [hsnd] at htotal hne ⊢
        dsimp only at htotal hne ⊢
        have ht : (e.parsedEnd D e.row.keys : ℤ) +
            (e.endAfter D e.row.keys - e.parsedEnd D e.row.keys) = e.endAfter D e.row.keys := by
          omega
        have hco := dvd_parsedEnd hD he e.row.keys
        have h8 := dvd_endAfter hD he e.row.keys
        have hresi := (resiBlockSize_spec hlt hb hco h8 ht).1
        rw [movesInside_iff ht hb hco h8 hresi hne]
        have hends := resiBlockSize_ends hlt hparsed ht (by omega) hne
        omega

end Row

/-! ## Exclusive headers that are not listed as exclusive -/

/-- Entered behind one byte, a parser extracts either header `0` of two bytes, or header `1`
and then header `2` of one byte each; the stack has three bytes.  Headers `0` and `1` are
listed as exclusive, headers `0` and `2` are not.  The control removes header `1` or `2`. -/
def twoPaths : OpsInput (Fin 3) Unit where
  fields h := [((), if h = 0 then 16 else 8)]
  xoredHeaderSets := [[0, 1]]
  parsedHeaders := some [0, 1, 2]
  initialOffsets := [8]
  emits := [1, 0, 2]
  xoredValidityOps := [⟨[], [1]⟩, ⟨[], [2]⟩]
  byteStackSize := 24

theorem wellSized_twoPaths : twoPaths.WellSized where
  widths h := by
    revert h
    decide
  offsets := by decide
  stack := by decide
  stack_lt := by decide

/-- Headers `1` and `2` are parsed, and header `1` is removed. -/
def twoPathsSecond : OpsRow (Fin 3) :=
  let r : EmitRow (Fin 3) := ⟨some 8, [(1, true), (0, false), (2, true)], 24,
    some (.chain (.chain (.setOffset 8) 1 8) 2 16), 8⟩
  ⟨r, ⟨[], [1]⟩, (twoPaths.rowAction r ⟨[], [1]⟩).name⟩

/-- Headers `0` and `2` are parsed, which no packet exhibits, and header `2` is removed. -/
def twoPathsBoth : OpsRow (Fin 3) :=
  let r : EmitRow (Fin 3) := ⟨some 8, [(1, false), (0, true), (2, true)], 32,
    some (.chain (.chain (.setOffset 8) 0 8) 2 24), 8⟩
  ⟨r, ⟨[], [2]⟩, (twoPaths.rowAction r ⟨[], [2]⟩).name⟩

theorem moveBlocksFit_twoPathsSecond : twoPathsSecond.MoveBlocksFit twoPaths :=
  (moveBlocksFit_iff twoPaths wellSized_twoPaths (e := twoPathsSecond)
    (List.mem_of_getElem? (i := 4) rfl)).2
    { parsed := by decide
      moved := by
        intro keys h keys' hkeys hh _ _
        have hle := endAfter_add_width_le (D := twoPaths) (e := twoPathsSecond) hkeys hh
        have hend : twoPathsSecond.endAfter twoPaths twoPathsSecond.row.keys = 16 := rfl
        have hbss : twoPaths.byteStackSize = 24 := rfl
        omega
      lhsMin := by decide
      lhsMax := by decide }

/-- The size of the stack less the end of the parsed headers wraps, and is not clipped. -/
theorem not_moveBlocksFit_twoPathsBoth : twoPathsBoth ∈ twoPaths.opsTable ∧
    (twoPaths.rowAction twoPathsBoth.row twoPathsBoth.ops).calls =
      [.emit 0 8, .move 32 (-8) (2 ^ 32 - 8)] ∧ ¬ twoPathsBoth.MoveBlocksFit twoPaths := by
  refine ⟨List.mem_of_getElem? (i := 11) rfl, rfl, fun hfit => ?_⟩
  have hcurr := hfit.resi.1.1
  revert hcurr
  decide

end Deparser
end MicroP4
