import MicroP4.Deparser.MovedRuns
import MicroP4.Partitioning.MovesNeeded

/-!
# Exactly which rows survive a cut

The conditions on the calls of an action become conditions on the columns of a row
(`movesBack_iff`): where headers end in the packet as parsed and where they end after the
operations.  In practice a row that moves headers only survives if what was removed in front of
them is at least as long as they are.

`lossless_iff_restorable` puts the cases together, for every row and both of the deparsers that
can be chosen.
-/

namespace MicroP4
namespace Partitioning

open BitString Deparser

variable {H F : Type}

/-! ## The order of the calls, in terms of the order of the headers -/

/-- **What the order of the calls asks for.**  No header moves right, and a header that moves
left and those directly behind it that do so as well end in front of its old place. -/
theorem Placed.apart_iff {D : HeaderDecls H F} {bss init curr fin : ℕ} {total : ℤ}
    {data : List (EmitDatum H)} (h : Placed D bss init curr fin total data) :
    (((emitOrder [] data.reverse).Pairwise fun d c => c.Spares D bss d) ∧
      ∀ d ∈ data, d.Spares D bss d) ↔
      (∀ d ∈ data, 0 < d.moveOS → moveBlockSize D bss d = 0) ∧
      ∀ m d m', data = m ++ d :: m' → d.moveOS < 0 → moveBlockSize D bss d ≠ 0 →
        d.target + D.totalWidth ((d :: m'.takeWhile EmitDatum.movesLeft).map EmitDatum.hdr) ≤
          d.currOS := by
  have hstart : ∀ d : EmitDatum H, d.target = (d.currOS + d.moveOS).toNat := fun _ => rfl
  rw [pairwise_emitOrder_iff]
  constructor
  · rintro ⟨hapart, hself⟩
    refine ⟨fun c hc hright => ?_, fun m d m' hdata hleft hsize => ?_⟩
    · -- the old place of `c` begins in a header in front of it
      by_contra hsize
      have hstart := hstart c
      have hbounds := h.target_bounds hc
      have hmoved := h.moved c hc hright.ne'
      have hfin := h.fin_eq
      obtain ⟨a, ha, hlow, hhigh⟩ := h.laidOut.exists_covering hmoved.1 (by omega)
      obtain ⟨m, m', hdata⟩ := List.append_of_mem ha
      have hspares : a.Spares D bss c := by
        have hlaid := h.laidOut
        rw [hdata] at hc hlaid
        rcases List.mem_append.mp hc with hcm | hcm
        · have hfront := (isLaidOut_of_append hlaid).bounds hcm
          have htarget := hlaid.target m a m' rfl
          omega
        · rcases List.mem_cons.mp hcm with rfl | hcm
          · omega
          · exact (hapart m a m' hdata).1 c (mem_dropWhile_movesLeft hright.le hcm)
      have hover := hspares hright.ne' c.currOS hlow hhigh (Nat.le_refl _)
      omega
    · by_contra hover
      have hlaid := h.laidOut
      rw [hdata] at hlaid
      have hstart := hstart d
      have hrun : IsLaidOut D d.target (d :: m'.takeWhile EmitDatum.movesLeft) := by
        have hsuffix := isLaidOut_suffix hlaid
        rw [← List.takeWhile_append_dropWhile (p := EmitDatum.movesLeft) (l := m'),
          ← List.cons_append] at hsuffix
        exact isLaidOut_of_append hsuffix
      obtain ⟨a, ha, hlow, hhigh⟩ := hrun.exists_covering (p := d.currOS) (by omega) (by omega)
      have hspares : a.Spares D bss d := by
        rcases List.mem_cons.mp ha with rfl | ha
        · exact hself a (by rw [hdata]; exact List.mem_append_right m List.mem_cons_self)
        · exact (hapart m d m' hdata).2 a ha
      have hfree := hspares hleft.ne d.currOS hlow hhigh (Nat.le_refl _)
      omega
  · rintro ⟨hright, hleft⟩
    -- nothing up to the end of its run is part of the old place of a header that moves left
    have hrun : ∀ m d m' a, data = m ++ d :: m' →
        a ∈ d :: m'.takeWhile EmitDatum.movesLeft → a.Spares D bss d := by
      intro m d m' a hdata ha hmo p hlow hhigh hsource
      have hd : d ∈ data := by
        rw [hdata]
        exact List.mem_append_right m List.mem_cons_self
      rcases Int.lt_or_le d.moveOS 0 with hneg | hnonneg
      · by_cases hsize : moveBlockSize D bss d = 0
        · omega
        have hend := hleft m d m' hdata hneg hsize
        have hlaid := h.laidOut
        rw [hdata] at hlaid
        have hsuffix := isLaidOut_suffix hlaid
        rw [← List.takeWhile_append_dropWhile (p := EmitDatum.movesLeft) (l := m'),
          ← List.cons_append] at hsuffix
        have hbounds := (isLaidOut_of_append hsuffix).bounds ha
        omega
      · have hsize := hright d hd (by omega)
        omega
    refine ⟨fun m d m' hdata => ⟨fun a ha => ?_, fun a ha => ?_⟩, fun d hd => ?_⟩
    · have hmem := (List.dropWhile_sublist _).subset ha
      rcases Int.lt_or_le a.moveOS 0 with hneg | hnonneg
      · have hlaid := h.laidOut
        rw [hdata] at hlaid
        exact spares_of_movesLeft (isLaidOut_suffix hlaid) hmem hneg
      · intro hmo p _ _ hsource
        have hmemData : a ∈ data := by
          rw [hdata]
          exact List.mem_append_right m (List.mem_cons_of_mem d hmem)
        have hsize := hright a hmemData (by omega)
        omega
    · exact hrun m d m' a hdata (List.mem_cons_of_mem d ha)
    · obtain ⟨m, m', hdata⟩ := List.append_of_mem hd
      exact hrun m d m' d hdata List.mem_cons_self

/-! ## Rows with operations -/

section Row

variable [DecidableEq H]

/-- How much of the stack moves along with the last header of an entry. -/
def rowResi (D : OpsInput H F) (e : OpsRow H) : ℕ :=
  resiBlockSize D.byteStackSize (e.parsedEnd D e.row.keys)
    ((e.endAfter D e.row.keys : ℤ) - e.parsedEnd D e.row.keys)

/-- **What taking back the moves of an entry needs.**  No header moves right.  A header that moves
left, and what is behind it up to the next header that is inserted, ends in front of its old place,
and if the packet shrinks, that old place is inside of what is left of it.  A packet that grows
pushes no bytes along, and one that shrinks not more than it shrinks by. -/
structure TakesBack (D : OpsInput H F) (e : OpsRow H) : Prop where
  right : ∀ keys h rest, e.row.keys = keys ++ (h, true) :: rest → h ∉ e.ops.setInvalid →
    e.parsedEnd D keys < e.endAfter D keys → e.movedWidth D keys h = 0
  left : ∀ keys h rest, e.row.keys = keys ++ (h, true) :: rest → h ∉ e.ops.setInvalid →
    e.endAfter D keys < e.parsedEnd D keys → e.movedWidth D keys h ≠ 0 →
    e.endAfter D (keys ++ (h, true) :: rest.takeWhile fun c => !e.ops.inserts c) ≤
      e.parsedEnd D keys
  inside : e.endAfter D e.row.keys < e.parsedEnd D e.row.keys → ∀ keys h rest,
    e.row.keys = keys ++ (h, true) :: rest → h ∉ e.ops.setInvalid →
    e.endAfter D keys < e.parsedEnd D keys → e.movedWidth D keys h ≠ 0 →
    e.parsedEnd D keys + e.movedWidth D keys h ≤ e.endAfter D e.row.keys
  grows : e.parsedEnd D e.row.keys < e.endAfter D e.row.keys → rowResi D e = 0
  shrinks : e.endAfter D e.row.keys < e.parsedEnd D e.row.keys →
    rowResi D e + e.endAfter D e.row.keys ≤ e.parsedEnd D e.row.keys

variable {D : OpsInput H F} {e : OpsRow H}

/-- The headers of an entry and their places. -/
theorem dataFrom_spec (hD : D.WellSized) (he : e ∈ D.opsTable) :
    (e.dataFrom D [] e.row.keys).map EmitDatum.hdr = hdrsAfter e.row e.ops ∧
      IsLaidOut D.toHeaderDecls e.row.initOffset (e.dataFrom D [] e.row.keys) := by
  obtain ⟨hr, hops⟩ := mem_pairs.mp (mem_pairs_of_mem_opsTable he)
  have h8 := initOffset_dvd hD hr
  obtain ⟨data, hdata, hmap, hlaid⟩ := emitData_spec hD.widths hops e.row.keys 0
    e.row.initOffset e.row.initOffset (by simp) h8 h8
  have hfrom : data = e.dataFrom D [] e.row.keys := by
    have heq := congrArg Prod.fst (rowData_eq he)
    rw [OpsInput.rowData, hdata] at heq
    exact heq
  rw [← hfrom]
  exact ⟨hmap, hlaid⟩

/-- The data of an entry. -/
theorem placed_dataFrom (hD : D.WellSized) (he : e ∈ D.opsTable) :
    Placed D.toHeaderDecls D.byteStackSize e.row.initOffset (e.parsedEnd D e.row.keys)
      (e.endAfter D e.row.keys) ((e.endAfter D e.row.keys : ℤ) - e.parsedEnd D e.row.keys)
      (e.dataFrom D [] e.row.keys) := by
  have h8 := initOffset_dvd hD (mem_pairs.mp (mem_pairs_of_mem_opsTable he)).1
  obtain ⟨hmap, hlaid⟩ := dataFrom_spec hD he
  refine ⟨hD.widths, hD.stack_lt, hD.stack, h8, dvd_parsedEnd hD he _,
    Nat.le_add_right _ _, hlaid, by rw [hmap]; rfl, by omega, fun d hd hmo => ?_⟩
  have hmem : d ∈ (D.rowData e.row e.ops).1 := by
    rw [rowData_eq he]
    exact hd
  obtain ⟨keys, h, keys', hkeys, -, rfl⟩ := (mem_rowData_moved he hmo).mp hmem
  exact ⟨Nat.le_add_right _ _, parsedEnd_add_width_le hkeys⟩

/-- The action an entry builds. -/
theorem calls_rowAction (he : e ∈ D.opsTable) : (D.rowAction e.row e.ops).calls =
    actionCallOrder D.toHeaderDecls D.byteStackSize (e.dataFrom D [] e.row.keys)
      ((e.endAfter D e.row.keys : ℤ) - e.parsedEnd D e.row.keys) (e.parsedEnd D e.row.keys) := by
  rw [OpsInput.rowAction, rowData_eq he]

/-- What holds of all headers of an entry that move, by their columns. -/
theorem forall_moved_iff (he : e ∈ D.opsTable) {Q : EmitDatum H → Prop} :
    (∀ d ∈ e.dataFrom D [] e.row.keys, d.moveOS ≠ 0 → Q d) ↔
      ∀ keys h rest, e.row.keys = keys ++ (h, true) :: rest → h ∉ e.ops.setInvalid →
        e.endAfter D keys ≠ e.parsedEnd D keys →
        Q ⟨e.parsedEnd D keys, (e.endAfter D keys : ℤ) - e.parsedEnd D keys, h⟩ := by
  have hmem : ∀ d, d ∈ e.dataFrom D [] e.row.keys ↔ d ∈ (D.rowData e.row e.ops).1 := by
    rw [rowData_eq he]
    exact fun _ => Iff.rfl
  constructor
  · intro hall keys h rest hkeys hh hne
    have hmo : (e.endAfter D keys : ℤ) - e.parsedEnd D keys ≠ 0 := by omega
    exact hall _ ((hmem _).mpr ((mem_rowData_moved he
      (d := ⟨e.parsedEnd D keys, (e.endAfter D keys : ℤ) - e.parsedEnd D keys, h⟩) hmo).mpr
      ⟨keys, h, rest, hkeys, hh, rfl⟩)) hmo
  · intro hall d hd hmo
    obtain ⟨keys, h, rest, hkeys, hh, rfl⟩ := (mem_rowData_moved he hmo).mp ((hmem d).mp hd)
    exact hall keys h rest hkeys hh fun heq => hmo (by dsimp only; omega)

/-- The runs of headers that move left, by their columns. -/
theorem runs_iff : (∀ m d m', e.dataFrom D [] e.row.keys = m ++ d :: m' → d.moveOS < 0 →
      moveBlockSize D.toHeaderDecls D.byteStackSize d ≠ 0 →
      d.target + D.totalWidth ((d :: m'.takeWhile EmitDatum.movesLeft).map EmitDatum.hdr) ≤
        d.currOS) ↔
    ∀ keys h rest, e.row.keys = keys ++ (h, true) :: rest → h ∉ e.ops.setInvalid →
      e.endAfter D keys < e.parsedEnd D keys → e.movedWidth D keys h ≠ 0 →
      e.endAfter D (keys ++ (h, true) :: rest.takeWhile fun c => !e.ops.inserts c) ≤
        e.parsedEnd D keys := by
  -- where the run of a header ends
  have hend : ∀ keys h rest, h ∉ e.ops.setInvalid → e.endAfter D keys < e.parsedEnd D keys →
      EmitDatum.target ⟨e.parsedEnd D keys, (e.endAfter D keys : ℤ) - e.parsedEnd D keys, h⟩ +
        D.totalWidth (((⟨e.parsedEnd D keys, (e.endAfter D keys : ℤ) - e.parsedEnd D keys, h⟩ :
          EmitDatum H) :: (e.dataFrom D (keys ++ [(h, true)]) rest).takeWhile
            EmitDatum.movesLeft).map EmitDatum.hdr) =
      e.endAfter D (keys ++ (h, true) :: rest.takeWhile fun c => !e.ops.inserts c) := by
    intro keys h rest hh hlt
    have hwidth : e.endAfter D (keys ++ [(h, true)]) = e.endAfter D keys + D.width h := by
      rw [endAfter_append_true, if_neg hh]
    have hparsed : e.parsedEnd D (keys ++ [(h, true)]) = e.parsedEnd D keys + D.width h := by
      rw [parsedEnd_append]
      rfl
    have htarget : EmitDatum.target
        ⟨e.parsedEnd D keys, (e.endAfter D keys : ℤ) - e.parsedEnd D keys, h⟩ =
        e.endAfter D keys := by
      rw [EmitDatum.target]
      dsimp only
      omega
    have hrun := endAfter_add_totalWidth (D := D) (e := e)
      (rest.takeWhile fun c => !e.ops.inserts c) (keys ++ [(h, true)])
    rw [List.append_assoc, List.singleton_append, hwidth] at hrun
    rw [htarget, takeWhile_dataFrom _ _ (by omega), List.map_cons, totalWidth_cons, ← hrun,
      Nat.add_assoc]
  rw [forall_split_dataFrom (Q := fun d m' => d.moveOS < 0 →
    moveBlockSize D.toHeaderDecls D.byteStackSize d ≠ 0 →
    d.target + D.totalWidth ((d :: m'.takeWhile EmitDatum.movesLeft).map EmitDatum.hdr) ≤
      d.currOS)]
  constructor
  · intro hall keys h rest hkeys hh hlt hsize
    have hle := hall keys (h, true) rest hkeys
      ⟨e.parsedEnd D keys, (e.endAfter D keys : ℤ) - e.parsedEnd D keys, h⟩
      (by rw [List.nil_append, OpsRow.datum, if_neg hh]; exact List.mem_singleton.mpr rfl)
      (by dsimp only; omega) (by rw [moveBlockSize_eq_movedWidth]; exact hsize)
    rw [List.nil_append, hend keys h rest hh hlt] at hle
    exact hle
  · rintro hall keys ⟨h, value⟩ rest hkeys d hd hleft hsize
    rw [List.nil_append] at hd ⊢
    cases value with
    | false =>
      rw [OpsRow.datum] at hd
      split at hd
      · rw [List.mem_singleton.mp hd] at hleft
        exact absurd hleft (Int.lt_irrefl 0)
      · exact absurd hd List.not_mem_nil
    | true =>
      rw [OpsRow.datum] at hd
      split at hd
      · exact absurd hd List.not_mem_nil
      rename_i hh
      rw [List.mem_singleton.mp hd] at hleft hsize ⊢
      dsimp only at hleft
      rw [moveBlockSize_eq_movedWidth] at hsize
      rw [hend keys h rest hh (by omega)]
      exact hall keys h rest hkeys hh (by omega) hsize

/-- **The condition on the calls of an entry, by its columns.** -/
theorem movesBack_iff (hD : D.WellSized) (he : e ∈ D.opsTable) :
    MovesBack D.toHeaderDecls D.byteStackSize (e.parsedEnd D e.row.keys)
      ((e.endAfter D e.row.keys : ℤ) - e.parsedEnd D e.row.keys) (e.dataFrom D [] e.row.keys) ↔
      TakesBack D e := by
  have hplaced := placed_dataFrom hD he
  have hright := forall_moved_iff he (Q := fun d => 0 < d.moveOS →
    moveBlockSize D.toHeaderDecls D.byteStackSize d = 0)
  have hinside := forall_moved_iff he (Q := fun d =>
    moveBlockSize D.toHeaderDecls D.byteStackSize d ≠ 0 →
      d.currOS + moveBlockSize D.toHeaderDecls D.byteStackSize d ≤ e.endAfter D e.row.keys)
  simp only [moveBlockSize_eq_movedWidth] at hright hinside
  constructor
  · intro hm
    obtain ⟨hnone, hruns⟩ := hplaced.apart_iff.mp ⟨hm.apart, hm.self⟩
    refine ⟨fun keys h rest hkeys hh hlt => ?_, runs_iff.mp hruns,
      fun hneg keys h rest hkeys hh hlt hsize => ?_, fun hpos => hm.grows (by omega),
      fun hneg => ?_⟩
    · exact hright.mp (fun d hd _ => hnone d hd) keys h rest hkeys hh (by omega) (by omega)
    · refine hinside.mp (fun d hd hmo hsize => ?_) keys h rest hkeys hh (by omega) hsize
      have hlast := hm.clear (by omega) d hd
        (d.currOS + moveBlockSize D.toHeaderDecls D.byteStackSize d - 1)
        ⟨hmo, by omega, by omega⟩
      omega
    · have hle := hm.shrinks (by omega)
      rw [rowResi]
      omega
  · intro ht
    have hnone : ∀ d ∈ e.dataFrom D [] e.row.keys, 0 < d.moveOS →
        moveBlockSize D.toHeaderDecls D.byteStackSize d = 0 := fun d hd hpos =>
      hright.mpr (fun keys h rest hkeys hh _ hlt => ht.right keys h rest hkeys hh (by omega)) d hd
        hpos.ne' hpos
    obtain ⟨hapart, hself⟩ := hplaced.apart_iff.mpr ⟨hnone, runs_iff.mpr ht.left⟩
    refine ⟨hapart, hself, fun hpos => ht.grows (by omega), fun hneg => ?_,
      fun hneg d hd p hp => ?_⟩
    · have hle := ht.shrinks (by omega)
      rw [rowResi] at hle
      omega
    · have hin := hinside.mpr (fun keys h rest hkeys hh hne hsize => by
        rcases Nat.lt_or_gt_of_ne hne with hlt | hgt
        · exact ht.inside (by omega) keys h rest hkeys hh hlt hsize
        · exact absurd (ht.right keys h rest hkeys hh hgt) hsize) d hd hp.1
      obtain ⟨-, hlow, hhigh⟩ := hp
      have hle := hin (by omega)
      omega

end Row

/-! ## The columns of a row -/

section Columns

variable [DecidableEq H]

/-- A row emits no header twice if there are no two calls for a header. -/
theorem nodup_hdrsAfter {D : DeparserInput H F} {r : EmitRow H} (hr : r ∈ D.emitTable)
    (hemits : D.emits.Nodup) (ops : HdrValidityOps H) : (hdrsAfter r ops).Nodup := by
  have hsub : (hdrsAfter r ops).Sublist ((ops.apply r.keys).map Prod.fst) :=
    List.filter_sublist.map _
  have hfst : (ops.apply r.keys).map Prod.fst = r.keys.map Prod.fst := by
    rw [HdrValidityOps.apply, List.map_map]
    rfl
  rw [hfst, map_fst_keys hr] at hsub
  exact hsub.nodup hemits

end Columns

/-! ## The theorem -/

section Theorem

variable [DecidableEq H]

/-- The entry whose action is declared under the name of an entry. -/
def ReconInput.declaredFor (D : ReconInput H F) (e : OpsRow H) : OpsRow H :=
  (D.opsTable.find? fun e' => e'.name = e.name).getD e

/-- **Which rows survive a cut.**  The place of the last emission of a header is not written again.
If the second part performs operations, what is emitted before the cut is written again at the end,
and is not part of what moves then.  If not, the moves of the action are taken back. -/
def ReconInput.Restorable (D : ReconInput H F) (woVOPs : Bool) : TableRow H → Prop
  | .emit r => LastStands D.toHeaderDecls (rowEmissions r)
  | .ops e =>
      let e' := D.declaredFor e
      if woVOPs then LastStands D.toHeaderDecls (rowEmissions e.row) ∧
        ∀ x ∈ rowEmissions e.row, ∀ q, x.2 ≤ q → q < x.2 + D.width x.1 →
          Rewritten D.byteStackSize e'.row.initOffset (e'.parsedEnd D.toOpsInput e'.row.keys)
            (e'.endAfter D.toOpsInput e'.row.keys)
            ((e'.endAfter D.toOpsInput e'.row.keys : ℤ) - e'.parsedEnd D.toOpsInput e'.row.keys) q
      else TakesBack D.toOpsInput e'

variable {D : ReconInput H F}

/-- The action of an entry is the one that another entry builds. -/
theorem declaredFor_spec {e : OpsRow H} (he : e ∈ D.opsTable) :
    D.declaredFor e ∈ D.opsTable ∧ D.deparser (.ops e) =
      (D.rowAction (D.declaredFor e).row (D.declaredFor e).ops).calls := by
  have htable : D.opsTable = D.pairs.map fun p => ⟨p.1, p.2, (D.rowAction p.1 p.2).name⟩ := by
    rw [OpsInput.opsTable] at he ⊢
    split at he
    · exact absurd he List.not_mem_nil
    · rename_i hne
      rw [if_neg hne]
  obtain ⟨p, hp⟩ : ∃ p, D.pairs.find? (fun p => (D.rowAction p.1 p.2).name = e.name) = some p := by
    rw [← Option.isSome_iff_exists, List.find?_isSome]
    rw [htable] at he
    obtain ⟨p, hp, rfl⟩ := List.mem_map.mp he
    exact ⟨p, hp, decide_eq_true rfl⟩
  have hdeclared : D.declaredFor e = ⟨p.1, p.2, (D.rowAction p.1 p.2).name⟩ := by
    rw [ReconInput.declaredFor, htable, List.find?_map]
    have hfind : D.pairs.find? ((fun e' : OpsRow H => decide (e'.name = e.name)) ∘
        fun p => ⟨p.1, p.2, (D.rowAction p.1 p.2).name⟩) = some p := hp
    rw [hfind]
    rfl
  rw [hdeclared]
  refine ⟨?_, ?_⟩
  · rw [htable]
    exact List.mem_map_of_mem (List.mem_of_find?_eq_some hp)
  · rw [ReconInput.deparser, findAction_eq, hp]
    rfl

theorem mem_opsTable_of_mem_table {e : OpsRow H} (ht : TableRow.ops e ∈ D.table) :
    e ∈ D.opsTable := by
  rw [ReconInput.table] at ht
  split at ht
  · obtain ⟨r, -, heq⟩ := List.mem_map.mp ht
    cases heq
  · obtain ⟨e', he', heq⟩ := List.mem_map.mp ht
    rw [← TableRow.ops.inj heq]
    exact he'

variable [DecidableEq F]

/-- **Exactly which rows are parsed again without a loss.**  That the condition is needed holds if
there are no two emit calls for one header. -/
theorem lossless_iff_restorable (D : ReconInput H F) (hD : D.toOpsInput.WellSized)
    (woVOPs : Bool) {t : TableRow H} (ht : t ∈ D.table) :
    (D.Restorable woVOPs t → D.Lossless woVOPs t) ∧
      (D.emits.Nodup → D.Lossless woVOPs t → D.Restorable woVOPs t) := by
  have hcalls : D.Lossless woVOPs t ↔
      LosslessCalls D.toHeaderDecls (D.getDeparser woVOPs t) (D.deparser t) := Iff.rfl
  rw [hcalls]
  cases t with
  | emit r =>
    have hdeparser : D.getDeparser woVOPs (.emit r) = emissionCalls (rowEmissions r) := by
      cases woVOPs <;> rfl
    have hiff := losslessCalls_emissionCalls_iff D.toHeaderDecls D.fields_nodup (rowEmissions r)
    rw [hdeparser]
    exact ⟨hiff.mpr, fun _ => hiff.mp⟩
  | ops e =>
    obtain ⟨hmem, hdeparser⟩ := declaredFor_spec (mem_opsTable_of_mem_table ht)
    have hplaced := placed_dataFrom hD hmem
    rw [calls_rowAction hmem] at hdeparser
    rw [hdeparser]
    cases woVOPs with
    | true =>
      have hmid : D.getDeparser true (.ops e) = emissionCalls (rowEmissions e.row) := rfl
      have hiff := hplaced.losslessCalls_emissionCalls_iff D.fields_nodup (rowEmissions e.row)
      rw [hmid]
      exact ⟨hiff.mpr, fun _ => hiff.mp⟩
    | false =>
      have hmid : D.getDeparser false (.ops e) = D.deparser (.ops e) := rfl
      rw [hmid, hdeparser]
      refine ⟨fun hrest => ?_, fun hemits hlossless => ?_⟩
      · exact hplaced.losslessCalls_of_movesBack D.fields_nodup ((movesBack_iff hD hmem).mpr hrest)
      · refine (movesBack_iff hD hmem).mp (hplaced.movesBack_of_losslessCalls D.fields_nodup ?_
          hlossless)
        rw [(dataFrom_spec hD hmem).1]
        exact nodup_hdrsAfter (mem_pairs.mp (mem_pairs_of_mem_opsTable hmem)).1 hemits _

end Theorem

/-! ## A header inserted in front of a parsed one -/

/-- Two headers of one byte, the first of which is inserted, on a stack of three bytes. -/
def insertInFront : ReconInput Bool Unit where
  fields _ := [((), 8)]
  xoredHeaderSets := []
  parsedHeaders := none
  initialOffsets := [0]
  emits := [false, true]
  xoredValidityOps := [⟨[false], []⟩]
  byteStackSize := 24
  fields_nodup _ := List.nodup_singleton _

theorem wellSized_insertInFront : insertInFront.toOpsInput.WellSized where
  widths _ := Nat.dvd_refl 8
  offsets := by decide
  stack := by decide
  stack_lt := by decide

/-- The second header is parsed. -/
def insertInFrontRow : OpsRow Bool :=
  let r : EmitRow Bool := ⟨none, [(false, false), (true, true)], 8, some (.emit true 0), 0⟩
  let ops : HdrValidityOps Bool := ⟨[false], []⟩
  ⟨r, ops, (insertInFront.rowAction r ops).name⟩

theorem insertInFrontRow_mem : TableRow.ops insertInFrontRow ∈ insertInFront.table :=
  List.mem_of_getElem? (i := 2) rfl

/-- If the second part inserts the header, the parsed one is emitted at its old place, and
nothing is lost. -/
theorem lossless_insertInFront : insertInFront.Lossless true (.ops insertInFrontRow) :=
  (lossless_iff_restorable insertInFront wellSized_insertInFront true insertInFrontRow_mem).1 (by
    have hrow : rowEmissions insertInFrontRow.row = [(true, 0)] := rfl
    have hdeclared : insertInFront.declaredFor insertInFrontRow = insertInFrontRow := rfl
    have hparsed : insertInFrontRow.parsedEnd insertInFront.toOpsInput
        insertInFrontRow.row.keys = 8 := rfl
    have hafter : insertInFrontRow.endAfter insertInFront.toOpsInput
        insertInFrontRow.row.keys = 16 := rfl
    refine ⟨fun l₁ h start l₂ hl _ x hx => ?_, fun x hx q hlow hhigh => ?_⟩
    · rw [hrow] at hl
      rcases l₁ with _ | ⟨a, l₁⟩
      · rw [← (List.cons.inj hl).2] at hx
        exact absurd hx List.not_mem_nil
      · simp at hl
    · rw [hrow, List.mem_singleton] at hx
      have hq : q < 8 := by
        rw [hx] at hhigh
        exact hhigh
      rw [hdeclared, hparsed, hafter, Rewritten]
      exact ⟨Or.inl ⟨Nat.zero_le q, by omega⟩, by omega⟩)

/-- If the first part inserts it, its inverse moves the byte behind the headers to the place of
the parsed one before that is read. -/
theorem not_lossless_insertInFront :
    TableRow.ops insertInFrontRow ∈ insertInFront.table ∧
      insertInFront.getDeparser false (.ops insertInFrontRow) =
        [.move 8 8 8, .move 0 8 8, .emit true 8, .emit false 0] ∧
      ¬ insertInFront.Lossless false (.ops insertInFrontRow) := by
  have hcalls : insertInFront.getDeparser false (.ops insertInFrontRow) =
      [.move 8 8 8, .move 0 8 8, .emit true 8, .emit false 0] := rfl
  refine ⟨List.mem_of_getElem? (i := 2) rfl, hcalls, fun hlossless => ?_⟩
  have hvals := (hlossless (fun _ _ _ => true) (fun _ _ _ => true) (fun _ _ => false)
    fun _ _ => rfl).1 true 8 (by rw [hcalls]; decide) ((), 8) List.mem_cons_self
  rw [ReconInput.getParser, hcalls] at hvals
  revert hvals
  decide

end Partitioning
end MicroP4
