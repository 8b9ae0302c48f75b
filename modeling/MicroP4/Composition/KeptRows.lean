import MicroP4.Deparser.EmitLayout
import MicroP4.Deparser.ValidityOps
import MicroP4.Parsing.Unroll

/-!
# The rows a packet can hit

The table of a deparser is looked up with the offset that the parser has saved and with the
validity flags.  The pruning takes rows away, so a packet can be without one: then the table
misses, and the deparser does nothing.  A row is hit exactly if the offset is one that the
deparser is converted for and the pruning keeps the combination of the valid headers
(`exists_hit_iff`).
-/

namespace MicroP4
namespace Composition

open Parsing Deparser

variable {H F : Type} [DecidableEq H]

/-! ## Keys -/

/-- What a store has for the keys of the deparser: the value in the column of the offset, the
validity flags, and the flags of the operations on headers. -/
structure DeparserKeys (H : Type) where
  offset : Value
  valid : H → Value
  op : H × Bool → Bool

/-- Whether a header is valid. -/
def DeparserKeys.isValid (k : DeparserKeys H) (h : H) : Bool := k.valid h = .flag true

/-- A row of the emit table is hit. -/
def EmitRow.hit (k : DeparserKeys H) (r : EmitRow H) : Bool :=
  r.keyOffset.all (fun os => k.offset = .num os) && r.keys.all fun c => k.valid c.1 = .flag c.2

/-- A row of the multiplied table is hit. -/
def OpsRow.hit (names : List (H × Bool)) (k : DeparserKeys H) (e : OpsRow H) : Bool :=
  EmitRow.hit k e.row && names.map k.op = hdrValidityOpKeyValue names e.ops

/-- The pruning keeps the combination of these headers. -/
structure KeepsRow (D : OpsInput H F) (l : List H) : Prop where
  xored : ∀ X ∈ D.xoredHeaderSets, (l.filter fun h => X.contains h).length ≤ 1
  parsed : ∀ h ∈ l, D.isParsableHeader h = true

/-- What a deparser that is entered at other offsets than `0` alone has a row for: one of its
offsets, flags, and headers that the pruning keeps together. -/
structure HasRow (D : OpsInput H F) (k : DeparserKeys H) : Prop where
  offset : ∃ o ∈ D.initialOffsets, k.offset = .num o
  flags : ∀ h ∈ D.emits, ∃ b, k.valid h = .flag b
  keeps : KeepsRow D (D.emits.filter k.isValid)

variable {D : OpsInput H F} {k : DeparserKeys H} {r : EmitRow H} {h : H}

/-! ## What a row that is hit is about -/

/-- The headers of a row that is hit are those that are valid. -/
theorem validHdrs_of_hit (hr : r ∈ D.emitTable) (hhit : EmitRow.hit k r = true) :
    validHdrs r.keys = D.emits.filter k.isValid := by
  rw [← map_fst_keys hr, validHdrs, List.filter_map]
  congr 1
  refine List.filter_congr fun c hc => ?_
  have hkeys := (Bool.and_eq_true _ _ ▸ hhit).2
  have hc' := of_decide_eq_true (List.all_eq_true.mp hkeys c hc)
  rw [Function.comp_apply, DeparserKeys.isValid, hc']
  cases c.2 <;> rfl

/-- The flags of the headers are set or not. -/
theorem flags_of_hit (hr : r ∈ D.emitTable) (hhit : EmitRow.hit k r = true) :
    ∀ h ∈ D.emits, ∃ b, k.valid h = .flag b := by
  intro h hh
  rw [← map_fst_keys hr] at hh
  obtain ⟨c, hc, rfl⟩ := List.mem_map.mp hh
  have hkeys := (Bool.and_eq_true _ _ ▸ hhit).2
  exact ⟨c.2, of_decide_eq_true (List.all_eq_true.mp hkeys c hc)⟩

/-- The emit calls leave the first column as it is. -/
theorem exists_keyOffset_foldl (hs : List H) {rows : List (EmitRow H)}
    (hr : r ∈ hs.foldl D.extendEmitTable rows) : ∃ r₀ ∈ rows, r.keyOffset = r₀.keyOffset := by
  induction hs generalizing rows with
  | nil => exact ⟨r, hr, rfl⟩
  | cons h hs ih =>
      obtain ⟨r₁, hr₁, hkey⟩ := ih hr
      obtain ⟨r₀, hr₀, rfl | ⟨s, e, rfl⟩⟩ := exists_of_mem_extendEmitTable hr₁
      · exact ⟨r₀, hr₀, hkey⟩
      · exact ⟨r₀, hr₀, hkey⟩

/-! ## What the pruning keeps -/

theorem KeepsRow.extends {l : List H} (hl : KeepsRow D l) {keys : List (H × Bool)}
    (hsub : (validHdrs (keys ++ [(h, true)])).Sublist l) : D.extends h keys = true := by
  have hmem : h ∈ l := hsub.subset (by simp)
  unfold DeparserInput.extends DeparserInput.emitsXORedHdrs
  rw [hl.parsed h hmem, Bool.and_true, Bool.not_eq_true', List.any_eq_false]
  intro X hX
  have hle := (hsub.filter fun h => X.contains h).length_le
  have hone := hl.xored X hX
  simp only [decide_eq_true_eq, gt_iff_lt, not_lt]
  omega

/-- A row with one more header is made if the pruning keeps its headers together. -/
theorem keepsRow_of_extends {keys : List (H × Bool)} (hkeys : KeepsRow D (validHdrs keys))
    (hext : D.extends h keys = true) : KeepsRow D (validHdrs (keys ++ [(h, true)])) := by
  obtain ⟨hxored, hparsed⟩ := Bool.and_eq_true _ _ ▸ hext
  rw [Bool.not_eq_true', DeparserInput.emitsXORedHdrs, List.any_eq_false] at hxored
  refine ⟨fun X hX => ?_, fun h' hh' => ?_⟩
  · have hone := hxored X hX
    rw [decide_eq_true_eq] at hone
    exact Nat.not_lt.mp hone
  · rw [validHdrs_append_true] at hh'
    rcases List.mem_append.mp hh' with hh' | hh'
    · exact hkeys.parsed h' hh'
    · rw [List.mem_singleton.mp hh']
      exact hparsed

/-- No row is made for headers that the pruning does not keep together. -/
theorem keepsRow_foldl (hs : List H) {rows : List (EmitRow H)}
    (hrows : ∀ r ∈ rows, KeepsRow D (validHdrs r.keys)) :
    ∀ r ∈ hs.foldl D.extendEmitTable rows, KeepsRow D (validHdrs r.keys) := by
  induction hs generalizing rows with
  | nil => exact hrows
  | cons h hs ih =>
      refine ih fun r hr => ?_
      rcases List.mem_append.mp hr with hr | hr
      · obtain ⟨r₀, hr₀, rfl⟩ := List.mem_map.mp hr
        rw [EmitRow.extendFalse, validHdrs_append_false]
        exact hrows r₀ hr₀
      · obtain ⟨l, r₀, l', rfl, hext, rfl⟩ := mem_extendRows.mp hr
        exact keepsRow_of_extends
          (hrows r₀ (List.mem_append_right l List.mem_cons_self)) hext

/-! ## A row is hit -/

omit [DecidableEq H] in
theorem hit_extendFalse :
    EmitRow.hit k (r.extendFalse h) = (EmitRow.hit k r && decide (k.valid h = .flag false)) := by
  simp [EmitRow.hit, EmitRow.extendFalse, Bool.and_assoc]

omit [DecidableEq H] in
theorem hit_extendTrue (s e : ℕ) :
    EmitRow.hit k (r.extendTrue h s e) = (EmitRow.hit k r && decide (k.valid h = .flag true)) := by
  simp [EmitRow.hit, EmitRow.extendTrue, Bool.and_assoc]

theorem exists_mem_extendRows (hext : D.extends h r.keys = true) {rows : List (EmitRow H)}
    {declared : List ℕ} (hr : r ∈ rows) :
    ∃ s e, r.extendTrue h s e ∈ D.extendRows h declared rows := by
  obtain ⟨l, l', rfl⟩ := List.append_of_mem hr
  exact ⟨_, _, mem_extendRows.mpr ⟨l, r, l', rfl, hext, rfl⟩⟩

/-- Every emit call keeps a row that is hit. -/
theorem exists_hit_foldl {hs : List H} (hflags : ∀ h ∈ hs, ∃ b, k.valid h = .flag b) :
    ∀ {l : List H} {rows : List (EmitRow H)} {r : EmitRow H}, r ∈ rows →
      EmitRow.hit k r = true → validHdrs r.keys = l.filter k.isValid →
      KeepsRow D ((l ++ hs).filter k.isValid) →
      ∃ r' ∈ hs.foldl D.extendEmitTable rows, EmitRow.hit k r' = true := by
  induction hs with
  | nil => exact fun hr hhit _ _ => ⟨_, hr, hhit⟩
  | cons h hs ih =>
      intro l rows r hr hhit hkeys hkeep
      obtain ⟨b, hb⟩ := hflags h List.mem_cons_self
      have ih' := fun r => @ih (fun h' hh' => hflags h' (List.mem_cons_of_mem _ hh')) (l ++ [h])
        (D.extendEmitTable rows h) r
      rw [List.append_assoc, List.singleton_append] at ih'
      cases b with
      | false =>
          refine ih' (r.extendFalse h) ?_ ?_ ?_ hkeep
          · exact List.mem_append_left _ (List.mem_map_of_mem hr)
          · rw [hit_extendFalse, hhit, hb]
            rfl
          · have hnot : k.isValid h = false := by simp [DeparserKeys.isValid, hb]
            rw [EmitRow.extendFalse, validHdrs_append_false, hkeys, List.filter_append]
            simp [hnot]
      | true =>
          have hvalid : k.isValid h = true := by simp [DeparserKeys.isValid, hb]
          have hnew : validHdrs (r.keys ++ [(h, true)]) = (l ++ [h]).filter k.isValid := by
            rw [validHdrs_append_true, hkeys, List.filter_append]
            simp [hvalid]
          have hext : D.extends h r.keys = true := by
            refine hkeep.extends ?_
            rw [hnew]
            exact ((List.sublist_append_left [h] hs).append_left l).filter _
          obtain ⟨s, e, hmem⟩ : ∃ s e, r.extendTrue h s e ∈ D.extendRows h [] rows :=
            exists_mem_extendRows hext hr
          refine ih' (r.extendTrue h s e) (List.mem_append_right _ hmem) ?_ hnew hkeep
          rw [hit_extendTrue, hhit, hb]
          rfl

/-- **A row is hit** exactly if there is one for the offset, and the pruning keeps the headers
that are valid. -/
theorem exists_hit_iff (hoff : D.initialOffsets ≠ [0]) :
    (∃ r ∈ D.emitTable, EmitRow.hit k r = true) ↔ HasRow D k := by
  have htable : D.emitTable = D.emits.foldl D.extendEmitTable D.initTableWithOffsetEntries := by
    rw [DeparserInput.emitTable, if_neg hoff]
  constructor
  · rintro ⟨r, hr, hhit⟩
    refine ⟨?_, flags_of_hit hr hhit, ?_⟩
    · -- the first column has one of the offsets
      obtain ⟨r₀, hr₀, hinit⟩ : ∃ r₀ ∈ D.initTableWithOffsetEntries,
          r.keyOffset = r₀.keyOffset := by
        rw [htable] at hr
        exact exists_keyOffset_foldl D.emits hr
      obtain ⟨os, hos, rfl⟩ := List.mem_map.mp hr₀
      have hkey := (Bool.and_eq_true _ _ ▸ hhit).1
      rw [hinit, Option.all_some, decide_eq_true_eq] at hkey
      exact ⟨os, hos, hkey⟩
    · rw [← validHdrs_of_hit hr hhit]
      rw [htable] at hr
      refine keepsRow_foldl D.emits (fun r hr => ?_) r hr
      obtain ⟨os, -, rfl⟩ := List.mem_map.mp hr
      exact ⟨fun _ _ => Nat.zero_le 1, fun _ hh => absurd hh List.not_mem_nil⟩
  · rintro ⟨⟨o, ho, hk⟩, hflags, hkeep⟩
    rw [htable]
    refine exists_hit_foldl (l := []) hflags (List.mem_map_of_mem ho) ?_ rfl hkeep
    simp [EmitRow.hit, hk]

end Composition
end MicroP4
