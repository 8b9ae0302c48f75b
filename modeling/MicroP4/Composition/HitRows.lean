import MicroP4.Composition.OffsetRestoration
import MicroP4.Deparser.OpsLayout

/-!
# What the deparser writes

The emit table is looked up with the offset that the parser has saved and with the validity
flags.  A row is hit if the pruning has kept the combination of headers.  If the table is laid
out correctly, the deparser then writes the valid headers back to back from that offset on, in
the order of the emit calls (`bitAt_deparse`).
-/

namespace MicroP4
namespace Composition

open BitString Parsing Deparser

variable {H F : Type} [DecidableEq H]

/-- The converted deparser: the action of the row that is hit, or `NoAction`. -/
def deparse (D : OpsInput H F) (k : DeparserKeys H) (vals : FieldValues H F) (st : ℕ → Word) :
    ℕ → Word :=
  if hdrOpKeyNames D.xoredValidityOps = [] then
    match (D.emitTable.find? (EmitRow.hit k)).bind Deparser.EmitRow.action with
    | none => st
    | some a => a.exec D.toHeaderDecls vals st
  else
    match (D.opsTable.find? (OpsRow.hit (hdrOpKeyNames D.xoredValidityOps) k)).bind
        fun e => D.findAction e.name with
    | none => st
    | some a => execCalls D.toHeaderDecls vals a.calls st

section Rows

variable {D : OpsInput H F} {k : DeparserKeys H} {r : EmitRow H} {h : H}

/-! ## A row is hit -/

omit [DecidableEq H] in
/-- The table of a deparser that is entered at offset `0` alone starts with a row for either
value of the flag of its first header. -/
theorem exists_hit_createEmitTable {b : Bool} (hb : k.valid h = .flag b) :
    ∃ r ∈ D.createEmitTable h, EmitRow.hit k r = true ∧
      validHdrs r.keys = [h].filter k.isValid := by
  cases b with
  | false =>
      refine ⟨_, List.mem_cons_self, ?_, ?_⟩
      · simp [EmitRow.hit, hb]
      · simp [validHdrs, DeparserKeys.isValid, hb]
  | true =>
      refine ⟨_, List.mem_cons_of_mem _ List.mem_cons_self, ?_, ?_⟩
      · simp [EmitRow.hit, hb]
      · simp [validHdrs, DeparserKeys.isValid, hb]

/-- **A row is hit**, if the offset is one the deparser is converted for and the pruning keeps
the headers that are valid. -/
theorem exists_hit {o : ℕ} (ho : o ∈ D.initialOffsets)
    (hoff : D.initialOffsets ≠ [0] → k.offset = .num o)
    (hflags : ∀ h ∈ D.emits, ∃ b, k.valid h = .flag b)
    (hkeep : KeepsRow D (D.emits.filter k.isValid)) (hne : D.initialOffsets = [0] → D.emits ≠ []) :
    ∃ r ∈ D.emitTable, EmitRow.hit k r = true := by
  rw [DeparserInput.emitTable]
  by_cases hzero : D.initialOffsets = [0]
  · rw [if_pos hzero]
    cases hemits : D.emits with
    | nil => exact absurd hemits (hne hzero)
    | cons h hs =>
        rw [hemits] at hflags hkeep
        obtain ⟨b, hb⟩ := hflags h List.mem_cons_self
        obtain ⟨r, hr, hhit, hkeys⟩ := exists_hit_createEmitTable (D := D) hb
        exact exists_hit_foldl (fun h' hh' => hflags h' (List.mem_cons_of_mem _ hh')) hr hhit hkeys
          hkeep
  · have hrow := (exists_hit_iff hzero).mpr ⟨⟨o, ho, hoff hzero⟩, hflags, hkeep⟩
    rw [DeparserInput.emitTable, if_neg hzero] at hrow
    rw [if_neg hzero]
    exact hrow

/-- The initial offset of a row that is hit is the one of the package. -/
theorem init_of_hit {o : ℕ} (ho : o ∈ D.initialOffsets)
    (hoff : D.initialOffsets ≠ [0] → k.offset = .num o) (hr : r ∈ D.emitTable)
    (hhit : EmitRow.hit k r = true) : r.init = o := by
  rw [DeparserInput.emitTable] at hr
  by_cases hzero : D.initialOffsets = [0]
  · rw [hzero, List.mem_singleton] at ho
    rw [if_pos hzero] at hr
    cases hemits : D.emits with
    | nil => exact absurd (hemits ▸ hr) List.not_mem_nil
    | cons h hs =>
        rw [hemits] at hr
        obtain ⟨r₀, hr₀, hinit, -⟩ := exists_of_mem_foldl_extendEmitTable hs hr
        simp only [DeparserInput.createEmitTable, List.mem_cons, List.not_mem_nil, or_false] at hr₀
        rw [hinit, ho]
        rcases hr₀ with rfl | rfl <;> rfl
  · have hreset : Resets r := resets_emitTable hzero r (by
      rw [DeparserInput.emitTable]
      exact hr)
    obtain ⟨os, a, hkey, -⟩ := hreset
    unfold EmitRow.hit at hhit
    rw [hkey, Option.all_some, Bool.and_eq_true, decide_eq_true_eq, hoff hzero] at hhit
    rw [EmitRow.init, hkey, Option.getD_some]
    exact (Value.num.inj hhit.1).symm

/-! ## Rows that are laid out correctly -/

/-- The rows in front of the emit calls that extend them, and their combinations. -/
theorem exists_start (D : OpsInput H F) : ∃ rows,
    D.emitTable = D.start.2.foldl D.extendEmitTable rows ∧
    rows.map Deparser.EmitRow.combo = D.start.1 ∧
    ∀ r ∈ rows, r.emitOffset = r.combo.endOffset D.toDeparserInput ∧ r.Inv D.toDeparserInput := by
  rw [DeparserInput.emitTable, DeparserInput.start]
  by_cases hoff : D.initialOffsets = [0]
  · rw [if_pos hoff, if_pos hoff]
    cases D.emits with
    | nil => exact ⟨[], rfl, rfl, fun r hr => absurd hr List.not_mem_nil⟩
    | cons h hs => exact ⟨_, rfl, rfl, inv_createEmitTable D.toDeparserInput h⟩
  · rw [if_neg hoff, if_neg hoff]
    refine ⟨_, rfl, ?_, inv_initTableWithOffsetEntries D.toDeparserInput⟩
    rw [DeparserInput.initTableWithOffsetEntries, List.map_map]
    rfl

theorem inv_foldl (hD : D.WholeBytes) (hs : List H) : ∀ {rows : List (EmitRow H)},
    (∀ r ∈ rows, r.Inv D.toDeparserInput) →
    ∀ r ∈ hs.foldl D.extendEmitTable rows, r.Inv D.toDeparserInput := by
  induction hs with
  | nil => exact fun hrows => hrows
  | cons h hs ih => exact fun hrows => ih (inv_extendEmitTable (hD h) hrows)

/-- The action of a row writes the headers of the row. -/
theorem bitAt_action (hD : D.WholeBytes) (hsep : D.Separated D.start.1 D.start.2)
    (hr : r ∈ D.emitTable) (vals : FieldValues H F) (st : ℕ → Word) :
    bitAt (match r.action with
      | none => st
      | some a => a.exec D.toHeaderDecls vals st) =
      writeBits r.init ((validHdrs r.keys).flatMap (D.hdrBits vals)) (bitAt st) := by
  obtain ⟨rows, htable, hcombos, hrows⟩ := exists_start D
  rw [htable] at hr
  rw [← hcombos] at hsep
  cases haction : r.action with
  | none =>
      rw [(inv_foldl hD _ (fun r hr => (hrows r hr).2) r hr).noAction haction]
      exact writeBits_nil.symm
  | some a =>
      exact (correct_foldl_iff hD _ rows fun r hr => (hrows r hr).2).mpr
        ⟨fun r hr => Or.inl (hrows r hr).1, hsep⟩ r hr a haction vals st

/-! ## The deparser -/

/-- What the deparser finds: an offset it is converted for, flags, and headers that the pruning
keeps together.  The offset does not matter if there is nothing to do. -/
structure Meets (D : OpsInput H F) (k : DeparserKeys H) (o : ℕ) : Prop where
  offset_mem : o ∈ D.initialOffsets
  offset : D.initialOffsets ≠ [0] →
    ¬ (D.emits = [] ∧ hdrOpKeyNames D.xoredValidityOps = []) → k.offset = .num o
  flags : ∀ h ∈ D.emits, ∃ b, k.valid h = .flag b
  keeps : KeepsRow D (D.emits.filter k.isValid)

/-- **The deparser writes the valid headers**, in the order of the emit calls and back to back,
from the offset on that the package was entered at. -/
theorem bitAt_deparse (hD : D.WholeBytes) (hnames : hdrOpKeyNames D.xoredValidityOps = [])
    (hsep : D.Separated D.start.1 D.start.2) {o : ℕ} (hk : Meets D k o) (vals : FieldValues H F)
    (st : ℕ → Word) :
    bitAt (deparse D k vals st) =
      writeBits o ((D.emits.filter k.isValid).flatMap (D.hdrBits vals)) (bitAt st) := by
  rw [deparse, if_pos hnames]
  have hoff : D.emits ≠ [] → D.initialOffsets ≠ [0] → k.offset = .num o := fun hne hzero =>
    hk.offset hzero fun h => hne h.1
  cases hfind : D.emitTable.find? (EmitRow.hit k) with
  | none =>
      -- only a table without emit calls has no row
      have hemits : D.emits = [] := by
        by_contra hne
        obtain ⟨r, hr, hhit⟩ := exists_hit hk.offset_mem (hoff hne) hk.flags hk.keeps fun _ => hne
        exact List.find?_eq_none.mp hfind r hr hhit
      rw [hemits]
      exact writeBits_nil.symm
  | some r =>
      have hr := List.mem_of_find?_eq_some hfind
      have hhit := List.find?_some hfind
      have hrow := bitAt_action hD hsep hr vals st
      rw [validHdrs_of_hit hr hhit] at hrow
      by_cases hemits : D.emits = []
      · rw [hemits] at hrow ⊢
        exact hrow.trans (writeBits_nil.trans writeBits_nil.symm)
      · rw [init_of_hit hk.offset_mem (hoff hemits) hr hhit] at hrow
        exact hrow

/-! ## Rows with operations -/

/-- No two rows with different initial offsets have an action of one name. -/
def SameInit (D : OpsInput H F) : Prop :=
  ∀ p ∈ D.pairs, ∀ p' ∈ D.pairs, D.nameOf p' = D.nameOf p → D.recordedInit p'.1 = p.1.init

/-- The operations of a record are those that the control has performed. -/
structure Performs (D : OpsInput H F) (k : DeparserKeys H) (ops : HdrValidityOps H) : Prop where
  recorded : ops ∈ D.xoredValidityOps
  op : (hdrOpKeyNames D.xoredValidityOps).map k.op =
    hdrValidityOpKeyValue (hdrOpKeyNames D.xoredValidityOps) ops

/-- Whether a header is valid after the operations of a record, as the rows read it: a header that
is set invalid is gone if it was parsed, and one that is set valid is there if it was not. -/
def DeparserKeys.isValidAfter (k : DeparserKeys H) (ops : HdrValidityOps H) (h : H) : Bool :=
  (ops.op h (k.isValid h)).getD (k.isValid h)

/-- Records with the same values in their columns do the same. -/
theorem op_eq_of_keyValue_eq {xored : List (HdrValidityOps H)} {ops ops' : HdrValidityOps H}
    (hops : ops ∈ xored) (hops' : ops' ∈ xored)
    (heq : hdrValidityOpKeyValue (hdrOpKeyNames xored) ops =
      hdrValidityOpKeyValue (hdrOpKeyNames xored) ops') (h : H) (value : Bool) :
    ops.op h value = ops'.op h value := by
  rw [← findOp_eq hops h value, heq, findOp_eq hops' h value]

/-- The action found under the name of a row does what the row is for. -/
theorem correct_of_sameInit (hD : D.WellSized) (hinit : SameInit D) {e : OpsRow H}
    (he : e ∈ D.opsTable) : e.Correct D := by
  rw [OpsInput.opsTable] at he
  split at he
  · exact absurd he List.not_mem_nil
  · obtain ⟨q, hq, rfl⟩ := List.mem_map.mp he
    obtain ⟨p, hmem, hp, haction, hhdrs, hparsed⟩ := exists_findAction hD hq
    have hname : D.nameOf p = D.nameOf q := by simpa using List.find?_some hp
    refine ⟨_, haction, fun vals st => ?_⟩
    have hshifts := shifts_rowAction hD hmem vals st
    rw [hinit q hq p hmem hname, hhdrs, hparsed] at hshifts
    exact hshifts

/-- The headers of a row that is hit, after the operations. -/
theorem hdrsAfter_of_hit (hr : r ∈ D.emitTable) (hhit : EmitRow.hit k r = true)
    (ops : HdrValidityOps H) : hdrsAfter r ops = D.emits.filter (k.isValidAfter ops) := by
  rw [← map_fst_keys hr, hdrsAfter, validHdrs, HdrValidityOps.apply, List.filter_map,
    List.filter_map, List.map_map]
  congr 1
  refine List.filter_congr fun c hc => ?_
  have hkeys := (Bool.and_eq_true _ _ ▸ hhit).2
  have hc' := of_decide_eq_true (List.all_eq_true.mp hkeys c hc)
  have hvalid : k.isValid c.1 = c.2 := by
    rw [DeparserKeys.isValid, hc']
    cases c.2 <;> rfl
  rw [Function.comp_apply, Function.comp_apply, DeparserKeys.isValidAfter, hvalid]

/-- **The deparser shifts the packet.**  It puts the headers that are valid after the operations
in the place of those that were parsed, and lets the rest of the packet follow. -/
theorem shifts_deparse (hD : D.WellSized) (hnames : hdrOpKeyNames D.xoredValidityOps ≠ [])
    (hinit : SameInit D) {o : ℕ} (hk : Meets D k o) {ops : HdrValidityOps H}
    (hops : Performs D k ops) (vals : FieldValues H F) (st : ℕ → Word) :
    Shifts D.byteStackSize o (o + D.totalWidth (D.emits.filter k.isValid))
      ((D.emits.filter (k.isValidAfter ops)).flatMap (D.hdrBits vals)) (bitAt st)
      (bitAt (deparse D k vals st)) := by
  have htable : D.opsTable = D.pairs.map fun p => ⟨p.1, p.2, (D.rowAction p.1 p.2).name⟩ := by
    rw [OpsInput.opsTable, if_neg fun h => hnames (List.isEmpty_iff.mp h)]
  have hoff : D.initialOffsets ≠ [0] → k.offset = .num o := fun hzero =>
    hk.offset hzero fun h => hnames h.2
  rw [deparse, if_neg hnames]
  cases hfind : D.opsTable.find? (OpsRow.hit (hdrOpKeyNames D.xoredValidityOps) k) with
  | none =>
      -- only a table without emit calls has no row
      have hemits : D.emits = [] := by
        by_contra hne
        obtain ⟨r, hr, hhit⟩ := exists_hit hk.offset_mem hoff hk.flags hk.keeps fun _ => hne
        have hmem : (⟨r, ops, (D.rowAction r ops).name⟩ : OpsRow H) ∈ D.opsTable := by
          rw [htable]
          exact List.mem_map_of_mem (a := (r, ops)) (mem_pairs.mpr ⟨hr, hops.recorded⟩)
        refine List.find?_eq_none.mp hfind _ hmem ?_
        rw [OpsRow.hit, hhit, hops.op, Bool.true_and]
        exact decide_eq_true rfl
      rw [hemits]
      refine fun p _ => ⟨fun _ => rfl, fun h₁ h₂ => absurd h₂ (Nat.not_lt.mpr h₁), fun h₁ _ => ?_⟩
      have hop : o ≤ p := h₁
      show bitAt st p = bitAt st (p - o + o)
      rw [Nat.sub_add_cancel hop]
  | some e =>
      have he := List.mem_of_find?_eq_some hfind
      obtain ⟨hhit, hop⟩ := Bool.and_eq_true _ _ ▸ List.find?_some hfind
      obtain ⟨q, hq, hqe⟩ := List.mem_map.mp (htable ▸ he)
      obtain ⟨hr, hops'⟩ : e.row ∈ D.emitTable ∧ e.ops ∈ D.xoredValidityOps := by
        rw [← hqe]
        exact mem_pairs.mp hq
      obtain ⟨a, ha, hshifts⟩ := correct_of_sameInit hD hinit he
      have hafter : k.isValidAfter ops = k.isValidAfter e.ops := by
        ext h
        rw [DeparserKeys.isValidAfter, DeparserKeys.isValidAfter,
          op_eq_of_keyValue_eq hops.recorded hops' (hops.op.symm.trans (of_decide_eq_true hop))]
      have hs := hshifts vals st
      rw [init_of_hit hk.offset_mem hoff hr hhit, validHdrs_of_hit hr hhit,
        hdrsAfter_of_hit hr hhit, ← hafter] at hs
      simp only [Option.bind_some, ha]
      exact hs

/-! ## Both tables -/

/-- The table of the deparser is laid out correctly. -/
def LaidOut (D : OpsInput H F) : Prop :=
  if hdrOpKeyNames D.xoredValidityOps = [] then D.Separated D.start.1 D.start.2 else SameInit D

/-- Headers in the place of headers of the same width. -/
theorem shifts_writeBits (bss o : ℕ) (l : List Bool) (s : Bits) :
    Shifts bss o (o + l.length) l s (writeBits o l s) := fun p _ =>
  ⟨fun hp => writeBits_of_lt hp, fun h₁ h₂ => writeBits_of_mem h₁ h₂, fun h₁ _ => by
    rw [writeBits_of_ge h₁, Nat.sub_add_cancel h₁]⟩

/-- Whichever table it is. -/
theorem shifts_deparse_of_laidOut (hD : D.WellSized) (hlaid : LaidOut D) {o : ℕ} (hk : Meets D k o)
    {ops : HdrValidityOps H}
    (hops : if hdrOpKeyNames D.xoredValidityOps = [] then ops.setValid = [] ∧ ops.setInvalid = []
      else Performs D k ops) (vals : FieldValues H F) (st : ℕ → Word) :
    Shifts D.byteStackSize o (o + D.totalWidth (D.emits.filter k.isValid))
      ((D.emits.filter (k.isValidAfter ops)).flatMap (D.hdrBits vals)) (bitAt st)
      (bitAt (deparse D k vals st)) := by
  by_cases hnames : hdrOpKeyNames D.xoredValidityOps = []
  · rw [LaidOut, if_pos hnames] at hlaid
    rw [if_pos hnames] at hops
    have hafter : k.isValidAfter ops = k.isValid := by
      ext h
      simp [DeparserKeys.isValidAfter, HdrValidityOps.op, hops.1, hops.2]
    rw [hafter, bitAt_deparse hD.widths hnames hlaid hk, ← D.length_flatMap_hdrBits vals]
    exact shifts_writeBits _ _ _ _
  · rw [LaidOut, if_neg hnames] at hlaid
    rw [if_neg hnames] at hops
    exact shifts_deparse hD hnames hlaid hk hops vals st

end Rows
end Composition
end MicroP4
