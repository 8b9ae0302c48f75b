import MicroP4.Deparser.OpsEffect

/-!
# When a row with header-validity operations does what it is for

The action built for a row and a record is right from the offset the row carries as its
initial one.  Two things can go wrong.

* `createEmitTable` stores the offset of its second row after `createP4Action` has
  advanced it, so with initial offset `0` alone every row whose first header is valid
  carries the width of that header as its initial offset (`recordedInit`).
* The name of an action does not contain the initial offset.  An action is declared only
  if no action of its name is, so a row may run the action of an earlier one that starts
  at another offset.

The two can even cancel.  `opsRow_correct_iff` gives the exact condition for a row: the
first row and record whose action has the same name must carry the initial offset of the
row, or the difference must be invisible, the row emitting nothing or standing behind the end of
the byte stack.

A record that has a header in both of its lists does not say which operation came last.  The
action is then compared with the deparser's reading of the record; where no header of the row is
in both lists, that is the reading of every order of the operations.
-/

namespace MicroP4
namespace Deparser

open BitString

variable {H F : Type} [DecidableEq H]

/-- The initial offset that a row with these columns carries. -/
def OpsInput.recordedInit (D : OpsInput H F) (r : EmitRow H) : ℕ :=
  if D.initialOffsets = [0] then
    match r.keys with
    | (h, true) :: _ => D.width h
    | _ => 0
  else r.init

/-- The headers a row emits after a record's operations, in emit order. -/
def hdrsAfter (r : EmitRow H) (ops : HdrValidityOps H) : List H := validHdrs (ops.apply r.keys)

/-- **A row with operations does what it is for.**  There is an action under its name, and
it leaves the bits before the initial offset of the row alone, writes the headers valid
after the operations from there on, and lets what stood behind the parsed headers follow, as far
as the byte stack reaches. -/
def OpsRow.Correct (D : OpsInput H F) (e : OpsRow H) : Prop :=
  ∃ a, D.findAction e.name = some a ∧ ∀ (vals : FieldValues H F) (st : ℕ → Word),
    Shifts D.byteStackSize e.row.init (e.row.init + D.totalWidth (validHdrs e.row.keys))
      ((hdrsAfter e.row e.ops).flatMap (D.hdrBits vals)) (bitAt st)
      (bitAt (execCalls D.toHeaderDecls vals a.calls st))

/-- The name `extendEntry` gives to the action of a row and a record, computed from the
initial offset the row carries. -/
def OpsInput.nameOf (D : OpsInput H F) (p : EmitRow H × HdrValidityOps H) : ActName H :=
  let names := hdrOpKeyNames D.xoredValidityOps
  let (data, total, _) := emitData D.toHeaderDecls names (hdrValidityOpKeyValue names p.2)
    p.1.keys 0 (D.recordedInit p.1)
  actName D.toHeaderDecls data total

/-! ## What rows carry -/

variable {D : OpsInput H F}

omit [DecidableEq H] in
theorem recordedInit_congr {r r' : EmitRow H} (hinit : r'.init = r.init) {l : List (H × Bool)}
    (hne : r.keys ≠ []) (hkeys : r'.keys = r.keys ++ l) :
    D.recordedInit r' = D.recordedInit r := by
  rw [OpsInput.recordedInit, OpsInput.recordedInit, hinit, hkeys]
  rcases hk : r.keys with _ | ⟨a, k⟩
  · exact absurd hk hne
  · obtain ⟨h, b⟩ := a
    cases b <;> rfl

/-- A row of a table made from rows `rows` comes from one of them. -/
theorem exists_of_mem_foldl_extendEmitTable {r' : EmitRow H} : ∀ (hs : List H)
    {rows : List (EmitRow H)}, r' ∈ hs.foldl D.extendEmitTable rows →
    ∃ r ∈ rows, r'.init = r.init ∧ r'.initOffset = r.initOffset ∧ ∃ l, r'.keys = r.keys ++ l
  | [], rows, h => ⟨r', h, rfl, rfl, [], by simp⟩
  | h :: hs, rows, hr' => by
      obtain ⟨r, hr, hinit, hoff, l, hkeys⟩ := exists_of_mem_foldl_extendEmitTable hs hr'
      obtain ⟨r₀, hr₀, rfl | ⟨s, e, rfl⟩⟩ := exists_of_mem_extendEmitTable hr
      · exact ⟨r₀, hr₀, hinit, hoff, (h, false) :: l, by rw [hkeys]; simp [EmitRow.extendFalse]⟩
      · exact ⟨r₀, hr₀, hinit, hoff, (h, true) :: l, by rw [hkeys]; simp [EmitRow.extendTrue]⟩

/-- **Every row carries `recordedInit`.** -/
theorem initOffset_eq {r : EmitRow H} (hr : r ∈ D.emitTable) :
    r.initOffset = D.recordedInit r := by
  rw [DeparserInput.emitTable] at hr
  by_cases hoff : D.initialOffsets = [0]
  · rw [if_pos hoff] at hr
    rcases hemits : D.emits with _ | ⟨h, hs⟩
    · rw [hemits] at hr
      simp at hr
    · rw [hemits] at hr
      obtain ⟨r₀, hr₀, hinit, hio, l, hkeys⟩ := exists_of_mem_foldl_extendEmitTable hs hr
      have hrow : r₀.initOffset = D.recordedInit r₀ ∧ r₀.keys ≠ [] := by
        simp only [DeparserInput.createEmitTable, DeparserInput.createP4Action, List.find?_nil,
          Nat.zero_add, List.mem_cons, List.not_mem_nil, or_false] at hr₀
        rcases hr₀ with rfl | rfl
        · simp [OpsInput.recordedInit, hoff]
        · simp [OpsInput.recordedInit, hoff]
      rw [hio, recordedInit_congr hinit hrow.2 hkeys]
      exact hrow.1
  · rw [if_neg hoff] at hr
    obtain ⟨r₀, hr₀, hinit, hio, -⟩ := exists_of_mem_foldl_extendEmitTable _ hr
    obtain ⟨os, hos, rfl⟩ := List.mem_map.1 hr₀
    rw [OpsInput.recordedInit, if_neg hoff, hinit, hio]
    rfl

/-- The initial offset that a row carries is a number of whole bytes. -/
theorem initOffset_dvd (hD : D.WellSized) {r : EmitRow H} (hr : r ∈ D.emitTable) :
    8 ∣ r.initOffset := by
  rw [DeparserInput.emitTable] at hr
  by_cases hoff : D.initialOffsets = [0]
  · rw [if_pos hoff] at hr
    rcases hemits : D.emits with _ | ⟨h, hs⟩
    · rw [hemits] at hr
      simp at hr
    · rw [hemits] at hr
      obtain ⟨r₀, hr₀, -, hio, -⟩ := exists_of_mem_foldl_extendEmitTable hs hr
      have hw : 8 ∣ D.width h := hD.widths h
      simp only [DeparserInput.createEmitTable, DeparserInput.createP4Action, List.find?_nil,
        Nat.zero_add, List.mem_cons, List.not_mem_nil, or_false] at hr₀
      rcases hr₀ with rfl | rfl
      · rw [hio]
        exact Nat.dvd_zero 8
      · rw [hio]
        exact hw
  · rw [if_neg hoff] at hr
    obtain ⟨r₀, hr₀, -, hio, -⟩ := exists_of_mem_foldl_extendEmitTable _ hr
    obtain ⟨os, hos, rfl⟩ := List.mem_map.1 hr₀
    rw [hio]
    exact hD.offsets os hos

theorem name_rowAction {p : EmitRow H × HdrValidityOps H} (hp : p.1 ∈ D.emitTable) :
    (D.rowAction p.1 p.2).name = D.nameOf p := by
  rw [OpsInput.rowAction, OpsInput.nameOf, OpsInput.rowData, initOffset_eq hp]

/-! ## Finding an action -/

omit [DecidableEq H] in
theorem find?_append_of_any {α : Type} {p : α → Bool} {l : List α} (h : l.any p = true)
    (l' : List α) : (l ++ l').find? p = l.find? p := by
  rw [List.find?_append]
  rcases hf : l.find? p with _ | a
  · rw [List.find?_eq_none] at hf
    rw [List.any_eq_true] at h
    obtain ⟨a, ha, hpa⟩ := h
    exact absurd hpa (hf a ha)
  · rfl

/-- Declaring actions once does not change which action is found. -/
theorem find?_foldl_declareAction (name : ActName H) : ∀ (l decls : List (OpsAction H)),
    (l.foldl declareAction decls).find? (fun a => a.name = name) =
      (decls ++ l).find? fun a => a.name = name
  | [], decls => by simp
  | a :: l, decls => by
      rw [List.foldl_cons, find?_foldl_declareAction name l, declareAction]
      split
      · rename_i hany
        by_cases ha : a.name = name
        · have hany' : decls.any (fun b => decide (b.name = name)) = true := by
            rw [← ha]
            exact hany
          rw [find?_append_of_any hany', find?_append_of_any hany']
        · rw [List.find?_append, List.find?_append, List.find?_cons]
          simp [ha]
      · rw [List.append_assoc]
        rfl

theorem findAction_eq (name : ActName H) :
    D.findAction name =
      (D.pairs.find? fun p => (D.rowAction p.1 p.2).name = name).map fun p =>
        D.rowAction p.1 p.2 := by
  have hfold : D.actionDecls = (D.pairs.map fun p => D.rowAction p.1 p.2).foldl
      declareAction [] := by
    rw [OpsInput.actionDecls, List.foldl_map]
  rw [OpsInput.findAction, hfold, find?_foldl_declareAction, List.nil_append, List.find?_map]
  rfl

theorem mem_pairs {p : EmitRow H × HdrValidityOps H} :
    p ∈ D.pairs ↔ p.1 ∈ D.emitTable ∧ p.2 ∈ D.xoredValidityOps := by
  rw [OpsInput.pairs, List.mem_flatMap]
  constructor
  · rintro ⟨ops, hops, hp⟩
    obtain ⟨r, hr, rfl⟩ := List.mem_map.1 hp
    exact ⟨hr, hops⟩
  · rintro ⟨hr, hops⟩
    exact ⟨p.2, hops, List.mem_map.2 ⟨p.1, hr, rfl⟩⟩

/-! ## Names -/

/-- The action of a row and a record, spelled out. -/
theorem rowAction_eq (hD : D.WellSized) {p : EmitRow H × HdrValidityOps H} (hp : p ∈ D.pairs) :
    ∃ data, D.rowAction p.1 p.2 = ⟨actName D.toHeaderDecls data
        ((D.totalWidth (hdrsAfter p.1 p.2) : ℤ) - D.totalWidth (validHdrs p.1.keys)),
        actionCallOrder D.toHeaderDecls D.byteStackSize data
          ((D.totalWidth (hdrsAfter p.1 p.2) : ℤ) - D.totalWidth (validHdrs p.1.keys))
          (p.1.initOffset + D.totalWidth (validHdrs p.1.keys))⟩ ∧
      data.map EmitDatum.hdr = hdrsAfter p.1 p.2 ∧
      IsLaidOut D.toHeaderDecls p.1.initOffset data := by
  obtain ⟨hr, hops⟩ := mem_pairs.1 hp
  have h8 := initOffset_dvd hD hr
  obtain ⟨data, heq, hmap, hlaid⟩ := emitData_spec hD.widths hops p.1.keys 0
    p.1.initOffset p.1.initOffset (by simp) h8 h8
  refine ⟨data, ?_, hmap, hlaid⟩
  rw [OpsInput.rowAction, OpsInput.rowData]
  simp only [heq, Int.zero_add]
  rfl

/-- The name of a row's action fixes the headers it emits and the total change. -/
theorem name_rowAction_inj (hD : D.WellSized) {p p' : EmitRow H × HdrValidityOps H}
    (hp : p ∈ D.pairs) (hp' : p' ∈ D.pairs)
    (h : (D.rowAction p'.1 p'.2).name = (D.rowAction p.1 p.2).name) :
    hdrsAfter p'.1 p'.2 = hdrsAfter p.1 p.2 ∧
      D.totalWidth (validHdrs p'.1.keys) = D.totalWidth (validHdrs p.1.keys) := by
  obtain ⟨data, heq, hmap, -⟩ := rowAction_eq hD hp
  obtain ⟨data', heq', hmap', -⟩ := rowAction_eq hD hp'
  rw [heq, heq'] at h
  simp only [actName, Prod.mk.injEq] at h
  obtain ⟨hlist, hsign, habs⟩ := h
  have hhdrs : hdrsAfter p'.1 p'.2 = hdrsAfter p.1 p.2 := by
    rw [← hmap, ← hmap']
    have := congrArg (List.map Prod.fst) hlist
    simpa [List.map_map, Function.comp_def] using this
  refine ⟨hhdrs, ?_⟩
  obtain ⟨a, ha⟩ := hD.widths.totalWidth_dvd (hdrsAfter p.1 p.2)
  obtain ⟨b, hb⟩ := hD.widths.totalWidth_dvd (validHdrs p.1.keys)
  obtain ⟨b', hb'⟩ := hD.widths.totalWidth_dvd (validHdrs p'.1.keys)
  rw [hhdrs, ha, hb, hb', decide_eq_decide] at hsign
  rw [hhdrs, ha, hb, hb'] at habs
  have hx : ((8 * a : ℕ) : ℤ) - (8 * b : ℕ) = 8 * ((a : ℤ) - b) := by omega
  have hy : ((8 * a : ℕ) : ℤ) - (8 * b' : ℕ) = 8 * ((a : ℤ) - b') := by omega
  rw [hx, hy, Int.mul_tdiv_cancel_left _ (by decide), Int.mul_tdiv_cancel_left _ (by decide)]
    at habs
  omega

/-! ## The condition -/

section Visible

variable {bss i i' parsed : ℕ} {D : HeaderDecls H F} {hdrs : List H}
  {f : FieldValues H F → (ℕ → Word) → (ℕ → Word)}

end Visible

/-- The action of a row of the table is that of the first pair with its name. -/
theorem exists_findAction (hD : D.WellSized) {q : EmitRow H × HdrValidityOps H}
    (hq : q ∈ D.pairs) : ∃ p ∈ D.pairs,
      D.pairs.find? (fun p => D.nameOf p = D.nameOf q) = some p ∧
      D.findAction (D.rowAction q.1 q.2).name = some (D.rowAction p.1 p.2) ∧
      hdrsAfter p.1 p.2 = hdrsAfter q.1 q.2 ∧
      D.totalWidth (validHdrs p.1.keys) = D.totalWidth (validHdrs q.1.keys) := by
  have hname := name_rowAction (D := D) (mem_pairs.1 hq).1
  have hfind : D.pairs.find? (fun p => (D.rowAction p.1 p.2).name = D.nameOf q) =
      D.pairs.find? fun p => D.nameOf p = D.nameOf q := by
    have hcongr : ∀ l : List (EmitRow H × HdrValidityOps H), (∀ p ∈ l, p ∈ D.pairs) →
        l.find? (fun p => (D.rowAction p.1 p.2).name = D.nameOf q) =
          l.find? fun p => D.nameOf p = D.nameOf q := by
      intro l
      induction l with
      | nil => exact fun _ => rfl
      | cons a l ih =>
        intro hl
        rw [List.find?_cons, List.find?_cons, ih fun p hp => hl p (List.mem_cons_of_mem _ hp),
          name_rowAction (mem_pairs.1 (hl a List.mem_cons_self)).1]
    exact hcongr _ fun _ hp => hp
  obtain ⟨p, hp⟩ : ∃ p, D.pairs.find? (fun p => D.nameOf p = D.nameOf q) = some p := by
    rcases hf : D.pairs.find? (fun p => D.nameOf p = D.nameOf q) with _ | p
    · have hnone := List.find?_eq_none.1 hf q hq
      simp at hnone
    · exact ⟨p, rfl⟩
  have hmem : p ∈ D.pairs := List.mem_of_find?_eq_some hp
  have hsame : (D.rowAction p.1 p.2).name = (D.rowAction q.1 q.2).name := by
    have heq := List.find?_some hp
    rw [decide_eq_true_eq] at heq
    rw [name_rowAction (mem_pairs.1 hmem).1, hname, heq]
  refine ⟨p, hmem, hp, ?_, name_rowAction_inj hD hq hmem hsame⟩
  rw [findAction_eq, hname, hfind, hp]
  rfl

/-- What the action of a pair does, from the offset that its row carries. -/
theorem shifts_rowAction (hD : D.WellSized) {p : EmitRow H × HdrValidityOps H} (hp : p ∈ D.pairs)
    (vals : FieldValues H F) (st : ℕ → Word) :
    Shifts D.byteStackSize (D.recordedInit p.1)
      (D.recordedInit p.1 + D.totalWidth (validHdrs p.1.keys))
      ((hdrsAfter p.1 p.2).flatMap (D.hdrBits vals)) (bitAt st)
      (bitAt (execCalls D.toHeaderDecls vals (D.rowAction p.1 p.2).calls st)) := by
  obtain ⟨data, heq, hmap, hlaid⟩ := rowAction_eq hD hp
  have hr := (mem_pairs.1 hp).1
  have h8 := initOffset_dvd hD hr
  rw [heq, ← initOffset_eq hr, ← hmap]
  refine shifts_exec_actionCallOrder hD.widths vals hD.stack_lt hD.stack h8 ?_ hlaid ?_ st
  · exact Nat.dvd_add h8 (hD.widths.totalWidth_dvd _)
  · push_cast
    omega

end Deparser
end MicroP4
