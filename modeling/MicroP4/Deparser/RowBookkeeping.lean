import MicroP4.Deparser.EmitSchedule
import MicroP4.Deparser.EmitTable
import Mathlib.Data.List.Forall2
import Mathlib.Data.List.Nodup

/-!
# The bookkeeping of the rows of the emit table

`DeparserConverter` keeps the rows of its table twice.  `keyValueEmitOffsets` holds for every
emit call the rows with their key sets and actions, and `headerKeyValues` holds one list of
letters for each row of the last emit call, `'o'` in the column of the initial offset and
`'t'` or `'f'` in the column of a header.  An extension rebuilds the rows of the emit call
from those of its predecessor and leaves out the combinations that cannot be parsed; it
doubles `headerKeyValues` in place, clears what belongs to a row that is left out, and drops
what is cleared at the end.

The two describe the same rows after every step if and only if no initial offset is given
twice and every emit call with a table extends the one before it.  The first can fail: the
sums of the offsets at which a package is entered are not made unique in `toControl.cpp`.
The second holds of straight-line bodies.  With conditionals, for which `CreateEmitSchedule`
is written but the converter is not, an emit call in the second branch has the call in front
of the conditional as its predecessor, while `headerKeyValues` already holds the columns of
the first branch.
-/

namespace MicroP4
namespace Deparser

/-- An element of a key set. -/
inductive KeyValue where
  | const (n : ℕ)
  | bool (b : Bool)
  deriving DecidableEq, Repr

/-- The key set of a row, the column of the initial offset first if there is one. -/
def EmitRow.keyset {H : Type} (r : EmitRow H) : List KeyValue :=
  r.keyOffset.toList.map KeyValue.const ++ r.keys.map fun k => KeyValue.bool k.2

/-- The state of `DeparserConverter`.  An emit call is known by its number, and the column
of the initial offset has no header. -/
structure Converter (H : Type) where
  keyNamesWidths : List (Option H × ℕ)
  headerKeyValues : List (List Char)
  keyValueEmitOffsets : ℕ → List (EmitRow H)
  lastMcsEmitted : Option ℕ

/-- The rows of the last emit call. -/
def Converter.lastRows {H : Type} (C : Converter H) : List (EmitRow H) :=
  (C.lastMcsEmitted.map C.keyValueEmitOffsets).getD []

/-- A fresh converter. -/
def Converter.fresh {H : Type} : Converter H := ⟨[], [], fun _ => [], none⟩

/-- `resizeReplicateKeyValueVec`. -/
def resizeReplicateKeyValueVec (nfold : ℕ) (kv : List (List Char)) : List (List Char) :=
  if kv.length = 0 then List.replicate nfold [] else (List.replicate nfold kv).flatten

/-- `insertValueKeyValueVec`. -/
def insertValueKeyValueVec (v : Char) (first last : ℕ) (kv : List (List Char)) :
    List (List Char) :=
  kv.mapIdx fun i x => if first ≤ i ∧ i < last then x ++ [v] else x

/-- `removeEmptyElementsKeyValueVec`. -/
def removeEmptyElementsKeyValueVec (kv : List (List Char)) : List (List Char) :=
  kv.filter fun x => x ≠ []

/-- A pass over the rows of the predecessor that changes `headerKeyValues` at one index
after the other. -/
def writeKeyValues {H : Type} (write : EmitRow H → List Char → List Char) :
    (index : ℕ) → List (EmitRow H) → List (List Char) → List (List Char)
  | _, [], kv => kv
  | i, r :: rows, kv => writeKeyValues write (i + 1) rows (kv.modify i (write r))

variable {H F : Type} [DecidableEq H] (D : DeparserInput H F)

/-- Whether the deparser is entered at other offsets than `0` alone. -/
def DeparserInput.init : Bool := D.initialOffsets ≠ [0]

/-- `initTableWithOffsetEntries`, on the dummy call. -/
def DeparserInput.initConverter : Converter H :=
  { keyNamesWidths := [(none, 0)]
    headerKeyValues := D.initialOffsets.map fun _ => ['o']
    keyValueEmitOffsets := Function.update (fun _ => []) 0 D.initTableWithOffsetEntries
    lastMcsEmitted := some 0 }

/-- The converter when it comes to the first emit call. -/
def DeparserInput.startConverter : Converter H :=
  if D.init then D.initConverter else Converter.fresh

/-- `createEmitTable` on emit call `mcs`. -/
def DeparserInput.createTable (mcs : ℕ) (h : H) (C : Converter H) : Converter H :=
  let hdrKVVecSizeInit := C.headerKeyValues.length
  let hdrKVVecSize := if hdrKVVecSizeInit = 0 then 1 else hdrKVVecSizeInit
  let kv := resizeReplicateKeyValueVec 2 C.headerKeyValues
  let kv := insertValueKeyValueVec 'f' 0 hdrKVVecSize kv
  let kv := insertValueKeyValueVec 't' hdrKVVecSize (hdrKVVecSize + hdrKVVecSize) kv
  { keyNamesWidths := C.keyNamesWidths ++ [(some h, D.width h)]
    headerKeyValues := kv
    keyValueEmitOffsets := Function.update C.keyValueEmitOffsets mcs
      (C.keyValueEmitOffsets mcs ++ D.createEmitTable h)
    lastMcsEmitted := some mcs }

/-- What the passes `i = 0` and `i = 1` of `extendEmitTable` do to an element of
`headerKeyValues`. -/
def DeparserInput.writeKeyValue (h : H) (value : Bool) (r : EmitRow H) (kv : List Char) :
    List Char :=
  if value then
    if D.extends h r.keys then kv ++ ['t'] else []
  else kv ++ ['f']

/-- `extendEmitTable` on emit call `mcs`.  It is `none` when the `BUG_CHECK` of the sizes
fires. -/
def DeparserInput.extendTable (mcs : ℕ) (h : H) (predecessor : ℕ) (C : Converter H) :
    Option (Converter H) :=
  let rows := C.keyValueEmitOffsets predecessor
  let hdrKVVecSize := C.headerKeyValues.length
  if hdrKVVecSize = rows.length then
    let kv := resizeReplicateKeyValueVec 2 C.headerKeyValues
    let kv := writeKeyValues (D.writeKeyValue h false) 0 rows kv
    let kv := writeKeyValues (D.writeKeyValue h true) hdrKVVecSize rows kv
    some
      { keyNamesWidths := C.keyNamesWidths ++ [(some h, D.width h)]
        headerKeyValues := removeEmptyElementsKeyValueVec kv
        keyValueEmitOffsets := Function.update C.keyValueEmitOffsets mcs
          (C.keyValueEmitOffsets mcs ++ D.extendEmitTable rows h)
        lastMcsEmitted := some mcs }
  else none

/-- Visiting an emit call.  It stays in the body when it has several callers. -/
def DeparserInput.convertEmit (mcs : ℕ) (e : EmitCall H) (C : Converter H) :
    Option (Converter H) :=
  match e.callers with
  | [] => some (D.createTable mcs e.hdr C)
  | [predecessor] => D.extendTable mcs e.hdr predecessor C
  | _ :: _ :: _ => some C

/-- Visiting emit calls in order, the first of which has number `mcs`. -/
def DeparserInput.convert : (mcs : ℕ) → List (EmitCall H) → Converter H → Option (Converter H)
  | _, [], C => some C
  | mcs, e :: es, C => (D.convertEmit mcs e C).bind (DeparserInput.convert (mcs + 1) es)

/-- A row and its element of `headerKeyValues` have the given number of columns, and the
columns with `true` are those with `'t'`. -/
structure EmitRow.Describes (columns : ℕ) (r : EmitRow H) (kv : List Char) : Prop where
  length_keyset : r.keyset.length = columns
  columns : List.Forall₂ (fun k v => k = KeyValue.bool true ↔ v = 't') r.keyset kv

/-- The two tables of the converter describe the same rows, and no two rows have the same
key set. -/
structure Converter.Aligned (C : Converter H) : Prop where
  rows : List.Forall₂ (EmitRow.Describes C.keyNamesWidths.length) C.lastRows C.headerKeyValues
  nodup : (C.lastRows.map EmitRow.keyset).Nodup

/-- However many emit calls have been visited, the `BUG_CHECK` has not fired and the two
tables are aligned. -/
def DeparserInput.StaysAligned (mcs : ℕ) (C : Converter H) (calls : List (EmitCall H)) : Prop :=
  ∀ es, es <+: calls → ∃ C', D.convert mcs es C = some C' ∧ C'.Aligned

/-- Every emit call with a table extends the last one with a table, `last`, and one without
callers comes first. -/
def Chained : (last : Option ℕ) → (mcs : ℕ) → List (EmitCall H) → Prop
  | _, _, [] => True
  | last, mcs, e :: es =>
      if e.callers.length ≤ 1 then e.callers = last.toList ∧ Chained (some mcs) (mcs + 1) es
      else Chained last (mcs + 1) es

/-! ## Rewriting `headerKeyValues` -/

omit [DecidableEq H] in
theorem writeKeyValues_append (write : EmitRow H → List Char → List Char) :
    ∀ (rows : List (EmitRow H)) (mid pre post : List (List Char)),
      mid.length = rows.length →
      writeKeyValues write pre.length rows (pre ++ mid ++ post) =
        pre ++ List.zipWith write rows mid ++ post
  | [], mid, pre, post, hlen => by
      rw [List.length_eq_zero_iff.mp hlen]
      rfl
  | r :: rows, [], pre, post, hlen => Nat.noConfusion hlen
  | r :: rows, kv :: mid, pre, post, hlen => by
      have hmodify : (pre ++ kv :: mid ++ post).modify pre.length (write r) =
          (pre ++ [write r kv]) ++ mid ++ post := by
        have hadd := List.modifyTailIdx_add (List.modifyHead (write r)) 0 pre (kv :: (mid ++ post))
        rw [Nat.add_zero] at hadd
        rw [List.append_assoc, List.cons_append, List.modify, hadd]
        simp
      have hlength : pre.length + 1 = (pre ++ [write r kv]).length := by simp
      rw [writeKeyValues, hmodify, hlength,
        writeKeyValues_append write rows mid _ post (Nat.succ.inj hlen)]
      simp

/-- The first pass clears no element. -/
theorem removeEmptyElements_writeKeyValue_false (h : H) :
    ∀ (rows : List (EmitRow H)) (kv : List (List Char)),
      removeEmptyElementsKeyValueVec (List.zipWith (D.writeKeyValue h false) rows kv) =
        List.zipWith (D.writeKeyValue h false) rows kv
  | [], _ => rfl
  | _ :: _, [] => rfl
  | r :: rows, x :: kv => by
      have hne : D.writeKeyValue h false r x ≠ [] := by simp [DeparserInput.writeKeyValue]
      rw [List.zipWith_cons_cons, removeEmptyElementsKeyValueVec,
        List.filter_cons_of_pos (by simpa using hne), ← removeEmptyElementsKeyValueVec,
        removeEmptyElements_writeKeyValue_false h rows kv]

/-- `headerKeyValues` after an extension: the rows with the header not emitted, and those
that are left of the rows with it. -/
theorem headerKeyValues_extendTable {h : H} {rows : List (EmitRow H)} {kv : List (List Char)}
    (hlen : kv.length = rows.length) :
    removeEmptyElementsKeyValueVec (writeKeyValues (D.writeKeyValue h true) kv.length rows
        (writeKeyValues (D.writeKeyValue h false) 0 rows (resizeReplicateKeyValueVec 2 kv))) =
      List.zipWith (D.writeKeyValue h false) rows kv ++
        removeEmptyElementsKeyValueVec (List.zipWith (D.writeKeyValue h true) rows kv) := by
  cases kv with
  | nil =>
      rw [List.length_eq_zero_iff.mp hlen.symm]
      rfl
  | cons x kv =>
      have hcopies : resizeReplicateKeyValueVec 2 (x :: kv) =
          [] ++ (x :: kv) ++ (x :: kv) := by
        simp [resizeReplicateKeyValueVec, List.replicate]
      have hfalse := writeKeyValues_append (D.writeKeyValue h false) rows (x :: kv) []
        (x :: kv) hlen
      have hlength : (x :: kv).length =
          (List.zipWith (D.writeKeyValue h false) rows (x :: kv)).length := by
        rw [List.length_zipWith, ← hlen, Nat.min_self]
      have htrue := writeKeyValues_append (D.writeKeyValue h true) rows (x :: kv)
        (List.zipWith (D.writeKeyValue h false) rows (x :: kv)) [] hlen
      rw [List.append_nil, List.append_nil] at htrue
      rw [hcopies, ← List.length_nil (α := List Char), hfalse, List.nil_append, hlength, htrue,
        removeEmptyElementsKeyValueVec, List.filter_append, ← removeEmptyElementsKeyValueVec,
        ← removeEmptyElementsKeyValueVec, removeEmptyElements_writeKeyValue_false]

/-- `extendEmitTable` when the sizes agree. -/
theorem extendTable_eq_some {C : Converter H} {c : ℕ} (mcs : ℕ) (h : H)
    (hlen : C.headerKeyValues.length = (C.keyValueEmitOffsets c).length) :
    D.extendTable mcs h c C = some
      { keyNamesWidths := C.keyNamesWidths ++ [(some h, D.width h)]
        headerKeyValues :=
          List.zipWith (D.writeKeyValue h false) (C.keyValueEmitOffsets c) C.headerKeyValues ++
            removeEmptyElementsKeyValueVec (List.zipWith (D.writeKeyValue h true)
              (C.keyValueEmitOffsets c) C.headerKeyValues)
        keyValueEmitOffsets := Function.update C.keyValueEmitOffsets mcs
          (C.keyValueEmitOffsets mcs ++ D.extendEmitTable (C.keyValueEmitOffsets c) h)
        lastMcsEmitted := some mcs } := by
  rw [DeparserInput.extendTable, if_pos hlen]
  dsimp only
  rw [headerKeyValues_extendTable D hlen]

/-! ## Rows and their letters -/

omit [DecidableEq H] in
theorem EmitRow.keyset_extendFalse (h : H) (r : EmitRow H) :
    (r.extendFalse h).keyset = r.keyset ++ [KeyValue.bool false] := by
  simp [keyset, extendFalse]

omit [DecidableEq H] in
theorem EmitRow.keyset_extendTrue (h : H) (s o : ℕ) (r : EmitRow H) :
    (r.extendTrue h s o).keyset = r.keyset ++ [KeyValue.bool true] := by
  simp [keyset, extendTrue]

omit [DecidableEq H] in
/-- A column more on both sides. -/
theorem EmitRow.Describes.append {n : ℕ} {r r' : EmitRow H} {kv : List Char} {b : Bool}
    {v : Char} (hr : r.Describes n kv) (hr' : r'.keyset = r.keyset ++ [KeyValue.bool b])
    (hv : b = true ↔ v = 't') : r'.Describes (n + 1) (kv ++ [v]) := by
  refine ⟨?_, ?_⟩
  · rw [hr', List.length_append, hr.length_keyset, List.length_singleton]
  · rw [hr']
    refine List.rel_append hr.columns (List.Forall₂.cons ?_ List.Forall₂.nil)
    rw [← hv]
    simp

theorem describes_extendFalse {n : ℕ} {h : H} {rows : List (EmitRow H)} {kv : List (List Char)}
    (hrows : List.Forall₂ (EmitRow.Describes n) rows kv) :
    List.Forall₂ (EmitRow.Describes (n + 1)) (rows.map (EmitRow.extendFalse h))
      (List.zipWith (D.writeKeyValue h false) rows kv) := by
  induction hrows with
  | nil => exact List.Forall₂.nil
  | @cons r x rows kv hr _ ih =>
      exact List.Forall₂.cons (hr.append (r.keyset_extendFalse h) (by simp)) ih

/-- The rows that are left out are those whose letters are dropped. -/
theorem describes_extendRows {n : ℕ} {h : H} {rows : List (EmitRow H)} {kv : List (List Char)}
    (hrows : List.Forall₂ (EmitRow.Describes n) rows kv) : ∀ declared : List ℕ,
    List.Forall₂ (EmitRow.Describes (n + 1)) (D.extendRows h declared rows)
      (removeEmptyElementsKeyValueVec (List.zipWith (D.writeKeyValue h true) rows kv)) := by
  induction hrows with
  | nil => exact fun _ => List.Forall₂.nil
  | @cons r x rows kv hr _ ih =>
      intro declared
      rw [DeparserInput.extendRows, List.zipWith_cons_cons, removeEmptyElementsKeyValueVec]
      by_cases hext : D.extends h r.keys = true
      · have hwrite : D.writeKeyValue h true r x = x ++ ['t'] := by
          simp [DeparserInput.writeKeyValue, hext]
        rw [if_pos hext, hwrite, List.filter_cons_of_pos (by simp)]
        exact List.Forall₂.cons (hr.append (r.keyset_extendTrue h _ _) (by simp)) (ih _)
      · have hwrite : D.writeKeyValue h true r x = [] := by
          simp [DeparserInput.writeKeyValue, hext]
        rw [if_neg hext, hwrite, List.filter_cons_of_neg (by simp)]
        exact ih _

/-- The rows and the letters of an extended table. -/
theorem describes_extendEmitTable {n : ℕ} (h : H) {rows : List (EmitRow H)}
    {kv : List (List Char)} (hrows : List.Forall₂ (EmitRow.Describes n) rows kv) :
    List.Forall₂ (EmitRow.Describes (n + 1)) (D.extendEmitTable rows h)
      (List.zipWith (D.writeKeyValue h false) rows kv ++
        removeEmptyElementsKeyValueVec (List.zipWith (D.writeKeyValue h true) rows kv)) :=
  List.rel_append (describes_extendFalse D hrows) (describes_extendRows D hrows [])

theorem map_keyset_extendRows (h : H) : ∀ (rows : List (EmitRow H)) (declared : List ℕ),
    (D.extendRows h declared rows).map EmitRow.keyset =
      ((rows.filter fun r => D.extends h r.keys).map EmitRow.keyset).map
        (· ++ [KeyValue.bool true])
  | [], _ => rfl
  | r :: rows, declared => by
      rw [DeparserInput.extendRows, List.filter_cons]
      split
      · rw [List.map_cons, map_keyset_extendRows h rows, EmitRow.keyset_extendTrue]
        rfl
      · exact map_keyset_extendRows h rows declared

/-- Different rows of the predecessor give different rows. -/
theorem nodup_keyset_extendEmitTable {h : H} {rows : List (EmitRow H)}
    (hrows : (rows.map EmitRow.keyset).Nodup) :
    ((D.extendEmitTable rows h).map EmitRow.keyset).Nodup := by
  have hinj : ∀ k : KeyValue, Function.Injective (· ++ [k]) := fun k _ _ => List.append_cancel_right
  have hfalse : (rows.map (EmitRow.extendFalse h)).map EmitRow.keyset =
      (rows.map EmitRow.keyset).map (· ++ [KeyValue.bool false]) := by
    rw [List.map_map, List.map_map]
    exact List.map_congr_left fun r _ => r.keyset_extendFalse h
  have htrue : ((rows.filter fun r => D.extends h r.keys).map EmitRow.keyset).Nodup :=
    hrows.sublist (List.filter_sublist.map _)
  rw [DeparserInput.extendEmitTable, List.map_append, hfalse, map_keyset_extendRows]
  refine List.Nodup.append (hrows.map (hinj _)) (htrue.map (hinj _)) ?_
  intro k hk hk'
  obtain ⟨_, -, rfl⟩ := List.mem_map.mp hk
  obtain ⟨_, -, heq⟩ := List.mem_map.mp hk'
  have hlast := congrArg List.getLast? heq
  simp at hlast

/-! ## The steps -/

/-- What holds as long as every emit call with a table extends the last one with a table.  Only
the rows of the last one have as many columns as the converter. -/
structure Converter.Inv (mcs : ℕ) (C : Converter H) : Prop where
  aligned : C.Aligned
  start : C.lastMcsEmitted = none → C.keyNamesWidths = [] ∧ C.headerKeyValues = []
  columns : C.lastMcsEmitted ≠ none → C.keyNamesWidths ≠ [] ∧ C.headerKeyValues ≠ []
  older : ∀ m, C.lastMcsEmitted ≠ some m → ∀ r ∈ C.keyValueEmitOffsets m,
    r.keyset.length < C.keyNamesWidths.length
  unvisited : ∀ m, mcs ≤ m → C.keyValueEmitOffsets m = []

omit [DecidableEq H] in
theorem Converter.lastRows_eq {C : Converter H} {m : ℕ} (h : C.lastMcsEmitted = some m) :
    C.lastRows = C.keyValueEmitOffsets m := by
  rw [lastRows, h]
  rfl

omit [DecidableEq H] in
/-- Every row of the last emit call has the columns of the converter. -/
theorem Converter.Aligned.length_keyset {C : Converter H} (hC : C.Aligned) {r : EmitRow H}
    (hr : r ∈ C.lastRows) : r.keyset.length = C.keyNamesWidths.length := by
  have hrows : List.Forall₂
      (fun r (_ : List Char) => r.keyset.length = C.keyNamesWidths.length ∧ True)
      C.lastRows C.headerKeyValues := hC.rows.imp fun _ _ h => ⟨h.length_keyset, trivial⟩
  exact ((List.forall₂_and_left _ _).mp hrows).1 r hr

omit [DecidableEq H] in
/-- All rows have at most as many columns as the converter. -/
theorem Converter.Inv.length_keyset_le {C : Converter H} {mcs m : ℕ} (hC : C.Inv mcs)
    {r : EmitRow H} (hr : r ∈ C.keyValueEmitOffsets m) :
    r.keyset.length ≤ C.keyNamesWidths.length := by
  by_cases hm : C.lastMcsEmitted = some m
  · rw [← Converter.lastRows_eq hm] at hr
    exact Nat.le_of_eq (hC.aligned.length_keyset hr)
  · exact Nat.le_of_lt (hC.older m hm r hr)

omit [DecidableEq H] in
/-- A table for emit call `mcs` whose rows have the columns of the new converter. -/
theorem Converter.Inv.update {C : Converter H} {mcs : ℕ} (hC : C.Inv mcs) {h : H} {w : ℕ}
    {kv : List (List Char)} {rows : List (EmitRow H)}
    (hrows : List.Forall₂ (EmitRow.Describes (C.keyNamesWidths.length + 1)) rows kv)
    (hnodup : (rows.map EmitRow.keyset).Nodup) (hkv : kv ≠ []) :
    Converter.Inv (mcs + 1)
      { keyNamesWidths := C.keyNamesWidths ++ [(some h, w)]
        headerKeyValues := kv
        keyValueEmitOffsets := Function.update C.keyValueEmitOffsets mcs
          (C.keyValueEmitOffsets mcs ++ rows)
        lastMcsEmitted := some mcs } := by
  refine ⟨⟨?_, ?_⟩, fun hnone => absurd hnone (Option.some_ne_none mcs),
    fun _ => ⟨by simp, hkv⟩, ?_, ?_⟩
  · rw [Converter.lastRows_eq rfl]
    simpa [hC.unvisited mcs (Nat.le_refl mcs)] using hrows
  · rw [Converter.lastRows_eq rfl]
    simpa [hC.unvisited mcs (Nat.le_refl mcs)] using hnodup
  · intro m hm r hr
    have hne : m ≠ mcs := fun heq => hm (by rw [heq])
    dsimp only at hr
    rw [Function.update_of_ne hne] at hr
    have hle := hC.length_keyset_le hr
    simp only [List.length_append, List.length_singleton]
    exact Nat.lt_succ_of_le hle
  · intro m hm
    have hne : m ≠ mcs := by omega
    simp only [Function.update_of_ne hne]
    exact hC.unvisited m (by omega)

/-- Extending the last emit call. -/
theorem Converter.Inv.extendTable {C : Converter H} {mcs c : ℕ} (hC : C.Inv mcs)
    (hc : C.lastMcsEmitted = some c) (h : H) :
    ∃ C', D.extendTable mcs h c C = some C' ∧ C'.Inv (mcs + 1) ∧
      C'.lastMcsEmitted = some mcs := by
  have hrows := hC.aligned.rows
  have hnodup := hC.aligned.nodup
  rw [Converter.lastRows_eq hc] at hrows hnodup
  have hlen : C.headerKeyValues.length = (C.keyValueEmitOffsets c).length :=
    hrows.length_eq.symm
  refine ⟨_, extendTable_eq_some D mcs h hlen, ?_, rfl⟩
  refine hC.update ?_ (nodup_keyset_extendEmitTable D hnodup) ?_
  · exact describes_extendEmitTable D h hrows
  · obtain ⟨x, kv, hkv⟩ := List.exists_cons_of_ne_nil (hC.columns (by simp [hc])).2
    obtain ⟨r, rows, hr⟩ : ∃ r rows, C.keyValueEmitOffsets c = r :: rows := by
      rw [hkv] at hlen
      exact List.exists_cons_of_length_eq_add_one hlen.symm
    rw [hkv, hr]
    simp

/-- Extending an emit call that is not the last one: the sizes differ, or the rows lack a
column. -/
theorem Converter.Inv.not_aligned_extendTable {C C' : Converter H} {mcs c : ℕ}
    (hC : C.Inv mcs) (hlast : C.lastMcsEmitted ≠ none) (hc : C.lastMcsEmitted ≠ some c) {h : H}
    (hC' : D.extendTable mcs h c C = some C') : ¬ C'.Aligned := by
  intro haligned
  rw [DeparserInput.extendTable] at hC'
  split at hC'
  · rename_i hlen
    obtain rfl := Option.some.inj hC'
    obtain ⟨x, kv, hkv⟩ := List.exists_cons_of_ne_nil (hC.columns hlast).2
    obtain ⟨r, rows, hr⟩ : ∃ r rows, C.keyValueEmitOffsets c = r :: rows := by
      rw [hkv] at hlen
      exact List.exists_cons_of_length_eq_add_one hlen.symm
    have hlength := haligned.length_keyset (r := r.extendFalse h) (by
      rw [Converter.lastRows_eq rfl]
      simp [DeparserInput.extendEmitTable, hr])
    have hlt := hC.older c hc r (by rw [hr]; exact List.mem_cons_self)
    rw [EmitRow.keyset_extendFalse] at hlength
    simp only [List.length_append, List.length_singleton] at hlength
    omega
  · exact absurd hC'.symm (Option.some_ne_none C')

omit [DecidableEq H] in
/-- Creating the first table. -/
theorem Converter.Inv.createTable {C : Converter H} {mcs : ℕ} (hC : C.Inv mcs)
    (hlast : C.lastMcsEmitted = none) (h : H) :
    (D.createTable mcs h C).Inv (mcs + 1) := by
  obtain ⟨hcolumns, hkv⟩ := hC.start hlast
  have hrow : ∀ (b : Bool) (v : Char) (o : ℕ) (a : Option (EmitAction H)), (b = true ↔ v = 't') →
      EmitRow.Describes (C.keyNamesWidths.length + 1) ⟨none, [(h, b)], o, a, o⟩ [v] := by
    intro b v o a hv
    rw [hcolumns]
    refine ⟨rfl, List.Forall₂.cons ?_ List.Forall₂.nil⟩
    rw [← hv]
    simp
  refine hC.update ?_ ?_ ?_
  · rw [hkv]
    exact List.Forall₂.cons (hrow false 'f' _ _ (by decide))
      (List.Forall₂.cons (hrow true 't' _ _ (by decide)) List.Forall₂.nil)
  · simp [DeparserInput.createEmitTable, EmitRow.keyset]
  · rw [hkv]
    exact List.cons_ne_nil _ _

omit [DecidableEq H] in
/-- Creating a table when there is one: its rows have one column only. -/
theorem not_aligned_createTable {C : Converter H} {mcs : ℕ} {h : H}
    (hcolumns : C.keyNamesWidths ≠ []) (hmcs : C.keyValueEmitOffsets mcs = []) :
    ¬ (D.createTable mcs h C).Aligned := by
  intro haligned
  have hlength := haligned.length_keyset (r := ⟨none, [(h, false)], 0, none, 0⟩) (by
    rw [Converter.lastRows_eq rfl]
    simp [DeparserInput.createTable, DeparserInput.createEmitTable, hmcs])
  have hpos := List.length_pos_iff.mpr hcolumns
  simp only [DeparserInput.createTable, List.length_append, List.length_singleton] at hlength
  have hone : EmitRow.keyset (⟨none, [(h, false)], 0, none, 0⟩ : EmitRow H) =
      [KeyValue.bool false] := rfl
  rw [hone, List.length_singleton] at hlength
  omega

/-! ## Runs -/

/-- A run is aligned when its first state is and the first step leads to an aligned run. -/
theorem staysAligned_cons_iff {mcs : ℕ} {C : Converter H} {e : EmitCall H}
    {es : List (EmitCall H)} :
    D.StaysAligned mcs C (e :: es) ↔
      C.Aligned ∧ ∃ C', D.convertEmit mcs e C = some C' ∧ D.StaysAligned (mcs + 1) C' es := by
  constructor
  · intro h
    obtain ⟨C₀, hC₀, haligned⟩ := h [] List.nil_prefix
    obtain rfl := Option.some.inj hC₀
    obtain ⟨C₁, hC₁, -⟩ := h [e] ((List.prefix_cons_inj e).mpr List.nil_prefix)
    obtain ⟨C', hC', -⟩ := Option.bind_eq_some_iff.mp hC₁
    refine ⟨haligned, C', hC', fun es' hes' => ?_⟩
    obtain ⟨C₂, hC₂, haligned₂⟩ := h (e :: es') ((List.prefix_cons_inj e).mpr hes')
    rw [DeparserInput.convert, hC'] at hC₂
    exact ⟨C₂, hC₂, haligned₂⟩
  · rintro ⟨haligned, C', hC', h⟩ es' hes'
    cases es' with
    | nil => exact ⟨C, rfl, haligned⟩
    | cons e' es' =>
        obtain ⟨rfl, htail⟩ := List.cons_prefix_cons.mp hes'
        obtain ⟨C₂, hC₂, haligned₂⟩ := h es' htail
        refine ⟨C₂, ?_, haligned₂⟩
        rw [DeparserInput.convert, hC']
        exact hC₂

omit [DecidableEq H] in
theorem Converter.Inv.succ {C : Converter H} {mcs : ℕ} (hC : C.Inv mcs) : C.Inv (mcs + 1) :=
  ⟨hC.aligned, hC.start, hC.columns, hC.older, fun m hm => hC.unvisited m (Nat.le_of_succ_le hm)⟩

/-- The induction is on the emit calls: as long as they are chained the invariant holds, and
the first that is not chained ends the alignment. -/
theorem staysAligned_iff_chained : ∀ (es : List (EmitCall H)) {mcs : ℕ} {C : Converter H},
    C.Inv mcs → (C.lastMcsEmitted = none → GoodCallers false es) →
    (D.StaysAligned mcs C es ↔ Chained C.lastMcsEmitted mcs es)
  | [], mcs, C, hC, _ => by
      refine iff_of_true (fun es hes => ?_) trivial
      rw [List.prefix_nil.mp hes]
      exact ⟨C, rfl, hC.aligned⟩
  | ⟨h, []⟩ :: es, mcs, C, hC, _ => by
      rw [staysAligned_cons_iff, Chained, if_pos (by simp)]
      cases hlast : C.lastMcsEmitted with
      | none =>
          have hinv := hC.createTable D hlast h
          have ih := staysAligned_iff_chained es hinv fun hnone =>
            absurd hnone (Option.some_ne_none mcs)
          constructor
          · rintro ⟨-, C', hC', hstays⟩
            obtain rfl := Option.some.inj hC'
            exact ⟨rfl, ih.mp hstays⟩
          · rintro ⟨-, hchained⟩
            exact ⟨hC.aligned, _, rfl, ih.mpr hchained⟩
      | some c =>
          constructor
          · rintro ⟨-, C', hC', hstays⟩
            obtain rfl := Option.some.inj hC'
            obtain ⟨C', hC', haligned⟩ := hstays [] List.nil_prefix
            obtain rfl := Option.some.inj hC'
            exact absurd haligned (not_aligned_createTable D (hC.columns (by simp [hlast])).1
              (hC.unvisited mcs (Nat.le_refl mcs)))
          · rintro ⟨hnil, -⟩
            exact absurd hnil (List.cons_ne_nil c []).symm
  | ⟨h, [c]⟩ :: es, mcs, C, hC, hgood => by
      rw [staysAligned_cons_iff, Chained, if_pos (by simp)]
      have hlast : C.lastMcsEmitted ≠ none := fun hnone =>
        absurd (hgood hnone ⟨h, [c]⟩ rfl) (List.cons_ne_nil c [])
      by_cases hc : C.lastMcsEmitted = some c
      · obtain ⟨C', hC', hinv, hlast'⟩ := hC.extendTable D hc h
        have ih := staysAligned_iff_chained es hinv fun hnone => by
          rw [hlast'] at hnone
          exact absurd hnone (Option.some_ne_none mcs)
        rw [hlast'] at ih
        constructor
        · rintro ⟨-, C'', hC'', hstays⟩
          obtain rfl := Option.some.inj (hC'.symm.trans hC'')
          exact ⟨by rw [hc]; rfl, ih.mp hstays⟩
        · rintro ⟨-, hchained⟩
          exact ⟨hC.aligned, C', hC', ih.mpr hchained⟩
      · constructor
        · rintro ⟨-, C', hC', hstays⟩
          obtain ⟨C'', hC'', haligned⟩ := hstays [] List.nil_prefix
          obtain rfl := Option.some.inj hC''
          exact absurd haligned (hC.not_aligned_extendTable D hlast hc hC')
        · rintro ⟨hcallers, -⟩
          obtain ⟨l, hl⟩ := Option.ne_none_iff_exists'.mp hlast
          rw [hl] at hcallers hc
          exact absurd (congrArg some (List.cons.inj hcallers).1.symm) hc
  | ⟨h, c :: c' :: cs⟩ :: es, mcs, C, hC, hgood => by
      have hlast : C.lastMcsEmitted ≠ none := fun hnone =>
        absurd (hgood hnone ⟨h, c :: c' :: cs⟩ rfl) (List.cons_ne_nil c _)
      rw [staysAligned_cons_iff, Chained, if_neg (by simp),
        ← staysAligned_iff_chained es hC.succ fun hnone => absurd hnone hlast]
      constructor
      · rintro ⟨-, C', hC', hstays⟩
        obtain rfl := Option.some.inj hC'
        exact hstays
      · exact fun hstays => ⟨hC.aligned, C, rfl, hstays⟩

/-- Without initial offsets there are no rows. -/
theorem staysAligned_of_rowless : ∀ (es : List (EmitCall H)) {mcs : ℕ} {C : Converter H},
    C.headerKeyValues = [] → (∀ m, C.keyValueEmitOffsets m = []) → GoodCallers true es →
    D.StaysAligned mcs C es
  | es, mcs, C, hkv, hrows, hgood => by
      have haligned : C.Aligned := by
        have hlast : C.lastRows = [] := by
          cases h : C.lastMcsEmitted with
          | none => rw [Converter.lastRows, h]; rfl
          | some m => rw [Converter.lastRows_eq h, hrows]
        exact ⟨by rw [hlast, hkv]; exact List.Forall₂.nil, by rw [hlast]; exact List.nodup_nil⟩
      cases es with
      | nil =>
          intro es hes
          rw [List.prefix_nil.mp hes]
          exact ⟨C, rfl, haligned⟩
      | cons e es =>
          rw [staysAligned_cons_iff]
          refine ⟨haligned, ?_⟩
          have hes : GoodCallers true es := fun e' he' => hgood e' (List.mem_cons_of_mem _ he')
          obtain ⟨h, callers⟩ := e
          match callers with
          | [] => exact absurd rfl (hgood _ List.mem_cons_self)
          | _ :: _ :: _ => exact ⟨C, rfl, staysAligned_of_rowless es hkv hrows hes⟩
          | [c] =>
              have hlen : C.headerKeyValues.length = (C.keyValueEmitOffsets c).length := by
                rw [hkv, hrows c]
                rfl
              refine ⟨_, extendTable_eq_some D mcs h hlen, staysAligned_of_rowless es ?_ ?_ hes⟩
              · simp only [hrows, hkv]
                rfl
              · intro m
                simp only [hrows, Function.update_apply]
                split <;> rfl

/-! ## Any deparser -/

omit [DecidableEq H] in
theorem lastRows_initConverter : D.initConverter.lastRows = D.initTableWithOffsetEntries := by
  simp [Converter.lastRows, DeparserInput.initConverter]

omit [DecidableEq H] in
theorem describes_initTable :
    List.Forall₂ (EmitRow.Describes 1) D.initTableWithOffsetEntries
      D.initConverter.headerKeyValues := by
  rw [DeparserInput.initTableWithOffsetEntries, DeparserInput.initConverter,
    List.forall₂_map_left_iff, List.forall₂_map_right_iff, List.forall₂_same]
  exact fun os _ => ⟨rfl, List.Forall₂.cons (by simp) List.Forall₂.nil⟩

omit [DecidableEq H] in
/-- The table of the initial offsets is aligned when no offset is given twice. -/
theorem aligned_initConverter_iff : D.initConverter.Aligned ↔ D.initialOffsets.Nodup := by
  have hkeysets : D.initConverter.lastRows.map EmitRow.keyset =
      D.initialOffsets.map fun os => [KeyValue.const os] := by
    rw [lastRows_initConverter, DeparserInput.initTableWithOffsetEntries, List.map_map]
    rfl
  have hinj : Function.Injective fun os => [KeyValue.const os] := fun a b h => by simpa using h
  have hnodup : (D.initConverter.lastRows.map EmitRow.keyset).Nodup ↔ D.initialOffsets.Nodup := by
    rw [hkeysets, List.nodup_map_iff hinj]
  refine ⟨fun h => hnodup.mp h.nodup, fun h => ⟨?_, hnodup.mpr h⟩⟩
  rw [lastRows_initConverter]
  exact describes_initTable D

omit [DecidableEq H] in
theorem inv_initConverter (hne : D.initialOffsets ≠ []) (hnodup : D.initialOffsets.Nodup) :
    D.initConverter.Inv 1 := by
  have hrows : ∀ m, m ≠ 0 → D.initConverter.keyValueEmitOffsets m = [] := fun m hm => by
    simp [DeparserInput.initConverter, hm]
  refine ⟨(aligned_initConverter_iff D).mpr hnodup, fun h => absurd h (Option.some_ne_none 0),
    fun _ => ⟨List.cons_ne_nil _ _, ?_⟩, ?_, fun m hm => hrows m (by omega)⟩
  · simpa [DeparserInput.initConverter] using hne
  · intro m hm r hr
    rw [hrows m fun hzero => hm (by rw [hzero]; rfl)] at hr
    exact absurd hr List.not_mem_nil

omit [DecidableEq H] in
theorem Converter.inv_fresh (mcs : ℕ) : (Converter.fresh : Converter H).Inv mcs :=
  ⟨⟨List.Forall₂.nil, List.nodup_nil⟩, fun _ => ⟨rfl, rfl⟩, fun h => absurd rfl h,
    fun _ _ _ hr => absurd hr List.not_mem_nil, fun _ _ => rfl⟩

/-- The rows stay aligned exactly when no initial offset is given twice and every emit call
with a table extends the last one with a table. -/
theorem staysAligned_iff {body : Stmt H} {calls : List (EmitCall H)}
    (hcalls : body.emitCalls D.init = some calls) :
    D.StaysAligned 1 D.startConverter calls ↔
      D.initialOffsets.Nodup ∧
        (D.initialOffsets = [] ∨ Chained (if D.init then some 0 else none) 1 calls) := by
  have hgood := Stmt.goodCallers_emitCalls hcalls
  by_cases hinit : D.initialOffsets = [0]
  · have hfalse : D.init = false := by simp [DeparserInput.init, hinit]
    rw [hfalse] at hgood
    rw [DeparserInput.startConverter, hfalse, if_neg Bool.false_ne_true,
      staysAligned_iff_chained D calls (Converter.inv_fresh 1) fun _ => hgood]
    simp [hinit, Converter.fresh]
  · have htrue : D.init = true := by simp [DeparserInput.init, hinit]
    rw [htrue] at hgood
    rw [DeparserInput.startConverter, htrue, if_pos rfl, if_pos rfl]
    constructor
    · intro h
      obtain ⟨C, hC, haligned⟩ := h [] List.nil_prefix
      obtain rfl := Option.some.inj hC
      have hnodup := (aligned_initConverter_iff D).mp haligned
      refine ⟨hnodup, or_iff_not_imp_left.mpr fun hne => ?_⟩
      exact (staysAligned_iff_chained D calls (inv_initConverter D hne hnodup)
        fun hnone => absurd hnone (Option.some_ne_none 0)).mp h
    · rintro ⟨hnodup, hor⟩
      by_cases hne : D.initialOffsets = []
      · refine staysAligned_of_rowless D calls ?_ ?_ hgood
        · simp [DeparserInput.initConverter, hne]
        · intro m
          simp [DeparserInput.initConverter, DeparserInput.initTableWithOffsetEntries, hne]
      · exact (staysAligned_iff_chained D calls (inv_initConverter D hne hnodup)
          fun hnone => absurd hnone (Option.some_ne_none 0)).mpr (hor.resolve_left hne)

/-! ## Straight-line deparsers -/

omit [DecidableEq H] in
/-- The emit calls of a straight-line body are chained. -/
theorem chained_chainCalls : ∀ (hs : List H) (last : Option ℕ) (mcs : ℕ),
    Chained last mcs (chainCalls last.toList mcs hs)
  | [], _, _ => trivial
  | _ :: hs, last, mcs => by
      have hle : last.toList.length ≤ 1 := by cases last <;> simp
      rw [chainCalls, Chained, if_pos hle]
      exact ⟨rfl, chained_chainCalls hs (some mcs) (mcs + 1)⟩

/-- Extending the last emit call, whether or not rows have equal key sets. -/
theorem exists_extendTable {C : Converter H} {mcs c : ℕ} (h : H)
    (hlast : C.lastMcsEmitted = some c) (hunvisited : ∀ m, mcs ≤ m → C.keyValueEmitOffsets m = [])
    (hrows : List.Forall₂ (EmitRow.Describes C.keyNamesWidths.length) C.lastRows
      C.headerKeyValues) :
    ∃ C', D.extendTable mcs h c C = some C' ∧ C'.lastMcsEmitted = some mcs ∧
      (∀ m, mcs + 1 ≤ m → C'.keyValueEmitOffsets m = []) ∧
      List.Forall₂ (EmitRow.Describes C'.keyNamesWidths.length) C'.lastRows C'.headerKeyValues ∧
      C'.lastRows = D.extendEmitTable C.lastRows h := by
  rw [Converter.lastRows_eq hlast] at hrows ⊢
  have hstep := extendTable_eq_some D mcs h hrows.length_eq.symm
  rw [hunvisited mcs (Nat.le_refl mcs), List.nil_append] at hstep
  refine ⟨_, hstep, rfl, ?_, ?_, ?_⟩
  · intro m hm
    dsimp only
    rw [Function.update_of_ne (by omega)]
    exact hunvisited m (by omega)
  · rw [Converter.lastRows_eq rfl]
    simpa using describes_extendEmitTable D h hrows
  · rw [Converter.lastRows_eq rfl]
    simp

theorem lastRows_convert_chainCalls : ∀ (hs : List H) {mcs c : ℕ} {C : Converter H},
    C.lastMcsEmitted = some c → (∀ m, mcs ≤ m → C.keyValueEmitOffsets m = []) →
    List.Forall₂ (EmitRow.Describes C.keyNamesWidths.length) C.lastRows C.headerKeyValues →
    ∃ C', D.convert mcs (chainCalls [c] mcs hs) C = some C' ∧
      C'.lastRows = hs.foldl D.extendEmitTable C.lastRows
  | [], _, _, C, _, _, _ => ⟨C, rfl, rfl⟩
  | h :: hs, mcs, c, C, hlast, hunvisited, hrows => by
      obtain ⟨C₁, hC₁, hlast₁, hunvisited₁, hrows₁, heq⟩ :=
        exists_extendTable D h hlast hunvisited hrows
      obtain ⟨C', hC', hrows'⟩ := lastRows_convert_chainCalls hs hlast₁ hunvisited₁ hrows₁
      refine ⟨C', ?_, ?_⟩
      · rw [chainCalls, DeparserInput.convert]
        show (D.extendTable mcs h c C).bind _ = some C'
        rw [hC₁]
        exact hC'
      · rw [hrows', heq, List.foldl_cons]

/-- On a straight-line body the rows of the last emit call are the rows of the emit table. -/
theorem lastRows_ofEmits : ∃ C, ((Stmt.ofEmits D.emits).emitCalls D.init).bind
    (fun calls => D.convert 1 calls D.startConverter) = some C ∧ C.lastRows = D.emitTable := by
  rw [Stmt.emitCalls_ofEmits, Option.bind_some]
  by_cases hinit : D.initialOffsets = [0]
  · have hfalse : D.init = false := by simp [DeparserInput.init, hinit]
    rw [DeparserInput.startConverter, hfalse, if_neg Bool.false_ne_true, DeparserInput.emitTable,
      if_pos hinit]
    cases hemits : D.emits with
    | nil => exact ⟨Converter.fresh, rfl, rfl⟩
    | cons h hs =>
        have hinv := (Converter.inv_fresh 1).createTable D rfl h
        obtain ⟨C, hC, hrows⟩ := lastRows_convert_chainCalls D hs rfl hinv.unvisited
          hinv.aligned.rows
        refine ⟨C, hC, ?_⟩
        rw [hrows, Converter.lastRows_eq rfl]
        simp [DeparserInput.createTable, Converter.fresh]
  · have htrue : D.init = true := by simp [DeparserInput.init, hinit]
    rw [DeparserInput.startConverter, htrue, if_pos rfl, DeparserInput.emitTable, if_neg hinit]
    have hunvisited : ∀ m, 1 ≤ m → D.initConverter.keyValueEmitOffsets m = [] := fun m hm => by
      simp [DeparserInput.initConverter, Nat.ne_of_gt hm]
    obtain ⟨C, hC, hrows⟩ := lastRows_convert_chainCalls D D.emits rfl hunvisited (by
      rw [lastRows_initConverter]
      exact describes_initTable D)
    refine ⟨C, hC, ?_⟩
    rw [hrows, lastRows_initConverter]

/-! ## Rows that go apart -/

/-- A deparser of headers of one byte. -/
def byteDeparser (initialOffsets : List ℕ) : DeparserInput (Fin 3) Unit where
  fields := fun _ => [((), 8)]
  xoredHeaderSets := []
  parsedHeaders := none
  initialOffsets := initialOffsets
  emits := []

/-- The deparser of a package two calls below the main one, when the parsers of its callers
stop after `112` or `144` bits each. -/
def twiceNested : DeparserInput (Fin 3) Unit := byteDeparser [224, 256, 256, 288]

/-- The deparser of a package that the main one calls. -/
def entered : DeparserInput (Fin 3) Unit := byteDeparser [112, 144]

/-- An offset that is given twice has two rows with equal key sets. -/
theorem not_staysAligned_twiceNested :
    ¬ ∃ calls, (Stmt.ofEmits [0]).emitCalls twiceNested.init = some calls ∧
      twiceNested.StaysAligned 1 twiceNested.startConverter calls := by
  rintro ⟨calls, -, h⟩
  obtain ⟨C, hC, haligned⟩ := h [] List.nil_prefix
  obtain rfl := Option.some.inj hC
  have hnodup : twiceNested.initialOffsets.Nodup :=
    (aligned_initConverter_iff twiceNested).mp haligned
  exact absurd hnodup (by decide)

/-- Three headers emitted one after the other. -/
theorem staysAligned_entered :
    entered.StaysAligned 1 entered.startConverter (chainCalls [0] 1 [0, 1, 2]) :=
  (staysAligned_iff entered (show (Stmt.ofEmits [0, 1, 2]).emitCalls entered.init = some _
    from rfl)).mpr ⟨by decide, Or.inr (chained_chainCalls [0, 1, 2] (some 0) 1)⟩

/-- One header is emitted, and then one of two others: the sizes differ at the third emit
call. -/
example : ((Stmt.seq (.emit 0) (.ite (.emit 1) (.emit 2))).emitCalls entered.init).bind
    (fun calls => entered.convert 1 calls entered.startConverter) = none := rfl

end Deparser
end MicroP4
