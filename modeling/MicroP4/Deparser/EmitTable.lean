import MicroP4.Deparser.EmitAction

/-!
# The emit table of a deparser

`DeparserConverter` turns a straight-line sequence of `emit` calls into one table that
matches on the validity flags the parser left behind.  Every call doubles the rows: each
row is kept with the header not emitted, and repeated with the header emitted, unless
that combination of headers cannot have been parsed.

A row carries the offset at which its next header goes, threaded by reference through
the construction of actions, and the offset at which its first header went.  The actions
of one call are shared by name: when `createP4Action` finds the action of a header at an
offset already declared it returns that action at once, and the offset it was to advance
stays where it was.  When the package is entered at other offsets than `0` alone, a
first column holds the initial offset and there is one row for each of them.
-/

namespace MicroP4
namespace Deparser

open BitString

/-- The input of the conversion of one deparser. -/
structure DeparserInput (H F : Type) extends HeaderDecls H F where
  xoredHeaderSets : List (List H)
  parsedHeaders : Option (List H)
  initialOffsets : List ℕ
  emits : List H

/-- An action of the emit table.  An action is determined by its name, `setOffset` being
`set_offset_<os>`, `emit` being `<h>_<start/8>_<end/8>` and `chain` the names of its two
parts joined, so that the shared actions of the source are values here. -/
inductive EmitAction (H : Type) where
  | setOffset (os : ℕ)
  | emit (h : H) (start : ℕ)
  | chain (ancestor : EmitAction H) (h : H) (start : ℕ)
  deriving DecidableEq, Repr

/-- An element of `keyValueEmitOffsets`.  `keyOffset` is the value in the column of the
initial offset, if there is one, and `keys` are the columns of the headers. -/
structure EmitRow (H : Type) where
  keyOffset : Option ℕ
  keys : List (H × Bool)
  emitOffset : ℕ
  action : Option (EmitAction H)
  initOffset : ℕ
  deriving DecidableEq, Repr

/-- The headers whose key is `true`. -/
def validHdrs {H : Type} (keys : List (H × Bool)) : List H :=
  (keys.filter Prod.snd).map Prod.fst

variable {H F : Type} [DecidableEq H] (D : DeparserInput H F)

/-- `emitsXORedHdrs`: two headers of the row are never parsed together. -/
def DeparserInput.emitsXORedHdrs (keys : List (H × Bool)) : Bool :=
  D.xoredHeaderSets.any fun xoredHeaderSet =>
    ((validHdrs keys).filter fun hdr => xoredHeaderSet.contains hdr).length > 1

/-- `isParsableHeader`. -/
def DeparserInput.isParsableHeader (hdr : H) : Bool :=
  match D.parsedHeaders with
  | none => true
  | some s => s.contains hdr

/-- `createP4Action(mcs, currentEmitOffset)`: the offset of the action that is returned
and the offset afterwards.  `declared` are the offsets of the actions of this call that
are declared already; the two numbers compared are those in the action's name. -/
def DeparserInput.createP4Action (h : H) (declared : List ℕ) (currentEmitOffset : ℕ) : ℕ × ℕ :=
  let emitOffset := currentEmitOffset + D.width h
  match declared.find? fun s =>
      s / 8 = currentEmitOffset / 8 ∧ (s + D.width h) / 8 = emitOffset / 8 with
  | some s => (s, currentEmitOffset)
  | none => (currentEmitOffset, emitOffset)

/-- The row with header `h` not emitted. -/
def EmitRow.extendFalse (h : H) (r : EmitRow H) : EmitRow H :=
  { r with keys := r.keys ++ [(h, false)] }

/-- The row with header `h` emitted by the action at offset `start`. -/
def EmitRow.extendTrue (h : H) (start currentEmitOffset : ℕ) (r : EmitRow H) : EmitRow H :=
  { r with
    keys := r.keys ++ [(h, true)]
    emitOffset := currentEmitOffset
    action := match r.action with
      | none => some (.emit h start)
      | some ancestor => some (.chain ancestor h start) }

/-- A row is repeated with the header emitted unless the headers exclude each other or
the header is never parsed. -/
def DeparserInput.extends (h : H) (keys : List (H × Bool)) : Bool :=
  !D.emitsXORedHdrs (keys ++ [(h, true)]) && D.isParsableHeader h

/-- The second pass of `extendEmitTable` over the rows of the predecessor. -/
def DeparserInput.extendRows (h : H) : (declared : List ℕ) → List (EmitRow H) → List (EmitRow H)
  | _, [] => []
  | declared, r :: rows =>
      if D.extends h r.keys then
        let (start, currentEmitOffset) := D.createP4Action h declared r.emitOffset
        r.extendTrue h start currentEmitOffset ::
          DeparserInput.extendRows h
            (if start ∈ declared then declared else declared ++ [start]) rows
      else DeparserInput.extendRows h declared rows

/-- `extendEmitTable`. -/
def DeparserInput.extendEmitTable (rows : List (EmitRow H)) (h : H) : List (EmitRow H) :=
  rows.map (EmitRow.extendFalse h) ++ D.extendRows h [] rows

/-- `createEmitTable`, for the first call of a deparser entered at offset `0` only.  The
offset has been advanced by `createP4Action` when the second row stores it, twice. -/
def DeparserInput.createEmitTable (h : H) : List (EmitRow H) :=
  let offset := 0
  let row0 : EmitRow H := ⟨none, [(h, false)], offset, none, offset⟩
  let (start, offset) := D.createP4Action h [] offset
  [row0, ⟨none, [(h, true)], offset, some (.emit h start), offset⟩]

/-- `initTableWithOffsetEntries`. -/
def DeparserInput.initTableWithOffsetEntries : List (EmitRow H) :=
  D.initialOffsets.map fun os => ⟨some os, [], os, some (.setOffset os), os⟩

/-- The rows after all emit calls. -/
def DeparserInput.emitTable : List (EmitRow H) :=
  if D.initialOffsets = [0] then
    match D.emits with
    | [] => []
    | h :: hs => hs.foldl D.extendEmitTable (D.createEmitTable h)
  else D.emits.foldl D.extendEmitTable D.initTableWithOffsetEntries

variable {D} in
/-- A row of the extended table is a row of the predecessor, with the header or without. -/
theorem exists_of_mem_extendEmitTable {r' : EmitRow H} {rows : List (EmitRow H)} {h : H}
    (hr' : r' ∈ D.extendEmitTable rows h) :
    ∃ r ∈ rows, r' = r.extendFalse h ∨ ∃ s e, r' = r.extendTrue h s e := by
  have hrows : ∀ (rows : List (EmitRow H)) (declared : List ℕ),
      r' ∈ D.extendRows h declared rows → ∃ r ∈ rows, ∃ s e, r' = r.extendTrue h s e := by
    intro rows
    induction rows with
    | nil => exact fun _ hr => absurd hr List.not_mem_nil
    | cons a rows ih =>
        intro declared hr
        rw [DeparserInput.extendRows] at hr
        split at hr
        · rcases List.mem_cons.mp hr with hr | hr
          · exact ⟨a, List.mem_cons_self, _, _, hr⟩
          · obtain ⟨r, hmem, hs⟩ := ih _ hr
            exact ⟨r, List.mem_cons_of_mem _ hmem, hs⟩
        · obtain ⟨r, hmem, hs⟩ := ih _ hr
          exact ⟨r, List.mem_cons_of_mem _ hmem, hs⟩
  rw [DeparserInput.extendEmitTable, List.mem_append] at hr'
  rcases hr' with hr' | hr'
  · obtain ⟨r, hr, rfl⟩ := List.mem_map.mp hr'
    exact ⟨r, hr, Or.inl rfl⟩
  · obtain ⟨r, hr, hs⟩ := hrows rows [] hr'
    exact ⟨r, hr, Or.inr hs⟩

variable {D} in
/-- Each emit call adds a column for its header. -/
theorem map_fst_keys_foldl : ∀ (hs : List H) {rows : List (EmitRow H)}
    {r' : EmitRow H}, r' ∈ hs.foldl D.extendEmitTable rows →
    ∃ r ∈ rows, r'.keys.map Prod.fst = r.keys.map Prod.fst ++ hs
  | [], _, r', hr' => ⟨r', hr', (List.append_nil _).symm⟩
  | h :: hs, rows, r', hr' => by
      obtain ⟨r, hr, hkeys⟩ := map_fst_keys_foldl hs hr'
      obtain ⟨r₀, hr₀, rfl | ⟨s, o, rfl⟩⟩ := exists_of_mem_extendEmitTable hr
      · exact ⟨r₀, hr₀, by rw [hkeys]; simp [EmitRow.extendFalse]⟩
      · exact ⟨r₀, hr₀, by rw [hkeys]; simp [EmitRow.extendTrue]⟩

variable {D} in
/-- The columns of a row are those of the emit calls. -/
theorem map_fst_keys {r : EmitRow H} (hr : r ∈ D.emitTable) :
    r.keys.map Prod.fst = D.emits := by
  rw [DeparserInput.emitTable] at hr
  split at hr
  · rcases hemits : D.emits with _ | ⟨h, hs⟩
    · rw [hemits] at hr
      exact absurd hr List.not_mem_nil
    · rw [hemits] at hr
      obtain ⟨r₀, hr₀, hkeys⟩ := map_fst_keys_foldl _ hr
      simp only [DeparserInput.createEmitTable, List.mem_cons, List.not_mem_nil, or_false] at hr₀
      rcases hr₀ with rfl | rfl <;> exact hkeys
  · obtain ⟨r₀, hr₀, hkeys⟩ := map_fst_keys_foldl _ hr
    obtain ⟨os, -, rfl⟩ := List.mem_map.mp hr₀
    exact hkeys

/-! ## Running an action -/

/-- Running an action on the byte stack.  A chained action calls the action of its last
header first and its ancestor after it. -/
def EmitAction.exec (D : HeaderDecls H F) (vals : FieldValues H F) :
    EmitAction H → (ℕ → Word) → (ℕ → Word)
  | .setOffset _, st => st
  | .emit h start, st => execStats vals (D.emitHeader h start) st
  | .chain ancestor h start, st =>
      ancestor.exec D vals (execStats vals (D.emitHeader h start) st)

/-- The same on the bit string of the byte stack. -/
def EmitAction.execBits (D : HeaderDecls H F) (vals : FieldValues H F) :
    EmitAction H → Bits → Bits
  | .setOffset _, s => s
  | .emit h start, s => writeBits start (D.hdrBits vals h) s
  | .chain ancestor h start, s => ancestor.execBits D vals (writeBits start (D.hdrBits vals h) s)

omit [DecidableEq H] in
theorem EmitAction.bitAt_exec (D : HeaderDecls H F) (vals : FieldValues H F) :
    ∀ (a : EmitAction H) (st : ℕ → Word),
      bitAt (a.exec D vals st) = a.execBits D vals (bitAt st)
  | .setOffset _, _ => rfl
  | .emit h start, st => bitAt_emitHeader D h start st
  | .chain ancestor h start, st => by
      rw [exec, EmitAction.bitAt_exec D vals ancestor, bitAt_emitHeader, execBits]

/-! ## Rows -/

omit [DecidableEq H] in
@[simp] theorem validHdrs_append_false (keys : List (H × Bool)) (h : H) :
    validHdrs (keys ++ [(h, false)]) = validHdrs keys := by
  simp [validHdrs]

omit [DecidableEq H] in
@[simp] theorem validHdrs_append_true (keys : List (H × Bool)) (h : H) :
    validHdrs (keys ++ [(h, true)]) = validHdrs keys ++ [h] := by
  simp [validHdrs]

/-- The initial offset of a row, read off its key. -/
def EmitRow.init (r : EmitRow H) : ℕ := r.keyOffset.getD 0

/-- The sum of the widths of some headers. -/
def HeaderDecls.totalWidth (D : HeaderDecls H F) (l : List H) : ℕ := (l.map D.width).sum

omit [DecidableEq H] in
@[simp] theorem HeaderDecls.totalWidth_nil (D : HeaderDecls H F) : D.totalWidth [] = 0 := rfl

omit [DecidableEq H] in
theorem HeaderDecls.totalWidth_append (D : HeaderDecls H F) (l l' : List H) :
    D.totalWidth (l ++ l') = D.totalWidth l + D.totalWidth l' := by
  rw [totalWidth, List.map_append, List.sum_append]
  rfl

omit [DecidableEq H] in
@[simp] theorem HeaderDecls.totalWidth_singleton (D : HeaderDecls H F) (h : H) :
    D.totalWidth [h] = D.width h := by
  simp [totalWidth]

omit [DecidableEq H] in
theorem HeaderDecls.WholeBytes.totalWidth_dvd {D : HeaderDecls H F} (hD : D.WholeBytes) :
    ∀ l : List H, 8 ∣ D.totalWidth l
  | [] => Nat.dvd_zero 8
  | h :: l => by
      have ih := hD.totalWidth_dvd l
      have hw : 8 ∣ D.width h := hD h
      have hcons : D.totalWidth (h :: l) = D.width h + D.totalWidth l := by
        simp [totalWidth]
      rw [hcons]
      exact Nat.dvd_add hw ih

omit [DecidableEq H] in
theorem HeaderDecls.length_flatMap_hdrBits (D : HeaderDecls H F) (vals : FieldValues H F)
    (l : List H) : (l.flatMap (D.hdrBits vals)).length = D.totalWidth l := by
  rw [List.length_flatMap, totalWidth]
  simp only [length_hdrBits]

end Deparser
end MicroP4
