import MicroP4.Deparser.MoveRanges

/-!
# Parsing again what was deparsed

When a control is cut in two, the headers it works on do not survive the cut.  The first part
ends with a deparser, and the second one starts with `DeparserInverter` of that deparser: the
two sides of every assignment are swapped, assignments of constants are left out, and the
order of the statements and of the calls stays.

A statement of an emission swapped reads a slice of a field back (`hdrBits_readStats`).  A byte
move swapped takes the bytes back to where they were, unless an earlier statement wrote there.
-/

namespace MicroP4
namespace Partitioning

open BitString Deparser

variable {H F : Type} [DecidableEq H]

/-! ## The inverse of an emission -/

section Emission

variable [DecidableEq F]

/-- `preorder(AssignmentStatement)` on a statement of an emission:
`h.f[rhi:rlo] = msa_hdr_stack[byte].data[hi:lo]`. -/
def readStat (st : ℕ → Word) (vals : FieldValues H F) (a : EmitStat H F) : FieldValues H F :=
  fun h f =>
    if a.h = h ∧ a.f = f then assignSlice (vals h f) a.rhi a.rlo (st a.byte) a.lo else vals h f

/-- Running such statements in order. -/
def readStats (st : ℕ → Word) (l : List (EmitStat H F)) (vals : FieldValues H F) :
    FieldValues H F :=
  l.foldl (readStat st) vals

theorem readStats_append (st : ℕ → Word) (l l' : List (EmitStat H F)) (vals : FieldValues H F) :
    readStats st (l ++ l') vals = readStats st l' (readStats st l vals) :=
  List.foldl_append

/-- A field no statement is about stays. -/
theorem readStats_of_ne (st : ℕ → Word) {h : H} {f : F} : ∀ {l : List (EmitStat H F)}
    (vals : FieldValues H F), (∀ a ∈ l, ¬ (a.h = h ∧ a.f = f)) → readStats st l vals h f = vals h f
  | [], _, _ => rfl
  | a :: l, vals, hl => by
      have ih := readStats_of_ne st (readStat st vals a) fun b hb =>
        hl b (List.mem_cons_of_mem a hb)
      rw [readStat, if_neg (hl a List.mem_cons_self)] at ih
      exact ih

omit [DecidableEq H] [DecidableEq F] in
theorem mem_emitBytes {h : H} {f : F} {a : EmitStat H F} : ∀ {n w byte : ℕ},
    a ∈ emitBytes h f n w byte → a.h = h ∧ a.f = f
  | 0, w, byte, ha => by
      rw [emitBytes] at ha
      split at ha
      · rw [List.mem_singleton.mp ha]
        exact ⟨rfl, rfl⟩
      · exact absurd ha List.not_mem_nil
  | n + 1, w, byte, ha => by
      rw [emitBytes] at ha
      rcases List.mem_cons.mp ha with rfl | ha
      · exact ⟨rfl, rfl⟩
      · exact mem_emitBytes ha

omit [DecidableEq H] [DecidableEq F] in
/-- The statements for a field are about that field. -/
theorem mem_emitField {h : H} {f : F} {a : EmitStat H F} {start w : ℕ}
    (ha : a ∈ emitField h f start w) : a.h = h ∧ a.f = f := by
  simp only [emitField] at ha
  split at ha
  · split at ha
    · rcases List.mem_cons.mp ha with rfl | ha
      · exact ⟨rfl, rfl⟩
      · exact mem_emitBytes ha
    · rw [List.mem_singleton.mp ha]
      exact ⟨rfl, rfl⟩
  · exact mem_emitBytes ha

omit [DecidableEq H] [DecidableEq F] in
theorem mem_emitFields {h : H} {a : EmitStat H F} : ∀ {fs : List (F × ℕ)} {start : ℕ},
    a ∈ emitFields h start fs → a.h = h ∧ a.f ∈ fs.map Prod.fst
  | [], _, ha => absurd ha List.not_mem_nil
  | (f, w) :: fs, start, ha => by
      rw [emitFields, List.mem_append] at ha
      rcases ha with ha | ha
      · exact ⟨(mem_emitField ha).1, by rw [(mem_emitField ha).2]; exact List.mem_cons_self⟩
      · exact ⟨(mem_emitFields ha).1, List.mem_cons_of_mem f (mem_emitFields ha).2⟩

/-- A value holds the `w` bits from position `p` on, and is `v` above them. -/
def Holds (s : Bits) (p w : ℕ) (v v' : Word) : Prop :=
  sliceBits v' 0 w = readBits s p w ∧ ∀ i, w ≤ i → v' i = v i

/-- One statement reads `n` bits of a field below its top `m` bits. -/
theorem holds_readStat {st : ℕ → Word} {vals vals' : FieldValues H F} {h : H} {f : F}
    {byte lo n hi rhi m p : ℕ} (hp : p = 8 * byte + (8 - lo - n)) (hlo : lo + n ≤ 8)
    (hrhi : rhi + 1 = m + n) (hn : 0 < n)
    (hrest : Holds (bitAt st) (p + n) m (readStat st vals ⟨byte, hi, lo, h, f, rhi, m⟩ h f)
      (vals' h f)) :
    Holds (bitAt st) p (n + m) (vals h f) (vals' h f) := by
  obtain ⟨hbits, habove⟩ := hrest
  have hread : ∀ i, m ≤ i → vals' h f i =
      if m ≤ i ∧ i ≤ rhi then st byte (lo + (i - m)) else vals h f i := by
    intro i hi
    rw [habove i hi, readStat, if_pos ⟨rfl, rfl⟩, assignSlice]
  refine ⟨?_, fun i hi => ?_⟩
  · rw [sliceBits_add, readBits_add, hbits, Nat.zero_add, hp, ← sliceBits_eq_readBits st hlo]
    congr 1
    refine List.map_congr_left fun j hj => ?_
    have hjn : j < n := List.mem_range.mp hj
    rw [hread _ (by omega), if_pos (by omega)]
    congr 1
    omega
  · rw [hread i (by omega), if_neg (by omega)]

/-- The rest of a field is read back from whole bytes. -/
theorem holds_emitBytes (st : ℕ → Word) (h : H) (f : F) : ∀ {n w : ℕ} (byte : ℕ)
    (vals : FieldValues H F), w / 8 = n →
    Holds (bitAt st) (8 * byte) w (vals h f) (readStats st (emitBytes h f n w byte) vals h f)
  | 0, w, byte, vals, hn => by
      rw [emitBytes]
      by_cases hw : w ≠ 0
      · rw [if_pos hw]
        exact holds_readStat (n := w) (m := 0) (by omega) (by omega) (by omega) (by omega)
          ⟨rfl, fun _ _ => rfl⟩
      · rw [if_neg hw]
        have hw : w = 0 := by omega
        subst hw
        exact ⟨rfl, fun _ _ => rfl⟩
  | n + 1, w, byte, vals, hn => by
      obtain ⟨m, rfl⟩ : ∃ m, w = 8 + m := ⟨w - 8, by omega⟩
      have hsub : 8 + m - 8 = m := by omega
      rw [emitBytes, hsub]
      have ih := holds_emitBytes st h f (byte + 1)
        (readStat st vals ⟨byte, 7, 0, h, f, 8 + m - 1, m⟩) (show m / 8 = n by omega)
      exact holds_readStat (n := 8) rfl (by omega) (by omega) (by omega) ih

/-- A field is read back from any bit offset. -/
theorem sliceBits_emitField (st : ℕ → Word) (h : H) (f : F) (start w : ℕ)
    (vals : FieldValues H F) :
    sliceBits (readStats st (emitField h f start w) vals h f) 0 w =
      readBits (bitAt st) start w := by
  by_cases hzero : w = 0
  · rw [hzero]
    rfl
  simp only [emitField]
  by_cases halign : 8 - (8 - start % 8) ≠ 0
  · rw [if_pos halign]
    by_cases hw : 8 - start % 8 ≤ w
    · -- the top of the field fills the begun byte
      obtain ⟨m, rfl⟩ : ∃ m, w = (8 - start % 8) + m := ⟨w - (8 - start % 8), by omega⟩
      have hsub : 8 - start % 8 + m - (8 - start % 8) = m := by omega
      have hnext : 8 * (start / 8 + 1) = start + (8 - start % 8) := by omega
      rw [if_pos hw, hsub]
      have hrest := holds_emitBytes st h f (start / 8 + 1)
        (readStat st vals ⟨start / 8, 8 - start % 8 - 1, 0, h, f, 8 - start % 8 + m - 1, m⟩)
        (rfl : m / 8 = m / 8)
      rw [hnext] at hrest
      exact (holds_readStat (n := 8 - start % 8) (by omega) (by omega) (by omega) (by omega)
        hrest).1
    · rw [if_neg hw]
      exact (holds_readStat (n := w) (m := 0) (by omega) (by omega) (by omega) (by omega)
        ⟨rfl, fun _ _ => rfl⟩).1
  · rw [if_neg halign]
    have hstart : 8 * (start / 8) = start := by omega
    have hrest := holds_emitBytes st h f (start / 8) vals
      (rfl : w / 8 = w / 8)
    rw [hstart] at hrest
    exact hrest.1

theorem flatMap_sliceBits_emitFields {st : ℕ → Word} {h : H} : ∀ {fs : List (F × ℕ)}
    (start : ℕ) (vals : FieldValues H F), (fs.map Prod.fst).Nodup →
    fs.flatMap (fun fw => sliceBits (readStats st (emitFields h start fs) vals h fw.1) 0 fw.2) =
      readBits (bitAt st) start (fs.map Prod.snd).sum
  | [], _, _, _ => rfl
  | (f, w) :: fs, start, vals, hnodup => by
      obtain ⟨hf, hfs⟩ := List.nodup_cons.mp hnodup
      have hfield := sliceBits_emitField st h f start w vals
      have hstays : readStats st (emitFields h (start + w) fs)
          (readStats st (emitField h f start w) vals) h f =
          readStats st (emitField h f start w) vals h f := by
        refine readStats_of_ne st _ fun a ha heq => hf ?_
        rw [← heq.2]
        exact (mem_emitFields ha).2
      rw [emitFields, readStats_append, List.flatMap_cons, hstays, hfield,
        flatMap_sliceBits_emitFields (start + w) _ hfs, List.map_cons, List.sum_cons,
        readBits_add]

/-- **The statements of an emission, swapped, read the header back.** -/
theorem hdrBits_readStats (D : HeaderDecls H F) {h : H} (hnodup : ((D.fields h).map Prod.fst).Nodup)
    (st : ℕ → Word) (start : ℕ) (vals : FieldValues H F) :
    D.hdrBits (readStats st (D.emitHeader h start) vals) h =
      readBits (bitAt st) start (D.width h) :=
  flatMap_sliceBits_emitFields start vals hnodup

/-- The other headers stay. -/
theorem readStats_emitHeader_of_ne (D : HeaderDecls H F) {h h' : H} (hne : h ≠ h')
    (st : ℕ → Word) (start : ℕ) (vals : FieldValues H F) :
    readStats st (D.emitHeader h start) vals h' = vals h' := by
  funext f
  refine readStats_of_ne st vals fun a ha heq => ?_
  rw [HeaderDecls.emitHeader] at ha
  exact hne ((mem_emitFields ha).1.symm.trans heq.1)

end Emission

/-! ## The inverse of a move -/

/-- A block copied upwards onto a place it may overlap, lowest byte first: its first bytes are
repeated. -/
theorem copyBytes_repeat_asc {a b : ℕ} (hab : b < a) (st : ℕ → Word) : ∀ k : ℕ,
    copyBytes ((List.range k).map fun i => (a + i, b + i)) st = fun j =>
      if a ≤ j ∧ j < a + k then st (b + (j - a) % (a - b)) else st j
  | 0 => by
      funext j
      have hn : ¬ (a ≤ j ∧ j < a + 0) := by omega
      rw [if_neg hn]
      rfl
  | k + 1 => by
      have ih := copyBytes_repeat_asc hab st k
      rw [copyBytes] at ih ⊢
      rw [List.range_succ, List.map_append, List.foldl_append, ih, List.map_singleton,
        List.foldl_cons, List.foldl_nil]
      funext j
      by_cases hj : j = a + k
      · rw [hj, Function.update_self, if_pos (by omega), Nat.add_sub_cancel_left]
        dsimp only
        rcases Nat.lt_or_ge k (a - b) with hk | hk
        · rw [if_neg (by omega), Nat.mod_eq_of_lt hk]
        · have hsub : b + k - a = k - (a - b) := by omega
          rw [if_pos (by omega), hsub, ← Nat.mod_eq_sub_mod hk]
      · have hc : (a ≤ j ∧ j < a + k) ↔ (a ≤ j ∧ j < a + (k + 1)) := by omega
        rw [Function.update_of_ne hj]
        simp only [hc]

theorem succ_mod_of_lt {x n : ℕ} (hn : x % n + 1 < n) : (x + 1) % n = x % n + 1 := by
  rw [Nat.add_mod, Nat.mod_eq_of_lt (show 1 < n by omega), Nat.mod_eq_of_lt hn]

theorem succ_mod_of_eq {x n : ℕ} (hn : x % n + 1 = n) : (x + 1) % n = 0 := by
  rw [← Nat.mod_add_mod, hn, Nat.mod_self]

/-- A block copied downwards onto a place it may overlap, highest byte first: its last bytes
are repeated. -/
theorem copyBytes_repeat_desc {a b : ℕ} (hab : a < b) : ∀ (k : ℕ) (st : ℕ → Word),
    copyBytes ((List.range k).map fun i => (a + i, b + i)).reverse st = fun j =>
      if a ≤ j ∧ j < a + k then st (b + (k - 1) - (k - 1 - (j - a)) % (b - a)) else st j
  | 0, st => by
      funext j
      have hn : ¬ (a ≤ j ∧ j < a + 0) := by omega
      rw [if_neg hn]
      rfl
  | k + 1, st => by
      rw [List.range_succ, List.map_append, List.reverse_append, List.map_singleton,
        List.reverse_singleton, List.singleton_append]
      have ih := copyBytes_repeat_desc hab k (Function.update st (a + k) (st (b + k)))
      rw [copyBytes] at ih ⊢
      rw [List.foldl_cons, ih]
      funext j
      have hpos : 0 < b - a := by omega
      by_cases hj : a ≤ j ∧ j < a + k
      · have hmod := Nat.mod_lt (k - 1 - (j - a)) hpos
        have hsucc : k + 1 - 1 - (j - a) = k - 1 - (j - a) + 1 := by omega
        have hle := Nat.mod_le (k - 1 - (j - a)) (b - a)
        rw [if_pos hj, if_pos (by omega), hsucc]
        rcases Nat.lt_or_ge ((k - 1 - (j - a)) % (b - a) + 1) (b - a) with hlt | hge
        · rw [succ_mod_of_lt hlt, Function.update_of_ne (by omega)]
          congr 1
          omega
        · have heq : b + (k - 1) - (k - 1 - (j - a)) % (b - a) = a + k := by omega
          rw [succ_mod_of_eq (by omega), heq, Function.update_self, Nat.sub_zero]
          rfl
      · rw [if_neg hj]
        by_cases hk : j = a + k
        · rw [hk, Function.update_self, if_pos (by omega)]
          congr 1
          have hzero : k + 1 - 1 - (a + k - a) = 0 := by omega
          rw [hzero, Nat.zero_mod]
          omega
        · rw [if_neg (by omega), Function.update_of_ne hk]

/-- The inverse of `createByteMoveP4Action`: the statements swapped, in their order. -/
def moveBack (moveInitIdx : ℕ) (moveOffset : ℤ) (moveBlockSize : ℕ) (st : ℕ → Word) : ℕ → Word :=
  copyBytes ((byteMoves moveInitIdx moveOffset moveBlockSize).map Prod.swap) st

section Move

variable {co size t : ℕ} {mo : ℤ}

theorem moveBack_eq (ht : (co : ℤ) + mo = t) (st : ℕ → Word) : moveBack co mo size st =
    if mo > 0 then
      copyBytes ((List.range (size / 8)).map fun i => (co / 8 + i, t / 8 + i)).reverse st
    else copyBytes ((List.range (size / 8)).map fun i => (co / 8 + i, t / 8 + i)) st := by
  have hstart : (co + mo).toNat = t := by rw [ht]; rfl
  simp only [moveBack, byteMoves, hstart]
  split
  · rw [List.map_reverse, List.map_map]
    rfl
  · rw [List.map_map]
    rfl

/-- Bytes outside the old place stay. -/
theorem moveBack_of_notMem (ht : (co : ℤ) + mo = t) (hmo : mo ≠ 0) (h8 : co % 8 = t % 8)
    (st : ℕ → Word) {j : ℕ} (hj : ¬ (co / 8 ≤ j ∧ j < co / 8 + size / 8)) :
    moveBack co mo size st j = st j := by
  rw [moveBack_eq ht]
  split
  · rw [copyBytes_repeat_desc (by omega)]
    exact if_neg hj
  · rw [copyBytes_repeat_asc (by omega)]
    exact if_neg hj

/-- A byte of the old place is copied from outside of it. -/
theorem exists_moveBack (ht : (co : ℤ) + mo = t) (hmo : mo ≠ 0) (h8 : co % 8 = t % 8) {j : ℕ}
    (hlow : co / 8 ≤ j) (hhigh : j < co / 8 + size / 8) :
    ∃ r, (t / 8 ≤ r ∧ r < t / 8 + size / 8) ∧ (r < co / 8 ∨ co / 8 + size / 8 ≤ r) ∧
      (t / 8 + size / 8 ≤ co / 8 ∨ co / 8 + size / 8 ≤ t / 8 → r = j - co / 8 + t / 8) ∧
      ∀ st, moveBack co mo size st j = st r := by
  by_cases hpos : mo > 0
  · have hlt : co / 8 < t / 8 := by omega
    have hmod := Nat.mod_lt (size / 8 - 1 - (j - co / 8)) (show 0 < t / 8 - co / 8 by omega)
    have hle := Nat.mod_le (size / 8 - 1 - (j - co / 8)) (t / 8 - co / 8)
    refine ⟨t / 8 + (size / 8 - 1) - (size / 8 - 1 - (j - co / 8)) % (t / 8 - co / 8),
      by omega, by omega, fun hapart => ?_, fun st => ?_⟩
    · rw [Nat.mod_eq_of_lt (by omega)]
      omega
    · rw [moveBack_eq ht, if_pos hpos, copyBytes_repeat_desc hlt]
      exact if_pos ⟨hlow, hhigh⟩
  · have hlt : t / 8 < co / 8 := by omega
    have hmod := Nat.mod_lt (j - co / 8) (show 0 < co / 8 - t / 8 by omega)
    have hle := Nat.mod_le (j - co / 8) (co / 8 - t / 8)
    refine ⟨t / 8 + (j - co / 8) % (co / 8 - t / 8), by omega, by omega, fun hapart => ?_,
      fun st => ?_⟩
    · rw [Nat.mod_eq_of_lt (by omega)]
      omega
    · rw [moveBack_eq ht, if_neg hpos, copyBytes_repeat_asc hlt]
      exact if_pos ⟨hlow, hhigh⟩

/-- What lies outside the old place stays. -/
theorem bitAt_moveBack_of_notMem (ht : (co : ℤ) + mo = t) (hmo : mo ≠ 0) (hco : 8 ∣ co)
    (h8 : 8 ∣ t) (hsize : 8 ∣ size) (st : ℕ → Word) {p : ℕ} (hp : ¬ (co ≤ p ∧ p < co + size)) :
    bitAt (moveBack co mo size st) p = bitAt st p := by
  rw [bitAt, moveBack_of_notMem ht hmo (by omega) st (by omega)]
  rfl

/-- **Each bit of the old place is copied from the new place**, from where it went if the two
places do not overlap, and in any case from outside the old place. -/
theorem exists_bitAt_moveBack (ht : (co : ℤ) + mo = t) (hmo : mo ≠ 0) (hco : 8 ∣ co)
    (h8 : 8 ∣ t) (hsize : 8 ∣ size) {p : ℕ} (hlow : co ≤ p) (hhigh : p < co + size) :
    ∃ q, (t ≤ q ∧ q < t + size) ∧ (q < co ∨ co + size ≤ q) ∧
      (t + size ≤ co ∨ co + size ≤ t → q = p - co + t) ∧
      ∀ st, bitAt (moveBack co mo size st) p = bitAt st q := by
  obtain ⟨r, hr, hout, hapart, hst⟩ := exists_moveBack ht hmo (by omega)
    (show co / 8 ≤ p / 8 by omega) (show p / 8 < co / 8 + size / 8 by omega)
  refine ⟨8 * r + p % 8, by omega, by omega, fun h => ?_, fun st => ?_⟩
  · have hrj := hapart (by omega)
    omega
  · have hdiv : (8 * r + p % 8) / 8 = r := by omega
    have hmod : (8 * r + p % 8) % 8 = p % 8 := by omega
    rw [bitAt, hst, bitAt, hdiv, hmod]

end Move

/-! ## The inverse of an action -/

/-- The bytes a list of calls moves, taken back in the order of the calls. -/
def undoMoves (calls : List (OpsCall H)) (st : ℕ → Word) : ℕ → Word :=
  calls.foldl (fun st c => match c with
    | .move moveInitIdx moveOffset moveBlockSize =>
        moveBack moveInitIdx moveOffset moveBlockSize st
    | .emit _ _ => st) st

section Calls

variable [DecidableEq F] (D : HeaderDecls H F)

/-- The inverse of a call. -/
def invertCall (s : FieldValues H F × (ℕ → Word)) : OpsCall H → FieldValues H F × (ℕ → Word)
  | .move moveInitIdx moveOffset moveBlockSize =>
      (s.1, moveBack moveInitIdx moveOffset moveBlockSize s.2)
  | .emit h start => (readStats s.2 (D.emitHeader h start) s.1, s.2)

/-- The inverse of an action: the calls stay in their order. -/
def invertCalls (calls : List (OpsCall H)) (s : FieldValues H F × (ℕ → Word)) :
    FieldValues H F × (ℕ → Word) :=
  calls.foldl (invertCall D) s

theorem invertCalls_append (l l' : List (OpsCall H)) (s : FieldValues H F × (ℕ → Word)) :
    invertCalls D (l ++ l') s = invertCalls D l' (invertCalls D l s) :=
  List.foldl_append

theorem invertCalls_snd : ∀ (calls : List (OpsCall H)) (s : FieldValues H F × (ℕ → Word)),
    (invertCalls D calls s).2 = undoMoves calls s.2
  | [], _ => rfl
  | .move _ _ _ :: calls, _ => invertCalls_snd calls _
  | .emit _ _ :: calls, _ => invertCalls_snd calls _

/-- A header that is not emitted is not read back. -/
theorem invertCalls_fst_of_notMem {h : H} : ∀ (calls : List (OpsCall H))
    (s : FieldValues H F × (ℕ → Word)), (∀ start, OpsCall.emit h start ∉ calls) →
    (invertCalls D calls s).1 h = s.1 h
  | [], _, _ => rfl
  | .move _ _ _ :: calls, _, hnot =>
      invertCalls_fst_of_notMem calls _ fun start hmem =>
        hnot start (List.mem_cons_of_mem _ hmem)
  | .emit h' start' :: calls, s, hnot => by
      have hne : h' ≠ h := by
        rintro rfl
        exact hnot start' List.mem_cons_self
      have ih := invertCalls_fst_of_notMem calls (invertCall D s (.emit h' start'))
        fun start hmem => hnot start (List.mem_cons_of_mem _ hmem)
      exact ih.trans (readStats_emitHeader_of_ne D hne _ _ _)

/-- **A header has the value that is read with its last emission.** -/
theorem hdrBits_invertCalls {h : H} (hnodup : ((D.fields h).map Prod.fst).Nodup)
    {l l' : List (OpsCall H)} {start : ℕ} (hlast : ∀ start', OpsCall.emit h start' ∉ l')
    (s : FieldValues H F × (ℕ → Word)) :
    D.hdrBits (invertCalls D (l ++ .emit h start :: l') s).1 h =
      readBits (bitAt (undoMoves l s.2)) start (D.width h) := by
  have hvals := invertCalls_fst_of_notMem D l' (invertCall D (invertCalls D l s) (.emit h start))
    hlast
  have hsame : (invertCalls D (l ++ .emit h start :: l') s).1 h =
      (invertCall D (invertCalls D l s) (.emit h start)).1 h := by
    rw [invertCalls_append]
    exact hvals
  rw [← invertCalls_snd D, ← hdrBits_readStats D hnodup _ start (invertCalls D l s).1]
  simp only [HeaderDecls.hdrBits, hsame, invertCall]

end Calls

/-! ## The table of a deparser -/

/-- What an action of the emit table calls: emissions of headers at offsets, in their order.
The offset of the packet is set to a constant, so its inverse does nothing. -/
def emissions : EmitAction H → List (H × ℕ)
  | .setOffset _ => []
  | .emit h start => [(h, start)]
  | .chain ancestor h start => (h, start) :: emissions ancestor

/-- The emissions of a row, if it has an action. -/
def rowEmissions (r : EmitRow H) : List (H × ℕ) := (r.action.map emissions).getD []

/-- Emissions as calls. -/
def emissionCalls (l : List (H × ℕ)) : List (OpsCall H) := l.map fun x => .emit x.1 x.2

/-- An entry of the table of a deparser: a row of the emit table if there are no columns for
operations, and else a row with a record of operations. -/
inductive TableRow (H : Type) where
  | emit (r : EmitRow H)
  | ops (e : OpsRow H)

/-- The row of `deparserWoVOPs` that the same validity flags hit. -/
def TableRow.emitRow : TableRow H → EmitRow H
  | .emit r => r
  | .ops e => e.row

/-- `ControlStateReconInfo`, as far as the two deparsers go.  `deparserWoVOPs` is converted
from the same input without operations.  The fields of a header have different names. -/
structure ReconInput (H F : Type) extends OpsInput H F where
  fields_nodup : ∀ h, ((fields h).map Prod.fst).Nodup

variable (D : ReconInput H F)

/-- The table of `deparser`. -/
def ReconInput.table : List (TableRow H) :=
  if (hdrOpKeyNames D.xoredValidityOps).isEmpty then D.emitTable.map .emit
  else D.opsTable.map .ops

/-- What `deparser` calls for a row. -/
def ReconInput.deparser : TableRow H → List (OpsCall H)
  | .emit r => emissionCalls (rowEmissions r)
  | .ops e => ((D.findAction e.name).map OpsAction.calls).getD []

/-- `getDeparser`, for a row: `woVOPs` says that the second part performs operations. -/
def ReconInput.getDeparser (woVOPs : Bool) (t : TableRow H) : List (OpsCall H) :=
  if woVOPs then emissionCalls (rowEmissions t.emitRow) else D.deparser t

variable [DecidableEq F]

/-- `getParser`, for a row. -/
def ReconInput.getParser (woVOPs : Bool) (t : TableRow H) :
    FieldValues H F × (ℕ → Word) → FieldValues H F × (ℕ → Word) :=
  invertCalls D.toHeaderDecls (D.getDeparser woVOPs t)

/-- **Nothing is lost between the parts.**  The second part starts with values `vals₀` that are
those of the first part for headers that were not emitted.  The parser restores every field of
the headers that were emitted, and the deparser at the end makes the same stack as if it were
run at once. -/
def ReconInput.Lossless (woVOPs : Bool) (t : TableRow H) : Prop :=
  ∀ (vals vals₀ : FieldValues H F) (st : ℕ → Word),
    (∀ h, (∀ start, OpsCall.emit h start ∉ D.getDeparser woVOPs t) → vals₀ h = vals h) →
    let s := D.getParser woVOPs t
      (vals₀, execCalls D.toHeaderDecls vals (D.getDeparser woVOPs t) st)
    (∀ h start, OpsCall.emit h start ∈ D.getDeparser woVOPs t → ∀ fw ∈ D.fields h,
        sliceBits (s.1 h fw.1) 0 fw.2 = sliceBits (vals h fw.1) 0 fw.2) ∧
      bitAt (execCalls D.toHeaderDecls s.1 (D.deparser t) s.2) =
        bitAt (execCalls D.toHeaderDecls vals (D.deparser t) st)

end Partitioning
end MicroP4
