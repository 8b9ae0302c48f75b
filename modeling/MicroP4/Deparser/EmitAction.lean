import MicroP4.Foundations.BitString

/-!
# The action that emits one header

`DeparserConverter::createP4Action(mcs, currentEmitOffset)` turns the emission of a
header at a bit offset into assignments of slices of its fields to slices of the bytes
of `msa_hdr_stack`.  A field may start in the middle of a byte and end in the middle of
another; the generator finishes the begun byte, copies whole bytes, and puts the rest
at the top of one more byte.

The main result is `bitAt_emitHeader`: whatever the offset, the assignments together
write the fields of the header, most significant bit first and back to back, from that
offset on, and nothing else.
-/

namespace MicroP4
namespace Deparser

open BitString

/-- The header instances a deparser emits.  An instance is known by its name, as in the
converter, which keeps `hdrSizeByInstName` and the validity flags by name; `fields` are
the fields of its type with their widths. -/
structure HeaderDecls (H F : Type) where
  fields : H → List (F × ℕ)

variable {H F : Type}

/-- `hdrSizeByInstName`. -/
def HeaderDecls.width (D : HeaderDecls H F) (h : H) : ℕ := ((D.fields h).map Prod.snd).sum

/-- Every header is a number of whole bytes. -/
def HeaderDecls.WholeBytes (D : HeaderDecls H F) : Prop := ∀ h, 8 ∣ D.width h

/-- The values of the fields of all headers. -/
abbrev FieldValues (H F : Type) := H → F → Word

/-- The fields of a header in network order. -/
def HeaderDecls.hdrBits (D : HeaderDecls H F) (vals : FieldValues H F) (h : H) : List Bool :=
  (D.fields h).flatMap fun fw => sliceBits (vals h fw.1) 0 fw.2

@[simp] theorem HeaderDecls.length_hdrBits (D : HeaderDecls H F) (vals : FieldValues H F)
    (h : H) : (D.hdrBits vals h).length = D.width h := by
  rw [hdrBits, width, List.length_flatMap]
  simp only [length_sliceBits]

/-- If all values are ones, so are the headers. -/
theorem HeaderDecls.eq_true_of_mem_hdrBits (D : HeaderDecls H F) {h : H} {b : Bool}
    (hb : b ∈ D.hdrBits (fun _ _ _ => true) h) : b = true := by
  simp only [hdrBits, sliceBits, List.mem_flatMap, List.mem_map] at hb
  obtain ⟨_, _, _, _, hb⟩ := hb
  exact hb.symm

/-- `msa_hdr_stack[byte].data[hi:lo] = h.f[rhi:rlo]`. -/
structure EmitStat (H F : Type) where
  byte : ℕ
  hi : ℕ
  lo : ℕ
  h : H
  f : F
  rhi : ℕ
  rlo : ℕ
  deriving DecidableEq, Repr

/-- Running an assignment on the byte stack. -/
def EmitStat.exec (vals : FieldValues H F) (st : ℕ → Word) (a : EmitStat H F) : ℕ → Word :=
  Function.update st a.byte (assignSlice (st a.byte) a.hi a.lo (vals a.h a.f) a.rlo)

/-- Running assignments in order. -/
def execStats (vals : FieldValues H F) (l : List (EmitStat H F)) (st : ℕ → Word) : ℕ → Word :=
  l.foldl (EmitStat.exec vals) st

/-! ## The generator -/

section Generator

variable (h : H) (f : F)

/-- The loop over whole bytes, `n` rounds of it, and the rest of the field: `w` bits of
the field are left, and go to bytes from `byte` on. -/
def emitBytes : (n w byte : ℕ) → List (EmitStat H F)
  | 0, w, byte => if w ≠ 0 then [⟨byte, 7, 8 - w, h, f, w - 1, 0⟩] else []
  | n + 1, w, byte => ⟨byte, 7, 0, h, f, w - 1, w - 8⟩ :: emitBytes n (w - 8) (byte + 1)

/-- The assignments for one field of width `w` at bit offset `start`. -/
def emitField (start w : ℕ) : List (EmitStat H F) :=
  let startByteIndex := start / 8
  let startByteBitIndex := 8 - start % 8
  if 8 - startByteBitIndex ≠ 0 then
    if startByteBitIndex ≤ w then
      ⟨startByteIndex, startByteBitIndex - 1, 0, h, f, w - 1, w - startByteBitIndex⟩ ::
        emitBytes h f ((w - startByteBitIndex) / 8) (w - startByteBitIndex)
          (startByteIndex + 1)
    else
      [⟨startByteIndex, startByteBitIndex - 1, startByteBitIndex - w, h, f, w - 1, 0⟩]
  else emitBytes h f (w / 8) w startByteIndex

/-- The assignments for the fields of a header, from bit offset `start` on. -/
def emitFields : (start : ℕ) → List (F × ℕ) → List (EmitStat H F)
  | _, [] => []
  | start, (f, w) :: fs => emitField h f start w ++ emitFields (start + w) fs

end Generator

/-- The body of the action for header `h` at `currentEmitOffset`. -/
def HeaderDecls.emitHeader (D : HeaderDecls H F) (h : H) (currentEmitOffset : ℕ) :
    List (EmitStat H F) :=
  emitFields h currentEmitOffset (D.fields h)

/-! ## What the assignments write -/

variable {vals : FieldValues H F} {h : H} {f : F}

@[simp] theorem execStats_nil (st : ℕ → Word) : execStats vals [] st = st := rfl

theorem execStats_cons (a : EmitStat H F) (l : List (EmitStat H F)) (st : ℕ → Word) :
    execStats vals (a :: l) st = execStats vals l (a.exec vals st) := rfl

theorem execStats_append (l l' : List (EmitStat H F)) (st : ℕ → Word) :
    execStats vals (l ++ l') st = execStats vals l' (execStats vals l st) :=
  List.foldl_append

/-- One assignment of `n` bits of a field at bit offset `p`. -/
theorem bitAt_exec {p byte hi lo n rhi rlo : ℕ} (hbyte : byte = p / 8) (hhi : hi + p % 8 = 7)
    (hlo : lo + n = hi + 1) (st : ℕ → Word) :
    bitAt (EmitStat.exec vals st ⟨byte, hi, lo, h, f, rhi, rlo⟩) =
      writeBits p (sliceBits (vals h f) rlo n) (bitAt st) := by
  subst hbyte
  exact bitAt_assignSlice hhi hlo

/-- From a byte boundary, the rest of a field is written out. -/
theorem bitAt_emitBytes : ∀ {n w p : ℕ} (st : ℕ → Word), w / 8 = n → p % 8 = 0 →
    bitAt (execStats vals (emitBytes h f n w (p / 8)) st) =
      writeBits p (sliceBits (vals h f) 0 w) (bitAt st)
  | 0, w, p, st, hn, hp => by
      rw [emitBytes]
      by_cases hw : w ≠ 0
      · rw [if_pos hw, execStats_cons, execStats_nil,
          bitAt_exec (n := w) rfl (by omega) (by omega)]
      · have hw : w = 0 := by omega
        subst hw
        simp [sliceBits]
  | n + 1, w, p, st, hn, hp => by
      obtain ⟨m, rfl⟩ : ∃ m, w = 8 + m := ⟨w - 8, by omega⟩
      have hsub : 8 + m - 8 = m := by omega
      have hnext : p / 8 + 1 = (p + 8) / 8 := by omega
      rw [emitBytes, execStats_cons, hsub, hnext, bitAt_emitBytes _ (by omega) (by omega),
        bitAt_exec (n := 8) rfl (by omega) (by omega), sliceBits_add, writeBits_append,
        length_sliceBits, Nat.zero_add]

/-- A field is written out from any bit offset. -/
theorem bitAt_emitField (start w : ℕ) (st : ℕ → Word) :
    bitAt (execStats vals (emitField h f start w) st) =
      writeBits start (sliceBits (vals h f) 0 w) (bitAt st) := by
  simp only [emitField]
  by_cases halign : 8 - (8 - start % 8) ≠ 0
  · rw [if_pos halign]
    by_cases hw : 8 - start % 8 ≤ w
    · -- the begun byte is finished first
      obtain ⟨m, rfl⟩ : ∃ m, w = (8 - start % 8) + m := ⟨w - (8 - start % 8), by omega⟩
      have hsub : 8 - start % 8 + m - (8 - start % 8) = m := by omega
      have hnext : start / 8 + 1 = (start + (8 - start % 8)) / 8 := by omega
      rw [if_pos hw, execStats_cons, hsub, hnext, bitAt_emitBytes _ rfl (by omega),
        bitAt_exec (n := 8 - start % 8) rfl (by omega) (by omega), sliceBits_add,
        writeBits_append, length_sliceBits, Nat.zero_add]
    · rw [if_neg hw, execStats_cons, execStats_nil,
        bitAt_exec (n := w) rfl (by omega) (by omega)]
  · rw [if_neg halign]
    exact bitAt_emitBytes st rfl (by omega)

theorem bitAt_emitFields : ∀ (fs : List (F × ℕ)) (start : ℕ) (st : ℕ → Word),
    bitAt (execStats vals (emitFields h start fs) st) =
      writeBits start (fs.flatMap fun fw => sliceBits (vals h fw.1) 0 fw.2) (bitAt st)
  | [], start, st => by simp [emitFields]
  | (f, w) :: fs, start, st => by
      rw [emitFields, execStats_append, bitAt_emitFields fs, bitAt_emitField,
        List.flatMap_cons, writeBits_append, length_sliceBits]

/-- **The action for a header writes the header, and nothing else.** -/
theorem bitAt_emitHeader (D : HeaderDecls H F) (h : H) (start : ℕ) (st : ℕ → Word) :
    bitAt (execStats vals (D.emitHeader h start) st) =
      writeBits start (D.hdrBits vals h) (bitAt st) :=
  bitAt_emitFields (D.fields h) start st

/-! ## A newly created action -/

/-- `createP4Action(mcs, currentEmitOffset)`, when no action of its name is declared: the
assignments for the fields, and the offset behind the last field, which is handed back. -/
def newP4Action (h : H) : (currentEmitOffset : ℕ) → List (F × ℕ) → List (EmitStat H F) × ℕ
  | start, [] => ([], start)
  | start, (f, w) :: fs =>
      (emitField h f start w ++ (newP4Action h (start + w) fs).1, (newP4Action h (start + w) fs).2)

theorem newP4Action_eq (h : H) : ∀ (fs : List (F × ℕ)) (start : ℕ),
    newP4Action h start fs = (emitFields h start fs, start + (fs.map Prod.snd).sum)
  | [], start => rfl
  | (f, w) :: fs, start => by
      rw [newP4Action, newP4Action_eq h fs, emitFields, List.map_cons, List.sum_cons,
        Nat.add_assoc]

/-- **A new action puts every field in its place.**  Each field goes to the bits from the end
of the fields in front of it on, the other bits stay, and the offset moves by all widths. -/
theorem newP4Action_places (vals : FieldValues H F) (h : H) (start : ℕ) (fs : List (F × ℕ))
    (st : ℕ → Word) :
    (∀ l f w l', fs = l ++ (f, w) :: l' →
      readBits (bitAt (execStats vals (newP4Action h start fs).1 st))
        (start + (l.map Prod.snd).sum) w = sliceBits (vals h f) 0 w) ∧
      (∀ p, p < start ∨ start + (fs.map Prod.snd).sum ≤ p →
        bitAt (execStats vals (newP4Action h start fs).1 st) p = bitAt st p) ∧
      (newP4Action h start fs).2 = start + (fs.map Prod.snd).sum := by
  have hlen : ∀ l : List (F × ℕ), (l.flatMap fun fw => sliceBits (vals h fw.1) 0 fw.2).length =
      (l.map Prod.snd).sum := by
    intro l
    rw [List.length_flatMap]
    simp only [length_sliceBits]
  rw [newP4Action_eq, bitAt_emitFields]
  refine ⟨fun l f w l' hfs => ?_, fun p hp => ?_, rfl⟩
  · rw [hfs, List.flatMap_append, List.flatMap_cons, ← hlen l]
    have hread := readBits_writeBits_append start
      (l.flatMap fun fw => sliceBits (vals h fw.1) 0 fw.2) (sliceBits (vals h f) 0 w)
      (l'.flatMap fun fw => sliceBits (vals h fw.1) 0 fw.2) (bitAt st)
    rwa [length_sliceBits] at hread
  · rcases hp with hp | hp
    · exact writeBits_of_lt hp
    · exact writeBits_of_ge (by rw [hlen]; exact hp)

/-- Fields of 3, 11 and 2 bits from bit 5 on: the second one spans two bytes, both in part. -/
theorem newP4Action_places_three :
    readBits (bitAt (execStats (fun (_ : Unit) (_ : Fin 3) _ => true)
      (newP4Action () 5 [(0, 3), (1, 11), (2, 2)]).1 fun _ _ => false)) 8 11 =
        sliceBits (fun _ => true) 0 11 :=
  (newP4Action_places (fun _ _ _ => true) () 5 [(0, 3), (1, 11), (2, 2)] _).1
    [(0, 3)] 1 11 [(2, 2)] rfl

end Deparser
end MicroP4
