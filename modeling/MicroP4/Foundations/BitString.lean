import Mathlib

/-!
# Bit strings in network order

A packet is a string of bits, counted from the first bit on the wire; a value of type
`bit<w>` counts its bits from the least significant one.  Programs that copy fields to
and from a stack of bytes move slices between the two countings.  This file keeps the
two countings apart and relates them once:

* `Bits` is a string in network order, `writeBits p l s` overwrites `s` from position
  `p` with the list `l`;
* `Word` is a value, counted from the least significant bit, and `sliceBits v lo n` is
  the slice `v[lo+n-1:lo]` spelled in network order;
* `bitAt` reads a stack of bytes as a bit string, and `bitAt_assignSlice` says that
  assigning a slice of one byte is a `writeBits`.

Nothing here is about a particular program.
-/

namespace MicroP4
namespace BitString

/-- A bit string in network order, unbounded to the right. -/
abbrev Bits := ℕ → Bool

/-- A value; bit `0` is the least significant. -/
abbrev Word := ℕ → Bool

/-! ## Overwriting a stretch -/

/-- `s` with the bits from `p` on replaced by `l`. -/
def writeBits (p : ℕ) (l : List Bool) (s : Bits) : Bits := fun q =>
  if p ≤ q ∧ q < p + l.length then l.getD (q - p) false else s q

variable {p q : ℕ} {l l' : List Bool} {s : Bits}

@[simp] theorem writeBits_nil : writeBits p [] s = s := by
  funext q
  rw [writeBits, if_neg (by simp)]

theorem writeBits_of_lt (h : q < p) : writeBits p l s q = s q := by
  rw [writeBits, if_neg (by omega)]

theorem writeBits_of_ge (h : p + l.length ≤ q) : writeBits p l s q = s q := by
  rw [writeBits, if_neg (by omega)]

theorem writeBits_of_mem (h₁ : p ≤ q) (h₂ : q < p + l.length) :
    writeBits p l s q = l.getD (q - p) false := by
  rw [writeBits, if_pos ⟨h₁, h₂⟩]

/-- Writing a concatenation, first part first. -/
theorem writeBits_append :
    writeBits p (l ++ l') s = writeBits (p + l.length) l' (writeBits p l s) := by
  funext q
  rcases Nat.lt_or_ge q p with h₁ | h₁
  · rw [writeBits_of_lt h₁, writeBits_of_lt (by omega), writeBits_of_lt h₁]
  rcases Nat.lt_or_ge q (p + l.length) with h₂ | h₂
  · rw [writeBits_of_mem h₁ (by rw [List.length_append]; omega), writeBits_of_lt h₂,
      writeBits_of_mem h₁ h₂, List.getD_append _ _ _ _ (by omega)]
  rcases Nat.lt_or_ge q (p + l.length + l'.length) with h₃ | h₃
  · rw [writeBits_of_mem h₁ (by rw [List.length_append]; omega), writeBits_of_mem h₂ h₃,
      List.getD_append_right _ _ _ _ (by omega), Nat.sub_sub]
  · rw [writeBits_of_ge (by rw [List.length_append]; omega), writeBits_of_ge h₃,
      writeBits_of_ge h₂]

/-- Writing a concatenation, second part first. -/
theorem writeBits_append' :
    writeBits p (l ++ l') s = writeBits p l (writeBits (p + l.length) l' s) := by
  funext q
  rw [writeBits_append]
  rcases Nat.lt_or_ge q (p + l.length) with h | h
  · rw [writeBits_of_lt h]
    rcases Nat.lt_or_ge q p with h₁ | h₁
    · rw [writeBits_of_lt h₁, writeBits_of_lt h₁, writeBits_of_lt h]
    · rw [writeBits_of_mem h₁ h, writeBits_of_mem h₁ h]
  · rw [writeBits_of_ge h]
    rcases Nat.lt_or_ge q (p + l.length + l'.length) with h₁ | h₁
    · rw [writeBits_of_mem h h₁, writeBits_of_mem h h₁]
    · rw [writeBits_of_ge h₁, writeBits_of_ge h₁, writeBits_of_ge h]

/-- Writes to stretches that do not meet can be exchanged. -/
theorem writeBits_comm {p' : ℕ} (h : p + l.length ≤ p' ∨ p' + l'.length ≤ p) :
    writeBits p l (writeBits p' l' s) = writeBits p' l' (writeBits p l s) := by
  funext q
  by_cases h₁ : p ≤ q ∧ q < p + l.length
  · have h₂ : ¬ (p' ≤ q ∧ q < p' + l'.length) := by omega
    rw [writeBits, if_pos h₁, writeBits, if_neg h₂, writeBits, if_pos h₁]
  · rw [writeBits, if_neg h₁]
    by_cases h₂ : p' ≤ q ∧ q < p' + l'.length
    · rw [writeBits, if_pos h₂, writeBits, if_pos h₂]
    · rw [writeBits, if_neg h₂, writeBits, if_neg h₂, writeBits, if_neg h₁]

/-- Several writes, one after the other. -/
def writeAll (l : List (ℕ × List Bool)) (s : Bits) : Bits :=
  l.foldl (fun s w => writeBits w.1 w.2 s) s

/-- Writes to stretches that do not meet can be made in any order. -/
theorem writeAll_perm {l l' : List (ℕ × List Bool)} (hp : l.Perm l')
    (hd : l.Pairwise fun w w' => w.1 + w.2.length ≤ w'.1) (s : Bits) :
    writeAll l s = writeAll l' s := by
  refine hp.foldl_eq' ?_ s
  intro w hw w' hw' z
  rcases List.pairwise_iff_getElem.1 hd with hd
  obtain ⟨i, hi, rfl⟩ := List.getElem_of_mem hw
  obtain ⟨j, hj, rfl⟩ := List.getElem_of_mem hw'
  rcases Nat.lt_trichotomy i j with h | h | h
  · exact writeBits_comm (Or.inr (hd i j hi hj h))
  · subst h
    rfl
  · exact writeBits_comm (Or.inl (hd j i hj hi h))

/-- A bit in none of the stretches stays. -/
theorem writeAll_of_forall : ∀ {l : List (ℕ × List Bool)} {s : Bits},
    (∀ w ∈ l, w.1 ≤ p → w.1 + w.2.length ≤ p) → writeAll l s p = s p
  | [], _, _ => rfl
  | w :: l, s, h => by
      have ih := writeAll_of_forall (s := writeBits w.1 w.2 s) fun v hv =>
        h v (List.mem_cons_of_mem _ hv)
      have hw : writeBits w.1 w.2 s p = s p := by
        rcases Nat.lt_or_ge p w.1 with hlt | hge
        · exact writeBits_of_lt hlt
        · exact writeBits_of_ge (h w List.mem_cons_self hge)
      rw [hw] at ih
      exact ih

/-- Where only one bit value is written, a bit that has it or is written to has it in the
end. -/
theorem writeAll_eq_of_forall {c : Bool} : ∀ {l : List (ℕ × List Bool)} {s : Bits},
    (∀ w ∈ l, ∀ b ∈ w.2, b = c) →
    (s p = c ∨ ∃ w ∈ l, w.1 ≤ p ∧ p < w.1 + w.2.length) → writeAll l s p = c
  | [], s, _, h => by
      rcases h with h | ⟨w, hw, -⟩
      · exact h
      · exact absurd hw List.not_mem_nil
  | w :: l, s, hall, h => by
      refine writeAll_eq_of_forall (s := writeBits w.1 w.2 s)
        (fun v hv => hall v (List.mem_cons_of_mem _ hv)) ?_
      by_cases hp : w.1 ≤ p ∧ p < w.1 + w.2.length
      · left
        have hlt : p - w.1 < w.2.length := by omega
        rw [writeBits_of_mem hp.1 hp.2, List.getD_eq_getElem _ _ hlt]
        exact hall w List.mem_cons_self _ (List.getElem_mem hlt)
      · rcases h with h | ⟨v, hv, hvp⟩
        · left
          rw [writeBits, if_neg hp]
          exact h
        · rcases List.mem_cons.mp hv with rfl | hv
          · exact absurd hvp hp
          · exact Or.inr ⟨v, hv, hvp⟩

theorem writeAll_append (l l' : List (ℕ × List Bool)) (s : Bits) :
    writeAll (l ++ l') s = writeAll l' (writeAll l s) :=
  List.foldl_append

/-- What is written does not depend on what was there. -/
theorem writeAll_congr_of_mem : ∀ {l : List (ℕ × List Bool)} (s s' : Bits),
    (∃ w ∈ l, w.1 ≤ p ∧ p < w.1 + w.2.length) ∨ s p = s' p → writeAll l s p = writeAll l s' p
  | [], s, s', h => by
      rcases h with ⟨w, hw, -⟩ | h
      · exact absurd hw List.not_mem_nil
      · exact h
  | w :: l, s, s', h => by
      refine writeAll_congr_of_mem (writeBits w.1 w.2 s) (writeBits w.1 w.2 s') ?_
      by_cases hp : w.1 ≤ p ∧ p < w.1 + w.2.length
      · right
        rw [writeBits_of_mem hp.1 hp.2, writeBits_of_mem hp.1 hp.2]
      · rw [writeBits, if_neg hp, writeBits, if_neg hp]
        rcases h with ⟨v, hv, hvp⟩ | h
        · rcases List.mem_cons.mp hv with rfl | hv
          · exact absurd hvp hp
          · exact Or.inl ⟨v, hv, hvp⟩
        · exact Or.inr h

/-- Writing again changes nothing. -/
theorem writeAll_idem (l : List (ℕ × List Bool)) (s : Bits) :
    writeAll l (writeAll l s) = writeAll l s := by
  funext p
  by_cases hp : ∃ w ∈ l, w.1 ≤ p ∧ p < w.1 + w.2.length
  · exact writeAll_congr_of_mem _ _ (Or.inl hp)
  · exact writeAll_of_forall fun w hw hle => by
      by_contra hlt
      exact hp ⟨w, hw, hle, by omega⟩

/-! ## Reading a stretch -/

/-- The `n` bits from position `p` on. -/
def readBits (s : Bits) (p n : ℕ) : List Bool := (List.range n).map fun i => s (p + i)

@[simp] theorem length_readBits (s : Bits) (p n : ℕ) : (readBits s p n).length = n := by
  simp [readBits]

theorem readBits_add (s : Bits) (p n m : ℕ) :
    readBits s p (n + m) = readBits s p n ++ readBits s (p + n) m := by
  rw [readBits, List.range_add, List.map_append, List.map_map]
  congr 1
  apply List.map_congr_left
  intro i _
  rw [Function.comp_apply, Nat.add_assoc]

/-- A part of what is written is read back. -/
theorem readBits_writeBits_append (p : ℕ) (a b c : List Bool) (s : Bits) :
    readBits (writeBits p (a ++ (b ++ c)) s) (p + a.length) b.length = b := by
  refine List.ext_getElem (length_readBits _ _ _) fun i hi hi' => ?_
  rw [length_readBits] at hi
  have hmem : p + a.length + i < p + (a ++ (b ++ c)).length := by
    rw [List.length_append, List.length_append]
    omega
  have hsub : p + a.length + i - p = a.length + i := by omega
  simp only [readBits, List.getElem_map, List.getElem_range]
  rw [writeBits_of_mem (by omega) hmem, hsub, List.getD_append_right _ _ _ _ (by omega),
    Nat.add_sub_cancel_left, List.getD_append _ _ _ _ hi, List.getD_eq_getElem _ _ hi]

theorem readBits_congr {s s' : Bits} {p n : ℕ} (h : ∀ q, p ≤ q → q < p + n → s q = s' q) :
    readBits s p n = readBits s' p n :=
  List.map_congr_left fun i hi => h (p + i) (Nat.le_add_right p i)
    (Nat.add_lt_add_left (List.mem_range.mp hi) p)

theorem readBits_writeBits (p : ℕ) (l : List Bool) (s : Bits) :
    readBits (writeBits p l s) p l.length = l := by
  have hread := readBits_writeBits_append p [] l [] s
  rwa [List.nil_append, List.append_nil, List.length_nil, Nat.add_zero] at hread

/-- Writing back what is there. -/
theorem writeBits_readBits (s : Bits) (p n : ℕ) : writeBits p (readBits s p n) s = s := by
  funext q
  by_cases hq : p ≤ q ∧ q < p + n
  · rw [writeBits_of_mem hq.1 (by rw [length_readBits]; exact hq.2),
      List.getD_eq_getElem _ _ (by rw [length_readBits]; omega)]
    simp only [readBits, List.getElem_map, List.getElem_range, Nat.add_sub_cancel' hq.1]
  · rw [writeBits, length_readBits, if_neg hq]

section Stretches

variable {α : Type} {w : α → ℕ} {f : α → List Bool}

/-- Stretches that stand back to back make up one. -/
theorem flatMap_eq_readBits (s : Bits) : ∀ (l : List α) (p : ℕ),
    (∀ l₁ a l₂, l = l₁ ++ a :: l₂ → f a = readBits s (p + (l₁.map w).sum) (w a)) →
    l.flatMap f = readBits s p (l.map w).sum
  | [], p, _ => rfl
  | a :: l, p, h => by
      have hhead : f a = readBits s p (w a) := h [] a l rfl
      have hrest : l.flatMap f = readBits s (p + w a) (l.map w).sum :=
        flatMap_eq_readBits s l _ fun l₁ b l₂ hl => by
          have hb := h (a :: l₁) b l₂ (by rw [hl, List.cons_append])
          rwa [List.map_cons, List.sum_cons, ← Nat.add_assoc] at hb
      rw [List.flatMap_cons, hhead, hrest, List.map_cons, List.sum_cons, readBits_add]

end Stretches

/-! ## Slices of values -/

/-- The slice `v[lo+n-1:lo]`, most significant bit first. -/
def sliceBits (v : Word) (lo n : ℕ) : List Bool :=
  (List.range n).map fun j => v (lo + n - 1 - j)

@[simp] theorem length_sliceBits (v : Word) (lo n : ℕ) : (sliceBits v lo n).length = n := by
  simp [sliceBits]

theorem getD_sliceBits {v : Word} {lo n j : ℕ} (h : j < n) :
    (sliceBits v lo n).getD j false = v (lo + n - 1 - j) := by
  rw [List.getD_eq_getElem _ _ (by simpa using h)]
  simp [sliceBits]

/-- The top `n` bits of a slice come first. -/
theorem sliceBits_add (v : Word) (lo n m : ℕ) :
    sliceBits v lo (n + m) = sliceBits v (lo + m) n ++ sliceBits v lo m := by
  rw [sliceBits, List.range_add, List.map_append, List.map_map]
  congr 1
  · apply List.map_congr_left
    intro j _
    congr 1
    omega
  · apply List.map_congr_left
    intro j _
    rw [Function.comp_apply]
    congr 1
    omega

/-- The value with given bits, most significant bit first. -/
def ofNetwork (l : List Bool) : Word := fun i => l.getD (l.length - 1 - i) false

theorem sliceBits_ofNetwork (l : List Bool) : sliceBits (ofNetwork l) 0 l.length = l := by
  refine List.ext_getElem (length_sliceBits _ _ _) fun i hi hi' => ?_
  have hsub : l.length - 1 - (0 + l.length - 1 - i) = i := by omega
  simp only [sliceBits, List.getElem_map, List.getElem_range, ofNetwork, hsub]
  exact List.getD_eq_getElem _ _ hi'

/-! ## Bytes -/

/-- `x` with the slice `x[hi:lo]` replaced by the bits of `y` from `rlo` on. -/
def assignSlice (x : Word) (hi lo : ℕ) (y : Word) (rlo : ℕ) : Word := fun i =>
  if lo ≤ i ∧ i ≤ hi then y (rlo + (i - lo)) else x i

/-- The bit at position `p` of a stack of bytes, each sent with its top bit first. -/
def bitAt (st : ℕ → Word) : Bits := fun p => st (p / 8) (7 - p % 8)

/-- The stack of bytes with given bits. -/
def ofBits (s : Bits) : ℕ → Word := fun b k => s (8 * b + (7 - k))

@[simp] theorem bitAt_ofBits (s : Bits) : bitAt (ofBits s) = s := by
  funext p
  rw [bitAt, ofBits]
  congr 1
  omega

/-- **Assigning a slice of one byte overwrites a stretch of the bit string.**  The slice
starts `p % 8` bits below the top of byte `p / 8` and is `n` bits long. -/
theorem bitAt_assignSlice {st : ℕ → Word} {hi lo n rlo : ℕ} {y : Word}
    (hhi : hi + p % 8 = 7) (hlo : lo + n = hi + 1) :
    bitAt (Function.update st (p / 8) (assignSlice (st (p / 8)) hi lo y rlo)) =
      writeBits p (sliceBits y rlo n) (bitAt st) := by
  funext q
  by_cases hq : q / 8 = p / 8
  · rw [bitAt, hq, Function.update_self, assignSlice]
    by_cases hin : p ≤ q ∧ q < p + n
    · rw [if_pos (by omega), writeBits_of_mem hin.1 (by rw [length_sliceBits]; exact hin.2),
        getD_sliceBits (by omega)]
      congr 1
      omega
    · rw [if_neg (by omega), writeBits, if_neg (by rw [length_sliceBits]; exact hin), bitAt, hq]
  · rw [bitAt, Function.update_of_ne hq, writeBits, if_neg, bitAt]
    rw [length_sliceBits]
    omega

/-- A slice of one byte is a stretch of the bit string. -/
theorem sliceBits_eq_readBits (st : ℕ → Word) {b lo n : ℕ} (h : lo + n ≤ 8) :
    sliceBits (st b) lo n = readBits (bitAt st) (8 * b + (8 - lo - n)) n := by
  refine List.map_congr_left fun j hj => ?_
  have hjn : j < n := List.mem_range.mp hj
  have hdiv : (8 * b + (8 - lo - n) + j) / 8 = b := by omega
  have hmod : 7 - (8 * b + (8 - lo - n) + j) % 8 = lo + n - 1 - j := by omega
  rw [bitAt, hdiv, hmod]

end BitString
end MicroP4
