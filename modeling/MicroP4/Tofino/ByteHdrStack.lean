import Mathlib

/-!
# From the byte stack to stacks of two-byte headers

The middle end composes programs over one stack of one-byte headers,
`msa_hdr_stack`.  The Tofino back end replaces that stack by stacks of two-byte
headers, `stackSize` headers at most in each, and rewrites every access to byte
`in` of the old stack into a slice of a two-byte header
(`ReplaceByteHdrStack`).  Three pieces of index arithmetic are involved, and this
file holds the first: which stacks are declared (`preorder(Type_Struct)`), and
where an access goes (`translateIndexAndSlice`).

A two-byte header carries its first byte in the high half, as the network order
of `extract` has it.  So byte `2 * k` of the packet is `[15:8]` of header `k` and
byte `2 * k + 1` is `[7:0]`, headers being numbered through all stacks.
-/

namespace MicroP4
namespace Tofino

/-- The lengths in bits that `StaticAnalyzer` hands to the back end.  Both are
sums of header widths, which are whole bytes; the stack has room for the longest
extracted prefix and for the largest growth of the packet. -/
structure AnalysisResult where
  maxExtLen : ℕ
  maxIncrPktLen : ℕ
  maxExtLen_dvd : 8 ∣ maxExtLen
  maxIncrPktLen_dvd : 8 ∣ maxIncrPktLen

/-- `*byteStackSize = *maxExtLen + cpi.getMaxIncrPktLen()`. -/
def AnalysisResult.byteStackSize (A : AnalysisResult) : ℕ := A.maxExtLen + A.maxIncrPktLen

theorem AnalysisResult.byteStackSize_dvd (A : AnalysisResult) : 8 ∣ A.byteStackSize :=
  Nat.dvd_add A.maxExtLen_dvd A.maxIncrPktLen_dvd

theorem AnalysisResult.maxExtLen_le (A : AnalysisResult) : A.maxExtLen ≤ A.byteStackSize :=
  Nat.le_add_right _ _

/-- Width in bits of the new header, `newFieldBitWidth` in the back end. -/
def hdrBitWidth : ℕ := 16

/-- The number of headers in a full stack.  The back end passes `32`; any positive
size that a `bit<8>` parser counter can hold is allowed here. -/
structure StackShape where
  stackSize : ℕ
  stackSize_pos : 0 < stackSize
  stackSize_lt : stackSize < 2 ^ 8

/-- The shape the Tofino back end uses. -/
def StackShape.tofino : StackShape := ⟨32, by decide, by decide⟩

/-- What `ReplaceByteHdrStack` computes from the size of the one-byte stack and
shares with the architecture pass. -/
structure HdrStacks where
  numFullStacks : ℕ
  residualStackSize : ℕ

/-- `ReplaceByteHdrStack::preorder(Type_Struct)`: `size` is the declared size of
`msa_hdr_stack`, in one-byte headers. -/
def replaceByteHdrStack (S : StackShape) (size : ℕ) : HdrStacks :=
  let fac := hdrBitWidth / 8
  let numTwoBytes := size / fac
  { numFullStacks := numTwoBytes / S.stackSize
    residualStackSize := numTwoBytes % S.stackSize }

/-- The stack fields added to `csa_packet_struct`, as stack number and size. -/
def HdrStacks.stackFields (S : StackShape) (L : HdrStacks) : List (ℕ × ℕ) :=
  (List.range L.numFullStacks).map (fun s => (s, S.stackSize)) ++
    if L.residualStackSize > 0 then [(L.numFullStacks, L.residualStackSize)] else []

/-- The declared size of stack `s`; a stack that is not declared has no elements. -/
def HdrStacks.declaredSize (S : StackShape) (L : HdrStacks) (s : ℕ) : ℕ :=
  ((L.stackFields S).lookup s).getD 0

/-- Where an access to a slice of one byte goes: element `stackIndex` of stack
`stackNumber`, bits `nh` down to `nl`. -/
structure SliceRef where
  stackNumber : ℕ
  stackIndex : ℕ
  nh : ℕ
  nl : ℕ
  deriving DecidableEq, Repr

/-- The header an access touches. -/
def SliceRef.element (r : SliceRef) : ℕ × ℕ := (r.stackNumber, r.stackIndex)

/-- `ReplaceByteHdrStack::translateIndexAndSlice` on bits `h` down to `l` of byte
`idx`.  `none` is the result `false`, on which both callers stop with `BUG`. -/
def HdrStacks.translateIndexAndSlice (S : StackShape) (L : HdrStacks) (idx h l : ℕ) :
    Option SliceRef :=
  let nsRange := (L.numFullStacks * S.stackSize + L.residualStackSize) * 2
  if idx ≥ nsRange then none
  else
    let fac := hdrBitWidth / 8
    let continuousIndex := idx / fac
    let offset := (idx % fac) * 8
    let offset := (offset + (hdrBitWidth - 8)) % hdrBitWidth
    some
      { stackNumber := continuousIndex / S.stackSize
        stackIndex := continuousIndex % S.stackSize
        nh := offset + h
        nl := offset + l }

/-! ## The declared stacks -/

variable (S : StackShape)

theorem lookup_map_range (v : ℕ) (t : List (ℕ × ℕ)) (s : ℕ) :
    ∀ n a : ℕ, ((List.range' a n).map (fun k => (k, v)) ++ t).lookup s =
      if a ≤ s ∧ s < a + n then some v else t.lookup s
  | 0, a => by
      have h : ¬ (a ≤ s ∧ s < a + 0) := by omega
      rw [if_neg h]
      rfl
  | n + 1, a => by
      rw [List.range'_succ, List.map_cons, List.cons_append, List.lookup_cons]
      by_cases hs : s = a
      · subst hs
        have h : s ≤ s ∧ s < s + (n + 1) := by omega
        rw [if_pos h]
        simp
      · have hb : (s == a) = false := by simpa using hs
        rw [hb, lookup_map_range v t s n (a + 1)]
        have h : (a + 1 ≤ s ∧ s < a + 1 + n) ↔ (a ≤ s ∧ s < a + (n + 1)) := by omega
        simp only [h]

/-- Full stacks come first, then the partial one. -/
theorem declaredSize_eq (L : HdrStacks) (s : ℕ) :
    L.declaredSize S s =
      if s < L.numFullStacks then S.stackSize
      else if s = L.numFullStacks then L.residualStackSize else 0 := by
  rw [HdrStacks.declaredSize, HdrStacks.stackFields, List.range_eq_range', lookup_map_range]
  by_cases h₁ : s < L.numFullStacks
  · have h : 0 ≤ s ∧ s < 0 + L.numFullStacks := by omega
    rw [if_pos h, if_pos h₁]
    rfl
  · have h : ¬ (0 ≤ s ∧ s < 0 + L.numFullStacks) := by omega
    rw [if_neg h, if_neg h₁]
    by_cases h₂ : L.residualStackSize > 0
    · rw [if_pos h₂, List.lookup_cons]
      by_cases h₃ : s = L.numFullStacks
      · subst h₃
        simp
      · have hb : (s == L.numFullStacks) = false := by simpa using h₃
        rw [hb, if_neg h₃]
        rfl
    · rw [if_neg h₂]
      by_cases h₃ : s = L.numFullStacks
      · rw [if_pos h₃]
        have h₄ : L.residualStackSize = 0 := by omega
        rw [h₄]
        rfl
      · rw [if_neg h₃]
        rfl

/-! ## The access mapping -/

/-- Full stacks and residual together hold every pair of bytes. -/
theorem numTwoBytes_eq (size : ℕ) :
    (replaceByteHdrStack S size).numFullStacks * S.stackSize +
      (replaceByteHdrStack S size).residualStackSize = size / 2 :=
  Nat.div_add_mod' (size / 2) S.stackSize

/-- The access mapping in closed form: the high half for an even byte, the low half
for an odd one. -/
theorem translateIndexAndSlice_eq (size idx h l : ℕ) :
    (replaceByteHdrStack S size).translateIndexAndSlice S idx h l =
      if idx < size / 2 * 2 then
        some ⟨idx / 2 / S.stackSize, idx / 2 % S.stackSize,
          (1 - idx % 2) * 8 + h, (1 - idx % 2) * 8 + l⟩
      else none := by
  unfold HdrStacks.translateIndexAndSlice
  rw [numTwoBytes_eq]
  by_cases hi : idx < size / 2 * 2
  · have hoff : (idx % 2 * 8 + 8) % 16 = (1 - idx % 2) * 8 := by
      rcases Nat.mod_two_eq_zero_or_one idx with h2 | h2 <;> rw [h2]
    rw [if_neg (by omega), if_pos hi]
    simp only [hdrBitWidth, Nat.reduceDiv, Nat.reduceSub, hoff]
  · rw [if_pos (by omega), if_neg hi]

/-- An access is translated exactly below the last whole pair of bytes. -/
theorem translateIndexAndSlice_isSome (size idx h l : ℕ) :
    ((replaceByteHdrStack S size).translateIndexAndSlice S idx h l).isSome ↔
      idx < size / 2 * 2 := by
  rw [translateIndexAndSlice_eq]
  by_cases hi : idx < size / 2 * 2
  · simp [hi]
  · simp [hi]

/-- No two bits of the byte stack share a bit of a two-byte header. -/
theorem translateIndexAndSlice_injective {size i j b c : ℕ} {r : SliceRef}
    (hb : b < 8) (hc : c < 8)
    (hi : (replaceByteHdrStack S size).translateIndexAndSlice S i b b = some r)
    (hj : (replaceByteHdrStack S size).translateIndexAndSlice S j c c = some r) :
    i = j ∧ b = c := by
  rw [translateIndexAndSlice_eq] at hi hj
  split at hi
  · split at hj
    · have h := hi.trans hj.symm
      simp only [Option.some.injEq, SliceRef.mk.injEq] at h
      obtain ⟨hn, hx, -, hl⟩ := h
      have hk : i / 2 = j / 2 := by
        rw [← Nat.div_add_mod (i / 2) S.stackSize, ← Nat.div_add_mod (j / 2) S.stackSize, hn, hx]
      have hp : i % 2 = j % 2 ∧ b = c := by omega
      exact ⟨by omega, hp.2⟩
    · simp at hj
  · simp at hi

end Tofino
end MicroP4
