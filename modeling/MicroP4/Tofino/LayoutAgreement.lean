import MicroP4.Tofino.ParserRun

/-!
# Do parser, accesses and deparser agree on the layout?

Three computations must put byte `i` of the packet in the same place: the generated
parsers, which count headers; `translateIndexAndSlice`, which divides; and the
generated deparsers, which list stacks.  `LayoutAgrees` is that agreement, for every
packet long enough to be parsed, and `layoutAgrees_iff` says exactly when it holds.

* Both lengths must be even numbers of bytes.  A trailing byte is extracted into
  `msa_byte`, which no access is mapped to, and an access to it is a `BUG`.
* The deparsers take the number of full stacks from the extract length and the size of
  the partial stack from the byte stack, so the two must have the same number of full
  stacks.
* The ingress parser never sets its counters, so the value of an unset counter has to
  be the right one for each of them.
-/

namespace MicroP4
namespace Tofino

open ExtractCounts

variable {K : ParserCounter} {S : StackShape} {T : Target} {A : AnalysisResult}

/-! ## The statement -/

/-- The stacks declared for the byte stack the analysis computes. -/
def AnalysisResult.hdrStacks (S : StackShape) (A : AnalysisResult) : HdrStacks :=
  replaceByteHdrStack S (A.byteStackSize / 8)

/-- The counts of the architecture pass for the extract length the analysis computes. -/
def AnalysisResult.counts (S : StackShape) (A : AnalysisResult) : ExtractCounts :=
  extractCounts S A.maxExtLen

/-- Before a parser starts: nothing is loaded and no counter is set. -/
def initialConfig (K : ParserCounter) (pin : List Byte) : ParserConfig K where
  pin := pin
  counters := fun _ => K.init
  hdrStack := fun _ => []
  msaByte := none
  resubmit := false

/-- Each of the first `n` bytes of the packet is in the half of the element that
accesses to it are mapped to. -/
def Placed (S : StackShape) (L : HdrStacks) (packet : List Byte) (c : ParserConfig K)
    (n : ℕ) : Prop :=
  ∀ i, i < n → ∃ r e, L.translateIndexAndSlice S i 7 0 = some r ∧
    (c.hdrStack r.stackNumber)[r.stackIndex]? = some e ∧ r.nh = r.nl + 7 ∧
    packet[i]? = some (e.extractLsb' r.nl 8)

/-- Parser `P`, started on `pre` and then the packet, accepts every packet with at least
`maxExtLen` bits and places its first `maxExtLen / 8` bytes. -/
def Extracts (K : ParserCounter) (S : StackShape) (T : Target) (A : AnalysisResult)
    (P : List ParserState) (pre : List Byte) : Prop :=
  ∀ packet : List Byte, A.maxExtLen ≤ 8 * packet.length →
    ∃ c', Accepts S (A.hdrStacks S) T P .start (initialConfig K (pre ++ packet)) c' ∧
      Placed S (A.hdrStacks S) packet c' (A.maxExtLen / 8)

/-- The elements emitted for `args`: every element that an access to the byte stack can
reach is emitted once, and in the order of the bytes it holds. -/
def EmitsReachable (S : StackShape) (A : AnalysisResult) (args : List EmitArg) : Prop :=
  let emitted := emittedElements S (A.hdrStacks S) args
  (∀ i r, i < A.byteStackSize / 8 → (A.hdrStacks S).translateIndexAndSlice S i 7 0 = some r →
    emitted.count r.element = 1) ∧
  ∀ i j r r', i < j → j < A.byteStackSize / 8 →
    (A.hdrStacks S).translateIndexAndSlice S i 7 0 = some r →
    (A.hdrStacks S).translateIndexAndSlice S j 7 0 = some r' →
    r.element ≠ r'.element → emitted.idxOf r.element < emitted.idxOf r'.element

/-- The agreement of the three layouts.  What precedes an ingress packet is the
intrinsic metadata and, unless the packet was resubmitted, the port metadata. -/
structure LayoutAgrees (K : ParserCounter) (S : StackShape) (Tin Teg : Target)
    (A : AnalysisResult) : Prop where
  ingress : ∀ im portMetadata : List Byte, im.length = Tin.imSize →
    portMetadata.length = (if Tin.resubmitFlag im then 0 else Tin.portMetadataSize) →
    Extracts K S Tin A (A.counts S).createTofinoIngressParser (im ++ portMetadata)
  egress : ∀ im : List Byte, im.length = Teg.imSize →
    Extracts K S Teg A ((A.counts S).createTofinoEgressParser S) im
  mapped : ∀ i b, i < A.byteStackSize / 8 → b < 8 →
    ((A.hdrStacks S).translateIndexAndSlice S i b b).isSome
  injective : ∀ i j b c r, b < 8 → c < 8 →
    (A.hdrStacks S).translateIndexAndSlice S i b b = some r →
    (A.hdrStacks S).translateIndexAndSlice S j c c = some r → i = j ∧ b = c
  ingressDeparser :
    EmitsReachable S A (createTofinoIngressDeparser (A.counts S) (A.hdrStacks S))
  egressDeparser :
    EmitsReachable S A (createTofinoEgressDeparser (A.counts S) (A.hdrStacks S))

/-! ## Counting headers -/

/-- The number of two-byte headers the parsers load into stack `i` when there are `m`
to load. -/
def hdrCount (S : StackShape) (m i : ℕ) : ℕ := min S.stackSize (m - S.stackSize * i)

theorem sum_hdrCount (m : ℕ) : ∀ n, ∑ i ∈ Finset.range n, hdrCount S m i = min (S.stackSize * n) m
  | 0 => by simp
  | n + 1 => by
      rw [Finset.sum_range_succ, sum_hdrCount m n, hdrCount, Nat.mul_succ]
      omega

/-- A stack has a counter exactly when there is a header left for it. -/
theorem lt_nc_iff {i : ℕ} :
    i < (A.counts S).nc ↔ S.stackSize * i < A.maxExtLen / 16 := by
  have hS := S.stackSize_pos
  have hdm := Nat.div_add_mod (A.maxExtLen / 16) S.stackSize
  have hlt := Nat.mod_lt (A.maxExtLen / 16) hS
  have hnc : (A.counts S).nc = A.maxExtLen / 16 / S.stackSize +
      if A.maxExtLen / 16 % S.stackSize > 0 then 1 else 0 := rfl
  rw [hnc]
  generalize A.maxExtLen / 16 = m at *
  rcases Nat.lt_trichotomy i (m / S.stackSize) with h | h | h
  · have hmul : S.stackSize * (i + 1) ≤ S.stackSize * (m / S.stackSize) :=
      Nat.mul_le_mul_left _ h
    rw [Nat.mul_succ] at hmul
    constructor
    · intro _
      omega
    · intro _
      omega
  · rw [h]
    split
    · omega
    · omega
  · have hmul : S.stackSize * (m / S.stackSize + 1) ≤ S.stackSize * i :=
      Nat.mul_le_mul_left _ h
    rw [Nat.mul_succ] at hmul
    split
    · omega
    · omega

/-- Full stacks and a partial one are `hdrCount` of `m`. -/
theorem map_hdrCount (m : ℕ) :
    ((List.range (m / S.stackSize)).map (fun i => (i, S.stackSize)) ++
        if m % S.stackSize > 0 then [(m / S.stackSize, m % S.stackSize)] else []) =
      (List.range (m / S.stackSize + if m % S.stackSize > 0 then 1 else 0)).map fun i =>
        (i, hdrCount S m i) := by
  have hdm := Nat.div_add_mod m S.stackSize
  have hlt := Nat.mod_lt m S.stackSize_pos
  have hfull : (List.range (m / S.stackSize)).map (fun i => (i, S.stackSize)) =
      (List.range (m / S.stackSize)).map fun i => (i, hdrCount S m i) := by
    apply List.map_congr_left
    intro i hi
    have hi : i < m / S.stackSize := List.mem_range.1 hi
    have hmul : S.stackSize * (i + 1) ≤ S.stackSize * (m / S.stackSize) :=
      Nat.mul_le_mul_left _ hi
    rw [Nat.mul_succ] at hmul
    rw [hdrCount, Nat.min_eq_left (by omega)]
  rw [hfull]
  by_cases hr : m % S.stackSize > 0
  · have hlast : hdrCount S m (m / S.stackSize) = m % S.stackSize := by
      rw [hdrCount, Nat.min_eq_right (by omega)]
      omega
    rw [if_pos hr, if_pos hr, List.range_succ, List.map_append, List.map_singleton, hlast]
  · rw [if_neg hr, if_neg hr, List.append_nil, Nat.add_zero]

/-- Each counter counts the headers its stack is to receive. -/
theorem pcInstNameMaxPairVec_eq :
    (A.counts S).pcInstNameMaxPairVec S =
      (List.range (A.counts S).nc).map fun i => (i, hdrCount S (A.maxExtLen / 16) i) :=
  map_hdrCount (A.maxExtLen / 16)

/-- No stack is asked to receive more headers than it has. -/
theorem hdrCount_le_declaredSize {i : ℕ} (hi : i < (A.counts S).nc) :
    hdrCount S (A.maxExtLen / 16) i ≤ (A.hdrStacks S).declaredSize S i := by
  have hle := A.maxExtLen_le
  have hi := lt_nc_iff.1 hi
  have hsum := numTwoBytes_eq S (A.byteStackSize / 8)
  rw [declaredSize_eq, AnalysisResult.hdrStacks]
  have hres : (replaceByteHdrStack S (A.byteStackSize / 8)).residualStackSize < S.stackSize :=
    Nat.mod_lt _ S.stackSize_pos
  generalize replaceByteHdrStack S (A.byteStackSize / 8) = L at *
  rcases Nat.lt_trichotomy i L.numFullStacks with h | h | h
  · rw [if_pos h]
    exact Nat.min_le_left _ _
  · rw [if_neg (by omega), if_pos h, h, hdrCount, Nat.mul_comm]
    omega
  · have hmul : S.stackSize * (L.numFullStacks + 1) ≤ S.stackSize * i :=
      Nat.mul_le_mul_left _ h
    rw [Nat.mul_succ, Nat.mul_comm S.stackSize L.numFullStacks] at hmul
    omega

/-- All counters together count every header of the extract length. -/
theorem sum_hdrCount_nc :
    ∑ i ∈ Finset.Ico 0 (A.counts S).nc, hdrCount S (A.maxExtLen / 16) i = A.maxExtLen / 16 := by
  have h : ¬ (A.counts S).nc < (A.counts S).nc := lt_irrefl _
  rw [lt_nc_iff] at h
  rw [← Finset.range_eq_Ico, sum_hdrCount]
  omega

/-! ## Starting the parsers -/

theorem execAll_cons {L : HdrStacks} {a : ParserStat} {l : List ParserStat}
    {c : ParserConfig K} :
    execAll S L T (a :: l) c = (a.exec S L T c).bind (execAll S L T l) := by
  rw [execAll, List.foldlM_cons]
  rfl

theorem execAll_append {L : HdrStacks} {l l' : List ParserStat} {c : ParserConfig K} :
    execAll S L T (l ++ l') c = (execAll S L T l c).bind (execAll S L T l') := by
  rw [execAll, List.foldlM_append]
  rfl

theorem execAll_setCounters {L : HdrStacks} (v : ℕ → ℕ) : ∀ (n a : ℕ) (c : ParserConfig K),
    execAll S L T ((List.range' a n).map fun i => .setCounter i (v i)) c =
      some { c with counters := fun i => if a ≤ i ∧ i < a + n then K.set (v i)
                                         else c.counters i }
  | 0, a, c => by
      have h : ∀ i, ¬ (a ≤ i ∧ i < a + 0) := by omega
      simp only [h, if_false]
      rfl
  | n + 1, a, c => by
      have ih := execAll_setCounters (L := L) v n (a + 1)
        { c with counters := Function.update c.counters a (K.set (v a)) }
      rw [List.range'_succ, List.map_cons, execAll_cons, ParserStat.exec, Option.bind_some, ih]
      congr 2
      funext i
      by_cases hi : i = a
      · subst hi
        rw [if_neg (by omega), if_pos (by omega)]
        simp only [Function.update_self]
      · have h : (a + 1 ≤ i ∧ i < a + 1 + n) ↔ (a ≤ i ∧ i < a + (n + 1)) := by omega
        simp only [h, Function.update_of_ne hi]

/-- What a parser has in hand when it reaches `statesName[0]`. -/
structure Ready (counters : ℕ → K.Counter) (packet : List Byte) (c : ParserConfig K) : Prop where
  pin : c.pin = packet
  counters : ∀ i, i < (A.counts S).nc → c.counters i = counters i
  hdrStack : ∀ i, c.hdrStack i = []

/-- The egress parser sets every counter before it loads. -/
theorem egress_start {L : HdrStacks} {im packet : List Byte} (him : im.length = T.imSize) :
    ∃ c₁, Ready (A := A) (S := S) (fun i => K.set (hdrCount S (A.maxExtLen / 16) i)) packet c₁ ∧
      ∀ c', Accepts S L T ((A.counts S).createTofinoEgressParser S) .start
          (initialConfig K (im ++ packet)) c' ↔
        Accepts S L T ((A.counts S).createTofinoEgressParser S) ((A.counts S).stateNameAt 0)
          c₁ c' := by
  have hset : (A.counts S).setCounters S = (List.range' 0 (A.counts S).nc).map fun i =>
      .setCounter i (hdrCount S (A.maxExtLen / 16) i) := by
    rw [setCounters, pcInstNameMaxPairVec_eq, List.map_map, List.range_eq_range']
    apply List.map_congr_left
    intro i _
    have h : hdrCount S (A.maxExtLen / 16) i < 2 ^ 8 :=
      lt_of_le_of_lt (Nat.min_le_left _ _) S.stackSize_lt
    simp only [Function.comp_apply, Nat.mod_eq_of_lt h]
  have hexec : execAll S L T ((A.counts S).setCounters S ++ [.extractIM])
      (initialConfig K (im ++ packet)) = some
        { initialConfig K packet with
          counters := fun i => if 0 ≤ i ∧ i < 0 + (A.counts S).nc then
            K.set (hdrCount S (A.maxExtLen / 16) i) else K.init
          resubmit := T.resubmitFlag im } := by
    rw [execAll_append, hset, execAll_setCounters, Option.bind_some]
    simp [execAll, ParserStat.exec, initialConfig, ← him]
  refine ⟨{ initialConfig K packet with
            counters := fun i => if 0 ≤ i ∧ i < 0 + (A.counts S).nc then
              K.set (hdrCount S (A.maxExtLen / 16) i) else K.init
            resubmit := T.resubmitFlag im }, ⟨rfl, ?_, fun _ => rfl⟩, fun c' => ?_⟩
  · intro i hi
    simp [hi]
  · rw [accepts_iff_of_find (by simp) rfl]
    simp only [hexec, Option.some.injEq, exists_eq_left']
    rfl

/-- The ingress parser leaves every counter as it was. -/
theorem ingress_start {L : HdrStacks} {im portMetadata packet : List Byte}
    (him : im.length = T.imSize)
    (hpm : portMetadata.length = if T.resubmitFlag im then 0 else T.portMetadataSize) :
    ∃ c₁, Ready (A := A) (S := S) (fun _ => K.init) packet c₁ ∧
      ∀ c', Accepts S L T (A.counts S).createTofinoIngressParser .start
          (initialConfig K (im ++ portMetadata ++ packet)) c' ↔
        Accepts S L T (A.counts S).createTofinoIngressParser ((A.counts S).stateNameAt 0)
          c₁ c' := by
  have hexec : execAll S L T [.extractIM] (initialConfig K (im ++ portMetadata ++ packet)) =
      some { initialConfig K (portMetadata ++ packet) with resubmit := T.resubmitFlag im } := by
    simp [execAll, ParserStat.exec, initialConfig, ← him]
  refine ⟨{ initialConfig K packet with resubmit := T.resubmitFlag im },
    ⟨rfl, fun _ _ => rfl, fun _ => rfl⟩, fun c' => ?_⟩
  rw [accepts_iff_of_find (by simp) rfl]
  simp only [hexec, Option.some.injEq, exists_eq_left', Transition.next]
  by_cases hf : T.resubmitFlag im = true
  · rw [if_pos hf] at hpm
    have hnil : portMetadata = [] := List.eq_nil_of_length_eq_zero hpm
    rw [if_pos hf, accepts_iff_of_find (by simp) rfl, hnil]
    simp only [execAll, List.foldlM_nil, Option.pure_def, Option.some.injEq, exists_eq_left',
      List.nil_append]
    rfl
  · rw [if_neg hf] at hpm
    have hexec' : execAll S L T [.advancePortMetadata]
        { initialConfig K (portMetadata ++ packet) with resubmit := T.resubmitFlag im } =
        some { initialConfig K packet with resubmit := T.resubmitFlag im } := by
      simp [execAll, ParserStat.exec, initialConfig, ← hpm]
    rw [if_neg hf, accepts_iff_of_find (by simp) rfl]
    simp only [hexec', Option.some.injEq, exists_eq_left']
    rfl

/-! ## The access mapping -/

theorem size_div_two : A.byteStackSize / 8 / 2 = A.byteStackSize / 16 := by
  rw [Nat.div_div_eq_div_mul]

/-- Accesses to every byte are mapped exactly when the stack has no odd byte at its end. -/
theorem mapped_iff :
    (∀ i b, i < A.byteStackSize / 8 → b < 8 →
      ((A.hdrStacks S).translateIndexAndSlice S i b b).isSome) ↔ 16 ∣ A.byteStackSize := by
  have h8 := A.byteStackSize_dvd
  simp only [AnalysisResult.hdrStacks, translateIndexAndSlice_isSome]
  constructor
  · intro h
    by_contra hodd
    have hpos : A.byteStackSize / 8 - 1 < A.byteStackSize / 8 := by omega
    have hlast := h _ 0 hpos (by omega)
    omega
  · intro h i b hi _
    omega

/-- The element and half of byte `i`, when there is one. -/
theorem translate_eq_some {i : ℕ} {r : SliceRef}
    (h : (A.hdrStacks S).translateIndexAndSlice S i 7 0 = some r) :
    i / 2 < A.byteStackSize / 16 ∧
      r = ⟨i / 2 / S.stackSize, i / 2 % S.stackSize, (1 - i % 2) * 8 + 7,
        (1 - i % 2) * 8⟩ := by
  rw [AnalysisResult.hdrStacks, translateIndexAndSlice_eq, size_div_two] at h
  split at h
  · rename_i hi
    exact ⟨by omega, (Option.some.inj h).symm⟩
  · simp at h

theorem translate_of_lt {i : ℕ} (hi : i / 2 < A.byteStackSize / 16) :
    (A.hdrStacks S).translateIndexAndSlice S i 7 0 =
      some ⟨i / 2 / S.stackSize, i / 2 % S.stackSize, (1 - i % 2) * 8 + 7,
        (1 - i % 2) * 8⟩ := by
  rw [AnalysisResult.hdrStacks, translateIndexAndSlice_eq, size_div_two, if_pos (by omega)]
  simp

/-! ## The deparsers -/

/-- Full stacks in order run through all elements in order. -/
theorem flatMap_fullStacks (s : ℕ) (hs : 0 < s) : ∀ n : ℕ,
    (List.range n).flatMap (fun i => (List.range s).map fun x => (i, x)) =
      (List.range (n * s)).map fun k => (k / s, k % s)
  | 0 => by simp
  | n + 1 => by
      rw [List.range_succ, List.flatMap_append, flatMap_fullStacks s hs n, Nat.succ_mul,
        List.range_add, List.map_append, List.flatMap_singleton, List.map_map]
      congr 1
      apply List.map_congr_left
      intro x hx
      have hx : x < s := List.mem_range.1 hx
      simp only [Function.comp_apply]
      rw [Nat.mul_comm n s, Nat.mul_add_div hs, Nat.div_eq_of_lt hx, Nat.mul_add_mod,
        Nat.mod_eq_of_lt hx, Nat.add_zero]

/-- With as many full stacks to extract as are declared, the deparsers emit every
element, in order. -/
theorem emittedElements_eq
    (hfull : A.maxExtLen / 16 / S.stackSize = A.byteStackSize / 16 / S.stackSize) :
    emittedElements S (A.hdrStacks S) (hdrInsts (A.counts S) (A.hdrStacks S)) =
      (List.range (A.byteStackSize / 16)).map fun k => (k / S.stackSize, k % S.stackSize) := by
  have hS := S.stackSize_pos
  have hnum : (A.hdrStacks S).numFullStacks = A.byteStackSize / 16 / S.stackSize := by
    rw [← size_div_two]
    rfl
  have hres : (A.hdrStacks S).residualStackSize = A.byteStackSize / 16 % S.stackSize := by
    rw [← size_div_two]
    rfl
  have hmax : (A.counts S).maxFullStToExct = A.byteStackSize / 16 / S.stackSize := hfull
  have hdecl := declaredSize_eq S (A.hdrStacks S)
  rw [hnum, hres] at hdecl
  have hdm := Nat.div_add_mod' (A.byteStackSize / 16) S.stackSize
  have hlt := Nat.mod_lt (A.byteStackSize / 16) hS
  rw [emittedElements, hdrInsts, hmax, hres]
  generalize A.byteStackSize / 16 = m at *
  have hlow : ((List.range (m / S.stackSize)).map EmitArg.hdrStack).flatMap
        (EmitArg.elements S (A.hdrStacks S)) =
      (List.range (m / S.stackSize)).flatMap
        fun i => (List.range S.stackSize).map fun x => (i, x) := by
    rw [List.flatMap_map]
    apply List.flatMap_congr
    intro s hs
    rw [EmitArg.elements, hdecl, if_pos (List.mem_range.1 hs)]
  rw [List.flatMap_append, List.flatMap_append, hlow, flatMap_fullStacks _ hS]
  have hrange : List.range m = List.range (m / S.stackSize * S.stackSize) ++
      (List.range (m % S.stackSize)).map (m / S.stackSize * S.stackSize + ·) := by
    rw [← List.range_add, hdm]
  rw [hrange, List.map_append, List.map_map]
  have hhigh : (List.range (m % S.stackSize)).map
      ((fun k => (k / S.stackSize, k % S.stackSize)) ∘ (m / S.stackSize * S.stackSize + ·)) =
      (List.range (m % S.stackSize)).map fun x => (m / S.stackSize, x) := by
    apply List.map_congr_left
    intro x hx
    have hx : x < S.stackSize := lt_trans (List.mem_range.1 hx) hlt
    simp only [Function.comp_apply]
    rw [Nat.mul_comm _ S.stackSize, Nat.mul_add_div hS, Nat.div_eq_of_lt hx, Nat.mul_add_mod,
      Nat.mod_eq_of_lt hx, Nat.add_zero]
  rw [hhigh]
  by_cases hr : m % S.stackSize > 0
  · rw [if_pos hr, List.flatMap_singleton, EmitArg.elements, hdecl, if_neg (lt_irrefl _),
      if_pos rfl]
    simp [EmitArg.elements]
  · have hzero : m % S.stackSize = 0 := by omega
    rw [if_neg hr, hzero]
    simp

theorem element_injective (s : ℕ) :
    Function.Injective fun k : ℕ => (k / s, k % s) := by
  intro a b h
  simp only [Prod.mk.injEq] at h
  rw [← Nat.div_add_mod a s, ← Nat.div_add_mod b s, h.1, h.2]

/-- The deparsers only emit elements of the stacks they list. -/
theorem fst_lt_of_mem_emittedElements {E : ExtractCounts} {L : HdrStacks} {e : ℕ × ℕ}
    (he : e ∈ emittedElements S L (hdrInsts E L)) :
    e.1 < E.maxFullStToExct + if L.residualStackSize > 0 then 1 else 0 := by
  rw [emittedElements, List.mem_flatMap] at he
  obtain ⟨a, ha, he⟩ := he
  rcases a with s | _
  · simp only [EmitArg.elements, List.mem_map, List.mem_range] at he
    obtain ⟨x, -, rfl⟩ := he
    rw [hdrInsts, List.mem_append, List.mem_append] at ha
    rcases ha with (ha | ha) | ha
    · simp only [List.mem_map, List.mem_range, EmitArg.hdrStack.injEq, exists_eq_right] at ha
      exact Nat.lt_add_right _ ha
    · split at ha
      · rename_i hr
        simp only [List.mem_singleton, EmitArg.hdrStack.injEq] at ha
        rw [if_pos hr, ha]
        exact Nat.lt_succ_self _
      · simp at ha
    · simp at ha
  · simp [EmitArg.elements] at he

/-- **The deparsers emit what can be reached exactly when the two numbers of full stacks
agree.** -/
theorem emitsReachable_iff :
    EmitsReachable S A (hdrInsts (A.counts S) (A.hdrStacks S)) ↔
      A.maxExtLen / 16 / S.stackSize = A.byteStackSize / 16 / S.stackSize := by
  have hS := S.stackSize_pos
  constructor
  · rintro ⟨honce, -⟩
    by_contra hne
    have hle : A.maxExtLen / 16 / S.stackSize ≤ A.byteStackSize / 16 / S.stackSize :=
      Nat.div_le_div_right (Nat.div_le_div_right A.maxExtLen_le)
    have hres : (A.hdrStacks S).residualStackSize = A.byteStackSize / 16 % S.stackSize := by
      rw [← size_div_two]
      rfl
    have hmax : (A.counts S).maxFullStToExct = A.maxExtLen / 16 / S.stackSize := rfl
    have hdm := Nat.div_add_mod (A.byteStackSize / 16) S.stackSize
    have hlt := Nat.mod_lt (A.byteStackSize / 16) hS
    -- the last header of the byte stack stands in the last declared stack
    have hpos : 0 < A.byteStackSize / 16 := by
      rcases Nat.eq_zero_or_pos (A.byteStackSize / 16) with h | h
      · rw [h, Nat.zero_div] at hle hne
        omega
      · exact h
    have hlast := honce (2 * (A.byteStackSize / 16 - 1)) _ (by omega)
      (translate_of_lt (by omega))
    have hmem := List.count_pos_iff.1 (lt_of_lt_of_eq Nat.one_pos hlast.symm)
    have hstack := fst_lt_of_mem_emittedElements hmem
    rw [hres, hmax] at hstack
    simp only [SliceRef.element, Nat.mul_div_cancel_left _ (Nat.succ_pos 1)] at hstack
    generalize A.byteStackSize / 16 = m at *
    by_cases hr : m % S.stackSize > 0
    · have hdiv : (m - 1) / S.stackSize = m / S.stackSize := by
        have h : m - 1 = S.stackSize * (m / S.stackSize) + (m % S.stackSize - 1) := by omega
        have hsmall : (m % S.stackSize - 1) / S.stackSize = 0 := Nat.div_eq_of_lt (by omega)
        rw [h, Nat.mul_add_div hS, hsmall, Nat.add_zero]
      rw [if_pos hr, hdiv] at hstack
      omega
    · obtain ⟨q, hq⟩ : ∃ q, m / S.stackSize = q + 1 := ⟨m / S.stackSize - 1, by omega⟩
      have hdiv : (m - 1) / S.stackSize = q := by
        rw [hq, Nat.mul_succ] at hdm
        have h : m - 1 = S.stackSize * q + (S.stackSize - 1) := by omega
        rw [h, Nat.mul_add_div hS, Nat.div_eq_of_lt (by omega), Nat.add_zero]
      rw [if_neg hr, hdiv] at hstack
      omega
  · intro hfull
    have hnodup : ((List.range (A.byteStackSize / 16)).map
        fun k => (k / S.stackSize, k % S.stackSize)).Nodup :=
      List.nodup_range.map (element_injective S.stackSize)
    have hidx : ∀ k, k < A.byteStackSize / 16 →
        ((List.range (A.byteStackSize / 16)).map
          fun k => (k / S.stackSize, k % S.stackSize)).idxOf
            (k / S.stackSize, k % S.stackSize) = k := by
      intro k hk
      have h := hnodup.idxOf_getElem k (by simpa using hk)
      simpa using h
    refine ⟨?_, ?_⟩
    · intro i r _ hr
      obtain ⟨hi, rfl⟩ := translate_eq_some hr
      rw [emittedElements_eq hfull]
      refine List.count_eq_one_of_mem hnodup ?_
      exact List.mem_map.2 ⟨i / 2, List.mem_range.2 hi, rfl⟩
    · intro i j r r' hij _ hr hr' hne
      obtain ⟨hi, rfl⟩ := translate_eq_some hr
      obtain ⟨hj, rfl⟩ := translate_eq_some hr'
      simp only [SliceRef.element] at hne ⊢
      rw [emittedElements_eq hfull, hidx _ hi, hidx _ hj]
      have hne : i / 2 ≠ j / 2 := by
        intro h
        exact hne (by rw [h])
      omega

/-! ## The parsers -/

/-- A half of a word is a byte of the packet. -/
theorem extractLsb'_word (p : List Byte) (i k : ℕ) (hk : k = i / 2) :
    (word p k).extractLsb' ((1 - i % 2) * 8) 8 = p.getD i 0 := by
  have hcase : i = 2 * k ∨ i = 2 * k + 1 := by omega
  rcases hcase with h | h
  · have hmod : i % 2 = 0 := by omega
    rw [hmod, word, ← h]
    ext b hb
    simp only [BitVec.getElem_extractLsb', BitVec.getLsbD_append]
    rw [if_neg (by omega)]
    simp [BitVec.getLsbD_eq_getElem hb]
  · have hmod : i % 2 = 1 := by omega
    rw [hmod, word, ← h]
    ext b hb
    simp only [BitVec.getElem_extractLsb', BitVec.getLsbD_append]
    rw [if_pos (by omega)]
    simp [BitVec.getLsbD_eq_getElem hb]

/-- If every counter counts the headers of its stack, the prefix is placed. -/
theorem extracts_of_firesAt {P : List ParserState} {L : HdrStacks} (hL : L = A.hdrStacks S)
    (hP : HasBody (A.counts S) P) (heven : 16 ∣ A.maxExtLen) {ctr : ℕ → K.Counter}
    (hfire : ∀ i, i < (A.counts S).nc →
      K.firesAt (hdrCount S (A.maxExtLen / 16) i) (ctr i) = true)
    {packet : List Byte} (hlen : A.maxExtLen ≤ 8 * packet.length) {c : ParserConfig K}
    (hc : Ready (A := A) (S := S) ctr packet c) :
    ∃ c', Accepts S L T P ((A.counts S).stateNameAt 0) c c' ∧
      Placed S L packet c' (A.maxExtLen / 8) := by
  subst hL
  have hS := S.stackSize_pos
  have hext : (A.counts S).extctResidualByteHdr = 0 := Nat.mod_eq_zero_of_dvd heven
  obtain ⟨c', hacc, -, hload⟩ := accepts_body (S := S) (L := A.hdrStacks S) (T := T) hP hext
    (hdrCount S (A.maxExtLen / 16)) (A.counts S).nc 0 c (by omega)
    (by
      intro j _ hj
      rw [hc.counters j hj]
      exact ⟨hfire j hj, hc.hdrStack j, hdrCount_le_declaredSize hj⟩)
    (by
      rw [sum_hdrCount_nc, hc.pin]
      omega)
  refine ⟨c', hacc, ?_⟩
  intro i hi
  have hle := A.maxExtLen_le
  have hdm := Nat.div_add_mod (i / 2) S.stackSize
  have hlt := Nat.mod_lt (i / 2) hS
  have hnc : i / 2 / S.stackSize < (A.counts S).nc := lt_nc_iff.2 (by omega)
  have hbefore : S.stackSize * (i / 2 / S.stackSize) ≤ A.maxExtLen / 16 := by omega
  have hindex : i / 2 % S.stackSize <
      hdrCount S (A.maxExtLen / 16) (i / 2 / S.stackSize) := by
    rw [hdrCount]
    omega
  refine ⟨_, word packet (i / 2), translate_of_lt (by omega), ?_, rfl, ?_⟩
  · rw [hload _ (Nat.zero_le _) hnc, ← Finset.range_eq_Ico, sum_hdrCount,
      Nat.min_eq_left hbefore, hc.pin, List.getElem?_map, List.getElem?_range hindex]
    simp only [Option.map_some, Option.some.injEq, word, List.getD_eq_getElem?_getD,
      List.getElem?_drop]
    rw [← Nat.mul_add, hdm, ← Nat.add_assoc, ← Nat.mul_add, hdm]
  · rw [extractLsb'_word packet i _ rfl, List.getD_eq_getElem _ _ (by omega),
      List.getElem?_eq_getElem]

/-- The number of headers in stack `i` after an accepting run that placed the prefix. -/
theorem le_length_of_placed {L : HdrStacks} (hL : L = A.hdrStacks S) {packet : List Byte}
    {c' : ParserConfig K} (h : Placed S L packet c' (A.maxExtLen / 8)) {k : ℕ}
    (hk : 2 * k < A.maxExtLen / 8) :
    k % S.stackSize < (c'.hdrStack (k / S.stackSize)).length := by
  subst hL
  obtain ⟨r, e, hr, he, -, -⟩ := h (2 * k) hk
  obtain ⟨-, rfl⟩ := translate_eq_some hr
  rw [Nat.mul_div_cancel_left k (Nat.succ_pos 1)] at he
  exact (List.getElem?_eq_some_iff.1 he).1

/-- If the prefix of a packet of exactly its length is placed, every counter counted the
headers of its stack. -/
theorem firesAt_of_placed {P : List ParserState} {L : HdrStacks} (hL : L = A.hdrStacks S)
    (hP : HasBody (A.counts S) P) {ctr : ℕ → K.Counter} {packet : List Byte}
    (hlen : 8 * packet.length = A.maxExtLen) {c c' : ParserConfig K}
    (hc : Ready (A := A) (S := S) ctr packet c)
    (hacc : Accepts S L T P ((A.counts S).stateNameAt 0) c c')
    (hplaced : Placed S L packet c' (A.maxExtLen / 8)) :
    ∀ i, i < (A.counts S).nc → K.firesAt (hdrCount S (A.maxExtLen / 16) i) (ctr i) = true := by
  obtain ⟨hfires, -, hread⟩ := firesAt_of_accepts_body hP (A.counts S).nc 0 c c' (by omega)
    (fun j _ => hc.hdrStack j) hacc
  have hS := S.stackSize_pos
  have hge : ∀ i ∈ Finset.Ico 0 (A.counts S).nc,
      hdrCount S (A.maxExtLen / 16) i ≤ (c'.hdrStack i).length := by
    intro i hi
    have hi := lt_nc_iff.1 (Finset.mem_Ico.1 hi).2
    -- the last header of stack `i`
    have hcount : 0 < hdrCount S (A.maxExtLen / 16) i := by
      rw [hdrCount]
      omega
    have hle : hdrCount S (A.maxExtLen / 16) i ≤ S.stackSize := Nat.min_le_left _ _
    have hle' : hdrCount S (A.maxExtLen / 16) i ≤ A.maxExtLen / 16 - S.stackSize * i :=
      Nat.min_le_right _ _
    have hlast := le_length_of_placed hL hplaced
      (k := S.stackSize * i + (hdrCount S (A.maxExtLen / 16) i - 1)) (by omega)
    have hlt : hdrCount S (A.maxExtLen / 16) i - 1 < S.stackSize := by omega
    rw [Nat.mul_add_mod, Nat.mod_eq_of_lt hlt, Nat.mul_add_div hS, Nat.div_eq_of_lt hlt,
      Nat.add_zero] at hlast
    omega
  have hsum : ∑ i ∈ Finset.Ico 0 (A.counts S).nc, (c'.hdrStack i).length ≤
      ∑ i ∈ Finset.Ico 0 (A.counts S).nc, hdrCount S (A.maxExtLen / 16) i := by
    rw [sum_hdrCount_nc]
    rw [hc.pin] at hread
    omega
  have heq := (Finset.sum_eq_sum_iff_of_le hge).1
    (Nat.le_antisymm (Finset.sum_le_sum hge) hsum)
  intro i hi
  have hfire := hfires i (Nat.zero_le _) hi
  rw [← heq i (Finset.mem_Ico.2 ⟨Nat.zero_le _, hi⟩), hc.counters i hi] at hfire
  exact hfire

/-- A trailing byte of the extract length is not placed by a parser that has set its
counters. -/
theorem even_of_placed {P : List ParserState} {L : HdrStacks} (hL : L = A.hdrStacks S)
    (hP : HasBody (A.counts S) P) (hK : K.Lawful) {packet : List Byte} {c c' : ParserConfig K}
    (hc : Ready (A := A) (S := S) (fun i => K.set (hdrCount S (A.maxExtLen / 16) i)) packet c)
    (hacc : Accepts S L T P ((A.counts S).stateNameAt 0) c c')
    (hplaced : Placed S L packet c' (A.maxExtLen / 8)) : 16 ∣ A.maxExtLen := by
  obtain ⟨hfires, hsame, -⟩ := firesAt_of_accepts_body hP (A.counts S).nc 0 c c' (by omega)
    (fun j _ => hc.hdrStack j) hacc
  have hS := S.stackSize_pos
  have h8 := A.maxExtLen_dvd
  by_contra hodd
  have hdm := Nat.div_add_mod (A.maxExtLen / 16) S.stackSize
  have hmod := Nat.mod_lt (A.maxExtLen / 16) hS
  have hlast := le_length_of_placed hL hplaced (k := A.maxExtLen / 16) (by omega)
  by_cases hi : A.maxExtLen / 16 / S.stackSize < (A.counts S).nc
  · have hcount : hdrCount S (A.maxExtLen / 16) (A.maxExtLen / 16 / S.stackSize) =
        A.maxExtLen / 16 % S.stackSize := by
      rw [hdrCount]
      omega
    have hpos := lt_nc_iff.1 hi
    have hlaw := hK (A.maxExtLen / 16 % S.stackSize) (by omega)
      (lt_trans hmod S.stackSize_lt)
    have hfire := hfires _ (Nat.zero_le _) hi
    rw [hc.counters _ hi, hcount] at hfire
    have hlength := ParserCounter.firesAt_unique hfire hlaw
    omega
  · rw [hsame _ (Or.inr (by omega)), hc.hdrStack] at hlast
    simp at hlast

/-! ## The agreement -/

/-- The egress parser places the prefix exactly when it has no trailing byte. -/
theorem egress_iff (hK : K.Lawful) :
    (∀ im : List Byte, im.length = T.imSize →
      Extracts K S T A ((A.counts S).createTofinoEgressParser S) im) ↔ 16 ∣ A.maxExtLen := by
  constructor
  · intro h
    have him : (List.replicate T.imSize (0 : Byte)).length = T.imSize := by simp
    have h8 := A.maxExtLen_dvd
    obtain ⟨c', hacc, hplaced⟩ := h _ him (List.replicate (A.maxExtLen / 8) 0) (by
      rw [List.length_replicate]
      omega)
    obtain ⟨c₁, hc, hstart⟩ := egress_start (K := K) (S := S) (A := A) him
    exact even_of_placed rfl hasBody_egress hK hc ((hstart c').1 hacc) hplaced
  · intro heven im him packet hlen
    obtain ⟨c₁, hc, hstart⟩ := egress_start (K := K) (S := S) (A := A) him
    obtain ⟨c', hacc, hplaced⟩ := extracts_of_firesAt rfl hasBody_egress heven (by
      intro i hi
      have hleft := lt_nc_iff.1 hi
      have hS := S.stackSize_pos
      have hle : hdrCount S (A.maxExtLen / 16) i ≤ S.stackSize := Nat.min_le_left _ _
      refine hK _ ?_ (lt_of_le_of_lt hle S.stackSize_lt)
      rw [hdrCount]
      omega) hlen hc
    exact ⟨c', (hstart c').2 hacc, hplaced⟩

/-- The ingress parser places a prefix without trailing byte exactly when a counter that
was never set counts right for every stack. -/
theorem ingress_iff (heven : 16 ∣ A.maxExtLen) :
    (∀ im portMetadata : List Byte, im.length = T.imSize →
      portMetadata.length = (if T.resubmitFlag im then 0 else T.portMetadataSize) →
      Extracts K S T A (A.counts S).createTofinoIngressParser (im ++ portMetadata)) ↔
      ∀ i, S.stackSize * i < A.maxExtLen / 16 →
        K.firesAt (hdrCount S (A.maxExtLen / 16) i) K.init = true := by
  have hS := S.stackSize_pos
  constructor
  · intro h i hi
    have him : (List.replicate T.imSize (0 : Byte)).length = T.imSize := by simp
    have hpm : (List.replicate (if T.resubmitFlag (List.replicate T.imSize 0) then 0
        else T.portMetadataSize) (0 : Byte)).length =
        if T.resubmitFlag (List.replicate T.imSize 0) then 0 else T.portMetadataSize := by
      simp
    have hlen : 8 * (List.replicate (A.maxExtLen / 8) (0 : Byte)).length = A.maxExtLen := by
      rw [List.length_replicate]
      omega
    obtain ⟨c', hacc, hplaced⟩ := h _ _ him hpm _ hlen.ge
    obtain ⟨c₁, hc, hstart⟩ := ingress_start (K := K) (S := S) (A := A) him hpm
    exact firesAt_of_placed rfl hasBody_ingress hlen hc ((hstart c').1 hacc) hplaced i
      (lt_nc_iff.2 hi)
  · intro hfire im portMetadata him hpm packet hlen
    obtain ⟨c₁, hc, hstart⟩ := ingress_start (K := K) (S := S) (A := A) him hpm
    obtain ⟨c', hacc, hplaced⟩ := extracts_of_firesAt rfl hasBody_ingress heven
      (fun i hi => hfire i (lt_nc_iff.1 hi)) hlen hc
    exact ⟨c', (hstart c').2 hacc, hplaced⟩

/-- **Exactly when the layouts agree.**  Both lengths are whole pairs of bytes, the
extract length and the byte stack have the same number of full stacks, and a counter that
was never set first reads zero after the number of headers of each stack the ingress
parser loads. -/
theorem layoutAgrees_iff {K : ParserCounter} (hK : K.Lawful) (S : StackShape)
    (Tin Teg : Target) (A : AnalysisResult) :
    LayoutAgrees K S Tin Teg A ↔
      16 ∣ A.maxExtLen ∧ 16 ∣ A.byteStackSize ∧
        A.maxExtLen / 16 / S.stackSize = A.byteStackSize / 16 / S.stackSize ∧
        ∀ i, S.stackSize * i < A.maxExtLen / 16 →
          K.firesAt (min S.stackSize (A.maxExtLen / 16 - S.stackSize * i)) K.init = true := by
  constructor
  · intro h
    have heven := (egress_iff hK).1 h.egress
    exact ⟨heven, mapped_iff.1 h.mapped, emitsReachable_iff.1 h.ingressDeparser,
      (ingress_iff heven).1 h.ingress⟩
  · rintro ⟨heven, hstack, hfull, hfire⟩
    exact
      { ingress := (ingress_iff heven).2 hfire
        egress := (egress_iff hK).2 heven
        mapped := mapped_iff.2 hstack
        injective := fun i j b c r hb hc hi hj =>
          translateIndexAndSlice_injective S hb hc hi hj
        ingressDeparser := emitsReachable_iff.2 hfull
        egressDeparser := emitsReachable_iff.2 hfull }

/-! ## A counter, and two programs -/

/-- A counter of eight bits that wraps around and starts at zero. -/
def downCounter : ParserCounter where
  Counter := ℕ
  init := 0
  set n := n % 2 ^ 8
  decrement v c := (c + (2 ^ 8 - v % 2 ^ 8)) % 2 ^ 8
  isZero c := c == 0

theorem firesAt_downCounter : ∀ n : ℕ, 0 < n → n < 2 ^ 8 → downCounter.firesAt n n = true
  | 0, h, _ => absurd h (lt_irrefl 0)
  | n + 1, _, hn => by
      have hdec : downCounter.decrement 1 (n + 1 : ℕ) = n := by
        simp only [downCounter]
        omega
      rw [downCounter.firesAt_succ n (n + 1 : ℕ), hdec]
      rcases Nat.eq_zero_or_pos n with h | h
      · subst h
        rfl
      · have hz : ¬ downCounter.isZero n = true := by
          simp only [downCounter, beq_iff_eq]
          exact h.ne'
        rw [if_neg hz]
        exact firesAt_downCounter n h (by omega)

theorem downCounter_lawful : downCounter.Lawful := by
  intro n hpos hlt
  have hset : downCounter.set n = n := Nat.mod_eq_of_lt hlt
  rw [hset]
  exact firesAt_downCounter n hpos hlt

/-- Eight bytes of intrinsic metadata, eight of port metadata, never resubmitted. -/
def plainTarget : Target := ⟨8, 8, fun _ => false⟩

/-- A program that extracts nothing and inserts two bytes has an agreed layout. -/
theorem layoutAgrees_insertOnly :
    LayoutAgrees downCounter .tofino plainTarget plainTarget ⟨0, 16, by decide, by decide⟩ :=
  (layoutAgrees_iff downCounter_lawful .tofino plainTarget plainTarget _).2
    ⟨by decide, by decide, by decide, fun _ h => absurd h (Nat.not_lt_zero _)⟩

/-- An Ethernet and an IPv4 header extracted, 32 bytes inserted: 66 bytes make one full
stack and a partial one, but the deparsers emit the full one only. -/
theorem not_layoutAgrees_insertLong :
    ¬ LayoutAgrees downCounter .tofino plainTarget plainTarget
      ⟨272, 256, by decide, by decide⟩ := by
  intro h
  have hfull := emitsReachable_iff.1 h.ingressDeparser
  revert hfull
  decide

end Tofino
end MicroP4
