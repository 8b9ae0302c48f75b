import MicroP4.Parsing.Actions

/-!
# What substituted statements do

Statements are compared as lists of assignments: `statAssigns rd` are the assignments for
statements that read the packet at a known offset, where `rd` reads a stretch of it.  The
parser reads the bits themselves (`execAll_eq_run`), the converted parser reads slices of
bytes (`map_on_substitute`), and the two readings agree except on a field that neither
starts nor ends at the boundary of a byte.
-/

namespace MicroP4
namespace Parsing

open BitString Assignments

variable {S H F X : Type}

/-! ## Reading a field -/

/-- The slices of a field are its bits. -/
def Aligned (start w : ℕ) : Prop := start % 8 = 0 ∨ w = 0 ∨ 8 ≤ start % 8 + w

/-- The bits the slices for a field read. -/
def readSlices (st : ℕ → Word) (start w : ℕ) : List Bool :=
  (fieldSlices start w).flatMap (Slice.bits st)

theorem Slice.bits_eq (st : ℕ → Word) {b hi lo p n : ℕ} (hhi : hi ≤ 7)
    (hp : 8 * b + (7 - hi) = p) (hn : lo + n = hi + 1) :
    Slice.bits st ⟨b, hi, lo⟩ = readBits (bitAt st) p n := by
  have hlen : hi + 1 - lo = n := by omega
  have hstart : 8 * b + (8 - lo - n) = p := by omega
  show sliceBits (st b) lo (hi + 1 - lo) = readBits (bitAt st) p n
  rw [hlen, sliceBits_eq_readBits st (by omega), hstart]

theorem byteSlices_bits (st : ℕ → Word) {n : ℕ} : ∀ {w byte : ℕ}, w / 8 = n →
    (byteSlices n w byte).flatMap (Slice.bits st) = readBits (bitAt st) (8 * byte) w := by
  induction n with
  | zero =>
      intro w byte hw
      rw [byteSlices]
      by_cases hpos : 0 < w
      · rw [if_pos hpos, List.flatMap_singleton]
        exact Slice.bits_eq st (Nat.le_refl 7) rfl (by omega)
      · have hzero : w = 0 := by omega
        rw [if_neg hpos, hzero]
        rfl
  | succ n ih =>
      intro w byte hw
      have hsplit : w = 8 + (w - 8) := by omega
      have hnext : 8 * byte + 8 = 8 * (byte + 1) := by omega
      rw [byteSlices, List.flatMap_cons, ih (by omega),
        Slice.bits_eq st (p := 8 * byte) (n := 8) (Nat.le_refl 7) rfl rfl]
      conv_rhs => rw [hsplit, readBits_add, hnext]

theorem readSlices_eq (st : ℕ → Word) {start w : ℕ} (h : Aligned start w) :
    readSlices st start w = readBits (bitAt st) start w := by
  unfold readSlices fieldSlices
  by_cases hmod : start % 8 = 0
  · have hstart : 8 * (start / 8) = start := by omega
    rw [hmod, if_neg (by decide), byteSlices_bits st rfl, hstart]
  · rw [if_pos (by omega)]
    by_cases hw : 8 - start % 8 ≤ w
    · have hnext : start + (8 - start % 8) = 8 * (start / 8 + 1) := by omega
      have hsplit : w = (8 - start % 8) + (w - (8 - start % 8)) := by omega
      rw [if_pos hw, List.flatMap_cons, byteSlices_bits st rfl,
        Slice.bits_eq st (p := start) (n := 8 - start % 8) (by omega) (by omega) (by omega)]
      conv_rhs => rw [hsplit, readBits_add, hnext]
    · have hzero : w = 0 := by
        rcases h with h | h | h
        · exact absurd h hmod
        · exact h
        · omega
      rw [if_neg hw, hzero, List.flatMap_singleton,
        Slice.bits_eq st (p := start - 1) (n := 0) (by omega) (by omega) (by omega)]
      rfl

/-- The slice for a field that is not aligned starts one bit too early. -/
theorem readSlices_of_not_aligned (st : ℕ → Word) {start w : ℕ} (h : ¬ Aligned start w) :
    readSlices st start w = readBits (bitAt st) (start - 1) w := by
  unfold Aligned at h
  push Not at h
  obtain ⟨hmod, hw, hlt⟩ := h
  unfold readSlices fieldSlices
  rw [if_pos (by omega), if_neg (by omega), List.flatMap_singleton]
  exact Slice.bits_eq st (by omega) (by omega) (by omega)

/-- Some packet shows the difference. -/
theorem exists_readSlices_ne {start w : ℕ} (h : ¬ Aligned start w) :
    ∃ st : ℕ → Word, readSlices st start w ≠ readBits (bitAt st) start w := by
  have hread := fun st => readSlices_of_not_aligned st h
  unfold Aligned at h
  push Not at h
  obtain ⟨hmod, hw, -⟩ := h
  refine ⟨ofBits fun p => decide (p = start - 1), fun heq => ?_⟩
  obtain ⟨n, rfl⟩ := Nat.exists_eq_succ_of_ne_zero hw
  rw [hread, bitAt_ofBits, Nat.succ_eq_add_one, Nat.add_comm n 1, readBits_add, readBits_add]
    at heq
  have hbit := (List.cons_eq_cons.mp heq).1
  rw [decide_eq_decide] at hbit
  have hstart : start + 0 = start - 1 := hbit.mp rfl
  omega

/-! ## Statements as assignments -/

section Assignments

variable (P : ParserDecl S H F X) (rd : ℕ → ℕ → List Bool)

/-- Filling the fields of a header. -/
def fieldAssigns (h : H) : (start : ℕ) → List (F × ℕ) → List (Assignment (Loc H F X) Value)
  | _, [] => []
  | start, (f, w) :: fs =>
      ⟨.field h f, Expr.const (.bits (rd start w))⟩ :: fieldAssigns h (start + w) fs

theorem fieldAssigns_append (h : H) (start : ℕ) (fs fs' : List (F × ℕ)) :
    (fieldAssigns rd h start (fs ++ fs') : List (Assignment (Loc H F X) Value)) =
      fieldAssigns rd h start fs ++ fieldAssigns rd h (start + (fs.map Prod.snd).sum) fs' := by
  induction fs generalizing start with
  | nil => rfl
  | cons f fs ih =>
      rw [List.cons_append, fieldAssigns, ih, fieldAssigns, List.map_cons, List.sum_cons,
        Nat.add_assoc]
      rfl

/-- Extracting a header from an offset. -/
def extractAssigns (h : H) (start : ℕ) : List (Assignment (Loc H F X) Value) :=
  ⟨.valid h, Expr.const (.flag true)⟩ :: fieldAssigns rd h start (P.fields h) ++
    [⟨.currOffset, Expr.const (.num (start + P.width h))⟩]

/-- Statements from an offset on. -/
def statAssigns : (start : ℕ) → List (ParserStat H F X) → List (Assignment (Loc H F X) Value)
  | _, [] => []
  | start, .extract h :: l => extractAssigns P rd h start ++ statAssigns (start + P.width h) l
  | start, .assign x e :: l => ⟨.var x, e⟩ :: statAssigns start l

/-- How far statements move the cursor. -/
def advance : List (ParserStat H F X) → ℕ
  | [] => 0
  | .extract h :: l => P.width h + advance l
  | .assign _ _ :: l => advance l

theorem statAssigns_append (l₂ : List (ParserStat H F X)) :
    ∀ (l₁ : List (ParserStat H F X)) (start : ℕ), statAssigns P rd start (l₁ ++ l₂) =
      statAssigns P rd start l₁ ++ statAssigns P rd (start + advance P l₁) l₂
  | [], start => rfl
  | .extract h :: l₁, start => by
      rw [List.cons_append, statAssigns, statAssigns_append l₂ l₁, statAssigns, advance,
        List.append_assoc, Nat.add_assoc]
  | .assign x e :: l₁, start => by
      rw [List.cons_append, statAssigns, statAssigns_append l₂ l₁, statAssigns, advance,
        List.cons_append]

theorem advance_append (l₁ l₂ : List (ParserStat H F X)) :
    advance P (l₁ ++ l₂) = advance P l₁ + advance P l₂ := by
  induction l₁ with
  | nil => exact (Nat.zero_add _).symm
  | cons s l₁ ih =>
      cases s with
      | extract h => rw [List.cons_append, advance, ih, advance, Nat.add_assoc]
      | assign x e => rw [List.cons_append, advance, ih, advance]

end Assignments

/-! ## The parser -/

section Exec

variable [DecidableEq H] [DecidableEq F] [DecidableEq X] (P : ParserDecl S H F X)

theorem run_fieldAssigns (pkt : Bits) (h : H) : ∀ (fs : List (F × ℕ)) (start : ℕ)
    (σ : Store H F X), run (fieldAssigns (readBits pkt) h start fs) σ =
      ParserDecl.fillFields pkt h start fs σ
  | [], _, _ => rfl
  | _ :: fs, _, _ => run_fieldAssigns pkt h fs _ _

/-- What the parser does is to assign the bits at the cursor. -/
theorem execAll_eq_run (pkt : Bits) : ∀ (l : List (ParserStat H F X)) {start : ℕ}
    {σ : Store H F X}, σ .currOffset = .num start →
    P.execAll pkt l σ = run (statAssigns P (readBits pkt) start l) σ
  | [], _, _, _ => rfl
  | .extract h :: l, start, σ, hσ => by
      have hcur : ParserDecl.cursor σ = start := by
        rw [ParserDecl.cursor, hσ]
      have hstep : P.exec pkt σ (.extract h) =
          run (extractAssigns P (readBits pkt) h start) σ := by
        rw [ParserDecl.exec, hcur, extractAssigns, run_append, run_cons, run_cons, run_nil,
          run_fieldAssigns]
        rfl
      have hnext : P.exec pkt σ (.extract h) .currOffset = .num (start + P.width h) := by
        rw [ParserDecl.exec, Function.update_self, hcur]
      rw [statAssigns, run_append, ← hstep]
      exact execAll_eq_run pkt l hnext
  | .assign x e :: l, start, σ, hσ => by
      rw [statAssigns, run_cons]
      have hne : (Loc.currOffset : Loc H F X) ≠ .var x := fun h => by cases h
      exact execAll_eq_run pkt l ((Function.update_of_ne hne _ _).trans hσ)

/-- The cursor moves over the headers that are extracted. -/
theorem execAll_currOffset (pkt : Bits) : ∀ (l : List (ParserStat H F X)) {start : ℕ}
    {σ : Store H F X}, σ .currOffset = .num start →
    P.execAll pkt l σ .currOffset = .num (start + advance P l)
  | [], _, _, hσ => hσ
  | .extract h :: l, start, σ, hσ => by
      have hcur : ParserDecl.cursor σ = start := by
        rw [ParserDecl.cursor, hσ]
      have hnext : P.exec pkt σ (.extract h) .currOffset = .num (start + P.width h) := by
        rw [ParserDecl.exec, Function.update_self, hcur]
      rw [advance, ← Nat.add_assoc]
      exact execAll_currOffset pkt l hnext
  | .assign x e :: l, start, σ, hσ => by
      have hne : (Loc.currOffset : Loc H F X) ≠ .var x := fun h => by cases h
      exact execAll_currOffset pkt l ((Function.update_of_ne hne _ _).trans hσ)

end Exec

/-! ## The substituted statements -/

section Substitute

variable (P : ParserDecl S H F X)

theorem map_on_perFieldAsgns (st : ℕ → Word) (h : H) : ∀ (fs : List (F × ℕ)) (start : ℕ),
    (perFieldAsgns h start fs : List (Asgn H F X)).map (Asgn.on st) =
      fieldAssigns (readSlices st) h start fs
  | [], _ => rfl
  | _ :: fs, _ => congrArg (List.cons _) (map_on_perFieldAsgns st h fs _)

theorem map_on_extractAsgns (st : ℕ → Word) (h : H) (start : ℕ) :
    (P.extractAsgns h start).map (Asgn.on st) = extractAssigns P (readSlices st) h start := by
  rw [ParserDecl.extractAsgns, extractAssigns, List.map_append, List.map_cons,
    map_on_perFieldAsgns]
  rfl

variable [DecidableEq H]

/-- Statements that do not extract a header leave its coordinates. -/
theorem foldl_executeStatement_of_notMem {h : H} : ∀ (l : List (ParserStat H F X))
    (m : ParserDecl.ValueMap H), h ∉ ParserDecl.extracted l →
    (l.foldl P.executeStatement m).2 h = m.2 h
  | [], _, _ => rfl
  | .extract h' :: l, m, hmem => by
      obtain ⟨hne, hl⟩ := not_or.mp fun hh => hmem (List.mem_cons.mpr hh)
      rw [List.foldl_cons, foldl_executeStatement_of_notMem l _ hl]
      exact Function.update_of_ne hne _ _
  | .assign _ _ :: l, m, hmem => foldl_executeStatement_of_notMem l m hmem

theorem foldl_executeStatement_fst : ∀ (l : List (ParserStat H F X))
    (m : ParserDecl.ValueMap H), (l.foldl P.executeStatement m).1 = m.1 + advance P l
  | [], _ => rfl
  | .extract h :: l, m => by
      rw [List.foldl_cons, foldl_executeStatement_fst l, ParserDecl.executeStatement, advance,
        Nat.add_assoc]
  | .assign _ _ :: l, m => foldl_executeStatement_fst l m

/-- A header is found where the statement that extracts it stands. -/
theorem map_on_substitute (st : ℕ → Word) (initOffset : ℕ) (fin : ParserDecl.ValueMap H) :
    ∀ (l : List (ParserStat H F X)) (m : ParserDecl.ValueMap H),
      l.foldl P.executeStatement m = fin → (ParserDecl.extracted l).Nodup →
      (l.flatMap (P.substitute fin initOffset)).map (Asgn.on st) =
        statAssigns P (readSlices st) (m.1 + initOffset) l
  | [], _, _, _ => rfl
  | .extract h :: l, m, hfin, hnodup => by
      obtain ⟨hh, hl⟩ := List.nodup_cons.mp hnodup
      have hcoord : fin.2 h = m.1 := by
        rw [← hfin, List.foldl_cons, foldl_executeStatement_of_notMem P l _ hh]
        exact Function.update_self _ _ _
      have hoff : m.1 + P.width h + initOffset = m.1 + initOffset + P.width h := by omega
      rw [List.flatMap_cons, List.map_append,
        map_on_substitute st initOffset fin l (P.executeStatement m (.extract h)) hfin hl,
        ParserDecl.substitute, hcoord, map_on_extractAsgns, statAssigns,
        ParserDecl.executeStatement, hoff]
  | .assign x e :: l, m, hfin, hnodup => by
      rw [List.flatMap_cons, List.map_append,
        map_on_substitute st initOffset fin l m hfin hnodup]
      rfl

end Substitute

/-! ## Alignment -/

section Alignment

variable (P : ParserDecl S H F X)

/-- All fields of a header are aligned. -/
def AlignedFields : (start : ℕ) → List (F × ℕ) → Prop
  | _, [] => True
  | start, (_, w) :: fs => Aligned start w ∧ AlignedFields (start + w) fs

/-- All fields that statements extract are aligned. -/
def AlignedStats : (start : ℕ) → List (ParserStat H F X) → Prop
  | _, [] => True
  | start, .extract h :: l => AlignedFields start (P.fields h) ∧ AlignedStats (start + P.width h) l
  | start, .assign _ _ :: l => AlignedStats start l

theorem fieldAssigns_readSlices (st : ℕ → Word) (h : H) : ∀ {fs : List (F × ℕ)} {start : ℕ},
    AlignedFields start fs →
    (fieldAssigns (readSlices st) h start fs : List (Assignment (Loc H F X) Value)) =
      fieldAssigns (readBits (bitAt st)) h start fs
  | [], _, _ => rfl
  | (f, w) :: fs, start, hal => by
      rw [fieldAssigns, fieldAssigns, readSlices_eq st hal.1, fieldAssigns_readSlices st h hal.2]

theorem statAssigns_readSlices (st : ℕ → Word) : ∀ {l : List (ParserStat H F X)} {start : ℕ},
    AlignedStats P start l →
    statAssigns P (readSlices st) start l = statAssigns P (readBits (bitAt st)) start l
  | [], _, _ => rfl
  | .extract h :: l, start, hal => by
      rw [statAssigns, statAssigns, extractAssigns, extractAssigns,
        fieldAssigns_readSlices st h hal.1, statAssigns_readSlices st hal.2]
  | .assign x e :: l, start, hal => by
      exact congrArg (List.cons _)
        (statAssigns_readSlices st (show AlignedStats P start l from hal))

end Alignment

end Parsing
end MicroP4
