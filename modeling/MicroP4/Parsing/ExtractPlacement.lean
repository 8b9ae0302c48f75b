import MicroP4.Parsing.ActionEffect

/-!
# Where an extracted field is read

`createPerFieldAssignmentStmts` goes over the fields of a header type and makes one assignment
for each, of the concatenation of slices of bytes.  A field that starts inside of a byte and
ends before its last bit is made of one slice, which starts one bit too early; all other fields
of some width are read where they stand.
-/

namespace MicroP4
namespace Parsing

open BitString Assignments

variable {H F X : Type}

/-- A header type: fields of distinct names with their widths. -/
structure HeaderType (F : Type) where
  fields : List (F × ℕ)
  nodup : (fields.map Prod.fst).Nodup

/-- `createPerFieldAssignmentStmts`; it fails on a field without slices. -/
def createPerFieldAssignmentStmts (h : H) :
    (start : ℕ) → List (F × ℕ) → Option (List (Asgn H F X))
  | start, [] => some [⟨.currOffset, .const (.num start)⟩]
  | start, (f, w) :: fs =>
      if fieldSlices start w = [] then none
      else
        (createPerFieldAssignmentStmts h (start + w) fs).map
          (⟨.field h f, .slices (fieldSlices start w)⟩ :: ·)

/-- The number of bits of a slice. -/
def Slice.width (s : Slice) : ℕ := s.hi + 1 - s.lo

/-- The slice is within its byte. -/
def Slice.WithinByte (s : Slice) : Prop := s.lo ≤ s.hi ∧ s.hi ≤ 7

/-- The assignments give every field the bits from the end of the fields in front of it on, by
slices within their bytes that have its width together, and `curr_offset` the end of the
header. -/
def PlacesFields (X : Type) [DecidableEq H] [DecidableEq F] [DecidableEq X] (h : H)
    (T : HeaderType F) (start : ℕ) : Prop :=
  ∃ l : List (Asgn H F X), createPerFieldAssignmentStmts h start T.fields = some l ∧
    ∀ (st : ℕ → Word) (σ : Store H F X),
      run (l.map (Asgn.on st)) σ .currOffset = .num (start + (T.fields.map Prod.snd).sum) ∧
      ∀ l₁ f w l₂, T.fields = l₁ ++ (f, w) :: l₂ →
        run (l.map (Asgn.on st)) σ (.field h f) =
            .bits (readBits (bitAt st) (start + (l₁.map Prod.snd).sum) w) ∧
          ∃ ss : List Slice, ⟨.field h f, .slices ss⟩ ∈ l ∧ (∀ s ∈ ss, s.WithinByte) ∧
            (ss.map Slice.width).sum = w

/-- Every field has some width, and starts at a byte or reaches the end of the byte it starts
in. -/
def FieldsAligned (fs : List (F × ℕ)) (start : ℕ) : Prop :=
  ∀ l₁ f w l₂, fs = l₁ ++ (f, w) :: l₂ →
    0 < w ∧ Aligned (start + (l₁.map Prod.snd).sum) w

/-! ## Slices of one field -/

theorem byteSlices_withinByte {n : ℕ} : ∀ (w byte : ℕ), w / 8 = n →
    (∀ s ∈ byteSlices n w byte, s.WithinByte) ∧
      ((byteSlices n w byte).map Slice.width).sum = w := by
  induction n with
  | zero =>
      intro w byte hw
      rw [byteSlices]
      by_cases hpos : 0 < w
      · rw [if_pos hpos]
        refine ⟨fun s hs => ?_, ?_⟩
        · rw [List.mem_singleton.mp hs]
          exact ⟨by show 8 - w ≤ 7; omega, Nat.le_refl 7⟩
        · rw [List.map_singleton, List.sum_singleton, Slice.width]
          dsimp only
          omega
      · rw [if_neg hpos]
        refine ⟨fun s hs => absurd hs List.not_mem_nil, ?_⟩
        exact (Nat.eq_zero_of_not_pos hpos).symm
  | succ n ih =>
      intro w byte hw
      obtain ⟨hall, hsum⟩ := ih (w - 8) (byte + 1) (by omega)
      rw [byteSlices]
      refine ⟨fun s hs => ?_, ?_⟩
      · rcases List.mem_cons.mp hs with rfl | hs
        · exact ⟨Nat.zero_le _, Nat.le_refl 7⟩
        · exact hall s hs
      · rw [List.map_cons, List.sum_cons, hsum, Slice.width]
        dsimp only
        omega

theorem fieldSlices_withinByte (start : ℕ) {w : ℕ} (hw : 0 < w) :
    (∀ s ∈ fieldSlices start w, s.WithinByte) ∧
      ((fieldSlices start w).map Slice.width).sum = w := by
  unfold fieldSlices
  by_cases hmod : start % 8 = 0
  · rw [if_neg (by omega)]
    exact byteSlices_withinByte _ _ rfl
  · rw [if_pos (by omega)]
    by_cases hle : 8 - start % 8 ≤ w
    · obtain ⟨hall, hsum⟩ := byteSlices_withinByte (w - (8 - start % 8)) (start / 8 + 1) rfl
      rw [if_pos hle]
      refine ⟨fun s hs => ?_, ?_⟩
      · rcases List.mem_cons.mp hs with rfl | hs
        · exact ⟨Nat.zero_le _, by show 8 - start % 8 - 1 ≤ 7; omega⟩
        · exact hall s hs
      · rw [List.map_cons, List.sum_cons, hsum, Slice.width]
        dsimp only
        omega
    · rw [if_neg hle]
      refine ⟨fun s hs => ?_, ?_⟩
      · rw [List.mem_singleton.mp hs]
        exact ⟨by show 8 - start % 8 - w + 1 ≤ 8 - start % 8; omega,
          by show 8 - start % 8 ≤ 7; omega⟩
      · rw [List.map_singleton, List.sum_singleton, Slice.width]
        dsimp only
        omega

/-- Slices within their bytes that have no width together are none. -/
theorem eq_nil_of_withinByte {ss : List Slice} (hall : ∀ s ∈ ss, s.WithinByte)
    (hsum : (ss.map Slice.width).sum = 0) : ss = [] := by
  cases ss with
  | nil => rfl
  | cons s ss =>
      have hle : s.lo ≤ s.hi := (hall s List.mem_cons_self).1
      rw [List.map_cons, List.sum_cons, Slice.width] at hsum
      omega

/-! ## All fields -/

/-- The assignment for a field. -/
def fieldAsgn (h : H) (start : ℕ) (f : F) (w : ℕ) : Asgn H F X :=
  ⟨.field h f, .slices (fieldSlices start w)⟩

/-- The assignments, when no field is without slices. -/
theorem createPerFieldAssignmentStmts_eq (h : H) : ∀ (fs : List (F × ℕ)) (start : ℕ),
    (∀ l₁ f w l₂, fs = l₁ ++ (f, w) :: l₂ →
      fieldSlices (start + (l₁.map Prod.snd).sum) w ≠ []) →
    (createPerFieldAssignmentStmts h start fs : Option (List (Asgn H F X))) =
      some (perFieldAsgns h start fs ++
        [⟨.currOffset, .const (.num (start + (fs.map Prod.snd).sum))⟩])
  | [], _, _ => rfl
  | (f, w) :: fs, start, hne => by
      have hfirst : fieldSlices start w ≠ [] := hne [] f w fs rfl
      rw [createPerFieldAssignmentStmts, if_neg hfirst,
        createPerFieldAssignmentStmts_eq h fs (start + w), List.map_cons, List.sum_cons,
        Nat.add_assoc, perFieldAsgns]
      · rfl
      · intro l₁ f' w' l₂ hfs
        have hrest := hne ((f, w) :: l₁) f' w' l₂ (by rw [hfs]; rfl)
        rwa [List.map_cons, List.sum_cons, ← Nat.add_assoc] at hrest

/-- If the assignments are made, every field has slices. -/
theorem fieldSlices_ne_nil {h : H} : ∀ {fs : List (F × ℕ)} {start : ℕ} {l : List (Asgn H F X)},
    createPerFieldAssignmentStmts h start fs = some l → ∀ l₁ f w l₂, fs = l₁ ++ (f, w) :: l₂ →
      fieldSlices (start + (l₁.map Prod.snd).sum) w ≠ []
  | [], _, _, _, l₁, f, w, l₂, hfs => absurd hfs.symm (by simp)
  | (f, w) :: fs, start, l, hl, l₁, f', w', l₂, hfs => by
      rw [createPerFieldAssignmentStmts] at hl
      split at hl
      · cases hl
      · rename_i hne
        obtain ⟨l', hl', -⟩ := Option.map_eq_some_iff.mp hl
        rcases l₁ with _ | ⟨p, l₁⟩
        · obtain ⟨hp, -⟩ := List.cons_eq_cons.mp hfs
          cases hp
          exact hne
        · obtain ⟨hp, hrest⟩ := List.cons_eq_cons.mp hfs
          cases hp
          have hind := fieldSlices_ne_nil hl' l₁ f' w' l₂ hrest
          rwa [Nat.add_assoc] at hind

theorem perFieldAsgns_append (h : H) : ∀ (l₁ l₂ : List (F × ℕ)) (start : ℕ),
    (perFieldAsgns h start (l₁ ++ l₂) : List (Asgn H F X)) =
      perFieldAsgns h start l₁ ++ perFieldAsgns h (start + (l₁.map Prod.snd).sum) l₂
  | [], _, _ => rfl
  | p :: l₁, l₂, start => by
      rw [List.cons_append, perFieldAsgns, perFieldAsgns_append h l₁, perFieldAsgns, List.map_cons,
        List.sum_cons, Nat.add_assoc]
      rfl

theorem exists_of_mem_perFieldAsgns {h : H} {a : Asgn H F X} : ∀ {fs : List (F × ℕ)} {start : ℕ},
    a ∈ perFieldAsgns h start fs → ∃ l₁ f w l₂, fs = l₁ ++ (f, w) :: l₂ ∧
      a = fieldAsgn h (start + (l₁.map Prod.snd).sum) f w
  | [], _, ha => absurd ha List.not_mem_nil
  | (f, w) :: fs, start, ha => by
      rcases List.mem_cons.mp ha with rfl | ha
      · exact ⟨[], f, w, fs, rfl, rfl⟩
      · obtain ⟨l₁, f', w', l₂, rfl, rfl⟩ := exists_of_mem_perFieldAsgns ha
        refine ⟨(f, w) :: l₁, f', w', l₂, rfl, ?_⟩
        rw [List.map_cons, List.sum_cons, Nat.add_assoc]

variable [DecidableEq H] [DecidableEq F] [DecidableEq X]

/-- The value of a field is what its own slices read. -/
theorem run_perFieldAsgns {T : HeaderType F} (h : H) (start n : ℕ) (st : ℕ → Word)
    (σ : Store H F X) {l₁ l₂ : List (F × ℕ)} {f : F} {w : ℕ}
    (hT : T.fields = l₁ ++ (f, w) :: l₂) :
    run ((perFieldAsgns h start T.fields ++
      [(⟨.currOffset, .const (.num n)⟩ : Asgn H F X)]).map (Asgn.on st)) σ (.field h f) =
        .bits (readSlices st (start + (l₁.map Prod.snd).sum) w) := by
  have hnodup := T.nodup
  rw [hT, List.map_append, List.map_cons, List.nodup_append] at hnodup
  obtain ⟨-, htail, -⟩ := hnodup
  obtain ⟨hf, -⟩ := List.nodup_cons.mp htail
  rw [hT, perFieldAsgns_append, perFieldAsgns, List.append_assoc, List.map_append,
    List.cons_append, List.map_cons]
  refine run_eq_of_last (a := (fieldAsgn h (start + (l₁.map Prod.snd).sum) f w : Asgn H F X).on st)
    (fun _ => rfl) fun b hb => ?_
  obtain ⟨a, ha, rfl⟩ := List.mem_map.mp hb
  rcases List.mem_append.mp ha with ha | ha
  · obtain ⟨l₃, f', w', l₄, rfl, rfl⟩ := exists_of_mem_perFieldAsgns ha
    intro heq
    have hfield : (Loc.field h f' : Loc H F X) = .field h f := heq
    cases hfield
    exact hf (List.mem_map.mpr ⟨(f, w'), List.mem_append_right _ List.mem_cons_self, rfl⟩)
  · rw [List.mem_singleton.mp ha]
    intro heq
    have hoffset : (Loc.currOffset : Loc H F X) = .field h f := heq
    cases hoffset

variable (X) in
/-- **Exactly when the fields of a header are read where they stand.** -/
theorem placesFields_iff (h : H) (T : HeaderType F) (start : ℕ) :
    PlacesFields X h T start ↔ FieldsAligned T.fields start := by
  constructor
  · rintro ⟨l, hl, hrun⟩ l₁ f w l₂ hT
    have hl' : createPerFieldAssignmentStmts h start T.fields = _ :=
      createPerFieldAssignmentStmts_eq (X := X) h T.fields start (fieldSlices_ne_nil hl)
    obtain rfl := Option.some.inj (hl.symm.trans hl')
    have hread : ∀ st : ℕ → Word, readSlices st (start + (l₁.map Prod.snd).sum) w =
        readBits (bitAt st) (start + (l₁.map Prod.snd).sum) w := by
      intro st
      have hvalue := ((hrun st fun _ => Value.flag false).2 l₁ f w l₂ hT).1
      rw [run_perFieldAsgns h start _ st _ hT] at hvalue
      exact Value.bits.inj hvalue
    refine ⟨Nat.pos_of_ne_zero fun hw => ?_, ?_⟩
    · -- without width there is no slice, but every field has one
      obtain ⟨ss, hss, hwithin, hsum⟩ :=
        ((hrun (fun _ _ => false) fun _ => Value.flag false).2 l₁ f w l₂ hT).2
      rw [eq_nil_of_withinByte hwithin (hsum.trans hw)] at hss
      rcases List.mem_append.mp hss with hmem | hmem
      · obtain ⟨l₃, f', w', l₄, hT', heq⟩ := exists_of_mem_perFieldAsgns hmem
        have hnil : [] = fieldSlices (start + (l₃.map Prod.snd).sum) w' :=
          Rhs.slices.inj (congrArg Asgn.rhs heq)
        exact fieldSlices_ne_nil hl l₃ f' w' l₄ hT' hnil.symm
      · have hoffset : (Loc.field h f : Loc H F X) = .currOffset :=
          congrArg Asgn.target (List.mem_singleton.mp hmem)
        cases hoffset
    · by_contra hnot
      obtain ⟨st, hst⟩ := exists_readSlices_ne hnot
      exact hst (hread st)
  · intro hall
    have hne : ∀ l₁ f w l₂, T.fields = l₁ ++ (f, w) :: l₂ →
        fieldSlices (start + (l₁.map Prod.snd).sum) w ≠ [] := by
      intro l₁ f w l₂ hT hnil
      have hsum := (fieldSlices_withinByte (start + (l₁.map Prod.snd).sum)
        (hall l₁ f w l₂ hT).1).2
      rw [hnil] at hsum
      exact absurd hsum.symm (Nat.pos_iff_ne_zero.mp (hall l₁ f w l₂ hT).1)
    refine ⟨_, createPerFieldAssignmentStmts_eq h T.fields start hne, fun st σ => ⟨?_, ?_⟩⟩
    · rw [List.map_append]
      refine run_eq_of_last
        (a := (⟨.currOffset, .const (.num (start + (T.fields.map Prod.snd).sum))⟩ :
          Asgn H F X).on st) (fun _ => rfl) fun b hb => absurd hb List.not_mem_nil
    · intro l₁ f w l₂ hT
      obtain ⟨hw, haligned⟩ := hall l₁ f w l₂ hT
      refine ⟨?_, fieldSlices (start + (l₁.map Prod.snd).sum) w, ?_,
        fieldSlices_withinByte _ hw⟩
      · rw [run_perFieldAsgns h start _ st σ hT, readSlices_eq st haligned]
      · rw [hT, perFieldAsgns_append]
        refine List.mem_append_left _ (List.mem_append_right _ ?_)
        exact List.mem_cons_self

/-- Two fields of 3 bits: the second one starts at bit 3 and ends at bit 6. -/
def twoThreeBits : HeaderType Bool := ⟨[(false, 3), (true, 3)], by decide⟩

/-- The second field is read from bit 2 on. -/
theorem not_placesFields_twoThreeBits : ¬ PlacesFields Empty () twoThreeBits 0 := by
  rintro ⟨l, hl, hrun⟩
  cases Option.some.inj hl
  have hvalue := ((hrun (fun _ i => decide (i = 5)) fun _ => .flag false).2 [(false, 3)] true 3 []
    rfl).1
  exact absurd hvalue (by decide)

end Parsing
end MicroP4
