import Mathlib.Data.List.Chain
import Mathlib.Data.List.Induction
import MicroP4.Tofino.SliceAccess

/-!
# Reducing concatenations

`ReduceConcatExpression` flattens a concatenation, puts each slice that continues the one in
front of it together with that one, and builds the concatenation again from the left.  The
visitor then goes on to the children of what it has built, which holds further concatenations.
-/

namespace MicroP4
namespace Tofino

open BitString

/-- The slices that are put together so far, `curr->e0[h:curL]`. -/
structure SliceRun where
  e0 : Access
  h : ℕ
  curL : ℕ

/-- The run as one slice. -/
def SliceRun.operand (r : SliceRun) : Operand := .slice r.e0 r.h r.curL

/-- `reduce`. -/
def SliceRun.reduce (T : Types) (r : SliceRun) : Operand := makeSlice T r.e0 r.curL r.h

/-- `checkReducibility` for a slice of `e0` with the upper bound `eH`. -/
def SliceRun.checkReducibility (r : SliceRun) (e0 : Access) (eH : ℕ) : Bool :=
  if eH + 1 ≠ r.curL then false else compareExpression r.e0 e0

/-- The variables of the loop in `preorder(Concat)`. -/
structure Reduction where
  concatVec : List Operand
  curr : Option SliceRun

namespace Reduction

/-- The body of the loop. -/
def step (T : Types) (s : Reduction) : Operand → Reduction
  | .slice e0 h l =>
      match s.curr with
      | none => { s with curr := some ⟨e0, h, l⟩ }
      | some r =>
          if r.checkReducibility e0 h then { s with curr := some { r with curL := l } }
          else ⟨s.concatVec ++ [r.reduce T], some ⟨e0, h, l⟩⟩
  | .access e =>
      match s.curr with
      | none => { s with concatVec := s.concatVec ++ [.access e] }
      | some r => ⟨s.concatVec ++ [r.reduce T, .access e], none⟩

/-- The variables after some operands. -/
def after (T : Types) (exprVec : List Operand) : Reduction := exprVec.foldl (step T) ⟨[], none⟩

/-- `concatVec` at the end. -/
def finish (T : Types) (s : Reduction) : List Operand :=
  match s.curr with
  | none => s.concatVec
  | some r => s.concatVec ++ [r.reduce T]

theorem after_append (T : Types) (l : List Operand) (x : Operand) :
    after T (l ++ [x]) = (after T l).step T x := by
  unfold after
  rw [List.foldl_append]
  rfl

end Reduction

/-- `preorder(Concat)`; `createConcat` takes no empty vector. -/
def reduceConcat (T : Types) (t : Concat Operand) : Option (Concat Operand) :=
  match (Reduction.after T t.flatten).finish T with
  | [] => none
  | x :: concatVec => some (.createConcat (.operand x) (concatVec.map .operand))

/-! ## The size of a concatenation -/

theorem Concat.flatten_ne_nil {α : Type} (t : Concat α) : t.flatten ≠ [] := by
  induction t with
  | operand exp => exact List.cons_ne_nil _ _
  | concat left right ihl _ => exact fun h => ihl (List.append_eq_nil_iff.mp h).1

theorem Concat.flatten_createConcat {α : Type} (first : Concat α) (l : List α) :
    (createConcat first (l.map .operand)).flatten = first.flatten ++ l := by
  unfold createConcat
  induction l generalizing first with
  | nil => exact (List.append_nil _).symm
  | cons x l ih =>
      rw [List.map_cons, List.foldl_cons, ih, flatten, List.append_assoc]
      rfl

namespace Reduction

variable {T : Types}

theorem length_finish_step (s : Reduction) (x : Operand) :
    ((s.step T x).finish T).length ≤ (s.finish T).length + 1 := by
  obtain ⟨concatVec, curr⟩ := s
  cases x with
  | slice e0 h l =>
      cases curr with
      | none => simp [step, finish]
      | some r =>
          by_cases hr : r.checkReducibility e0 h = true
          · simp [step, finish, hr]
          · simp [step, finish, hr]
  | access e => cases curr <;> simp [step, finish]

theorem length_finish_after (l : List Operand) : ((after T l).finish T).length ≤ l.length := by
  induction l using List.reverseRecOn with
  | nil => exact Nat.le_refl 0
  | append_singleton l x ih =>
      rw [after_append, List.length_append]
      exact Nat.le_trans (length_finish_step _ x) (Nat.succ_le_succ ih)

end Reduction

theorem flatten_reduceConcat {T : Types} {t r : Concat Operand} (h : reduceConcat T t = some r) :
    r.flatten = (Reduction.after T t.flatten).finish T := by
  unfold reduceConcat at h
  split at h
  · cases h
  · rename_i x concatVec heq
    rw [← Option.some.inj h, Concat.flatten_createConcat, heq]
    rfl

/-- The children of what is built are smaller than what was there. -/
theorem length_lt_of_reduceConcat {T : Types} {t c d : Concat Operand}
    (h : reduceConcat T t = some (.concat c d)) :
    c.flatten.length < t.flatten.length ∧ d.flatten.length < t.flatten.length := by
  have hle := Reduction.length_finish_after (T := T) t.flatten
  rw [← flatten_reduceConcat h, Concat.flatten, List.length_append] at hle
  have hc := List.length_pos_iff.mpr c.flatten_ne_nil
  have hd := List.length_pos_iff.mpr d.flatten_ne_nil
  omega

/-- `ReduceConcatExpression`. -/
def reduceConcatExpression (T : Types) : Concat Operand → Option (Concat Operand)
  | .operand x => some (.operand x)
  | .concat left right =>
      match _h : reduceConcat T (.concat left right) with
      | none => none
      | some (.operand x) => some (.operand x)
      | some (.concat c d) =>
          (reduceConcatExpression T c).bind fun c => (reduceConcatExpression T d).map fun d =>
            .concat c d
termination_by t => t.flatten.length
decreasing_by
  · exact (length_lt_of_reduceConcat _h).1
  · exact (length_lt_of_reduceConcat _h).2

/-! ## The property -/

/-- A concatenation of operands of some types. -/
structure TypedConcat (T : Types) where
  expr : Concat Operand
  wellTyped : ∀ x ∈ expr.flatten, x.WellTyped T

/-- The width of a concatenation. -/
def Concat.width (T : Types) (t : Concat Operand) : ℕ := (t.flatten.map (Operand.width T)).sum

/-- Behind these operands, a slice is put together with what is in front of it. -/
def Merges (T : Types) (pre : List Operand) (e0 : Access) (h : ℕ) : Prop :=
  ∃ r, (Reduction.after T pre).curr = some r ∧ r.checkReducibility e0 h = true

/-- Slices are only put together with a neighbour that ends where they start, in the same
place. -/
def MergesContiguous (T : Types) (l : List Operand) : Prop :=
  ∀ pre a e0 h k post, l = pre ++ a :: .slice e0 h k :: post →
    Merges T (pre ++ [a]) e0 h → ∃ h', a = .slice e0 h' (h + 1)

/-- The result of the pass has the same width and in every state the same bits, and slices are
put together where they may be. -/
def ReducesCorrectly {T : Types} (t : TypedConcat T) : Prop :=
  (∃ r, reduceConcatExpression T t.expr = some r ∧ r.width T = t.expr.width T ∧
    ∀ σ, r.value (Operand.value T σ) = t.expr.value (Operand.value T σ)) ∧
  MergesContiguous T t.expr.flatten

/-- Of two neighbours, the second is not a slice that continues one of another, but similar
access. -/
def Operand.Distinguished : Operand → Operand → Prop
  | .slice e0 _ l, .slice e0' h' _ => h' + 1 = l → e0.Alike e0' → e0 = e0'
  | _, _ => True

theorem SliceRun.checkReducibility_iff {r : SliceRun} {e0 : Access} {h : ℕ} :
    r.checkReducibility e0 h = true ↔ h + 1 = r.curL ∧ r.e0.Alike e0 := by
  unfold checkReducibility
  by_cases hl : h + 1 = r.curL
  · rw [if_neg (not_not.mpr hl), compareExpression_iff]
    exact (and_iff_right hl).symm
  · rw [if_pos hl]
    exact iff_of_false Bool.noConfusion fun h => hl h.1

/-! ## What has been read -/

variable {T : Types}

theorem MergesContiguous.of_append {l l' : List Operand} (h : MergesContiguous T (l ++ l')) :
    MergesContiguous T l := by
  intro pre a e0 hi k post hl
  refine h pre a e0 hi k (post ++ l') ?_
  rw [hl, List.append_assoc]
  rfl

namespace Reduction

/-- The bits of what has been read. -/
def value (T : Types) (σ : Loc → Word) (s : Reduction) : List Bool :=
  s.concatVec.flatMap (Operand.value T σ) ++
    (s.curr.toList.flatMap fun r => r.operand.value T σ)

/-- What the loop keeps, when it puts together what it may. -/
structure Inv (T : Types) (l : List Operand) (s : Reduction) : Prop where
  value : ∀ σ, s.value T σ = l.flatMap (Operand.value T σ)
  wellTyped : ∀ r, s.curr = some r → r.operand.WellTyped T
  last : ∀ e0 h k pre, l = pre ++ [.slice e0 h k] →
    ∃ r, s.curr = some r ∧ r.e0 = e0 ∧ r.curL = k
  slice : ∀ r, s.curr = some r → ∃ pre h, l = pre ++ [.slice r.e0 h r.curL]

theorem inv_nil : Inv T [] (after T []) where
  value := fun _ => rfl
  wellTyped := fun r hr => absurd (show none = some r from hr) (Option.some_ne_none r).symm
  last := fun _ _ _ pre hl => absurd hl (List.append_ne_nil_of_right_ne_nil pre (by simp)).symm
  slice := fun r hr => absurd (show none = some r from hr) (Option.some_ne_none r).symm

theorem step_access (s : Reduction) (e : Access) :
    s.step T (.access e) = ⟨s.finish T ++ [.access e], none⟩ := by
  obtain ⟨concatVec, curr⟩ := s
  cases curr with
  | none => rfl
  | some r =>
      show Reduction.mk (concatVec ++ [r.reduce T, .access e]) none =
        ⟨concatVec ++ [r.reduce T] ++ [.access e], none⟩
      rw [List.append_assoc]
      rfl

/-- The step for a slice: it continues the run, or it starts one. -/
theorem step_slice (s : Reduction) (e0 : Access) (h l : ℕ) :
    (∃ r, s.curr = some r ∧ r.checkReducibility e0 h = true ∧
      s.step T (.slice e0 h l) = ⟨s.concatVec, some { r with curL := l }⟩) ∨
    ((∀ r, s.curr = some r → r.checkReducibility e0 h = false) ∧
      s.step T (.slice e0 h l) = ⟨s.finish T, some ⟨e0, h, l⟩⟩) := by
  obtain ⟨concatVec, curr⟩ := s
  cases curr with
  | none => exact Or.inr ⟨fun r hr => absurd hr (Option.some_ne_none r).symm, rfl⟩
  | some r =>
      by_cases hr : r.checkReducibility e0 h = true
      · exact Or.inl ⟨r, rfl, hr, if_pos hr⟩
      · refine Or.inr ⟨fun r' hr' => ?_, if_neg hr⟩
        rw [← Option.some.inj hr']
        exact Bool.not_eq_true _ ▸ hr

theorem value_finish {l : List Operand} {s : Reduction} (h : Inv T l s) (σ : Loc → Word) :
    (s.finish T).flatMap (Operand.value T σ) = l.flatMap (Operand.value T σ) := by
  rw [← h.value σ]
  unfold finish Reduction.value
  cases hr : s.curr with
  | none => simp
  | some r =>
      have hmake := value_makeSlice (h.wellTyped r hr) σ
      simp [SliceRun.reduce, SliceRun.operand, hmake]

theorem Inv.access {l : List Operand} {s : Reduction} (h : Inv T l s) (e : Access) :
    Inv T (l ++ [.access e]) ⟨s.finish T ++ [.access e], none⟩ where
  value := fun σ => by
    rw [List.flatMap_append, ← value_finish h σ, ← List.flatMap_append]
    exact List.append_nil _
  wellTyped := fun r hr => absurd hr (Option.some_ne_none r).symm
  last := fun e0 hi k pre hl => by
    have hx := (List.append_inj' hl rfl).2
    cases hx
  slice := fun r hr => absurd hr (Option.some_ne_none r).symm

theorem Inv.startRun {l : List Operand} {s : Reduction} (h : Inv T l s) {e0 : Access} {hi k : ℕ}
    (hw : (Operand.slice e0 hi k).WellTyped T) :
    Inv T (l ++ [.slice e0 hi k]) ⟨s.finish T, some ⟨e0, hi, k⟩⟩ where
  value := fun σ => by
    rw [List.flatMap_append, List.flatMap_singleton, ← value_finish h σ]
    show (s.finish T).flatMap _ ++ [SliceRun.mk e0 hi k].flatMap _ = _
    rw [List.flatMap_singleton]
    rfl
  wellTyped := fun r hr => by
    rw [← Option.some.inj hr]
    exact hw
  last := fun e0' hi' k' pre hl => by
    have hx := (List.append_inj' hl rfl).2
    cases hx
    exact ⟨_, rfl, rfl, rfl⟩
  slice := fun r hr => by
    rw [← Option.some.inj hr]
    exact ⟨l, hi, rfl⟩

/-- A run goes on with a slice of its own access. -/
theorem Inv.extendRun {l : List Operand} {s : Reduction} (h : Inv T l s) {r : SliceRun}
    (hr : s.curr = some r) {hi k : ℕ} (hhi : hi + 1 = r.curL)
    (hw : (Operand.slice r.e0 hi k).WellTyped T) :
    Inv T (l ++ [.slice r.e0 hi k]) ⟨s.concatVec, some { r with curL := k }⟩ where
  value := fun σ => by
    obtain ⟨hle, -⟩ := h.wellTyped r hr
    obtain ⟨hle', -⟩ := hw
    rw [List.flatMap_append, List.flatMap_singleton, ← h.value σ]
    unfold Reduction.value
    rw [hr]
    simp only [Option.toList_some, List.flatMap_singleton, List.append_assoc]
    congr 1
    -- the bits of a run are those of its parts
    show sliceBits _ k (r.h + 1 - k) = sliceBits _ r.curL (r.h + 1 - r.curL) ++
      sliceBits _ k (hi + 1 - k)
    have hlen : r.h + 1 - k = (r.h + 1 - r.curL) + (hi + 1 - k) := by omega
    have hstart : k + (hi + 1 - k) = r.curL := by omega
    rw [hlen, sliceBits_add, hstart]
  wellTyped := fun r' hr' => by
    obtain ⟨hle, hlt, hconst⟩ := h.wellTyped r hr
    obtain ⟨hle', -⟩ := hw
    rw [← Option.some.inj hr']
    exact ⟨by show k ≤ r.h; omega, hlt, hconst⟩
  last := fun e0' hi' k' pre hl => by
    have hx := (List.append_inj' hl rfl).2
    cases hx
    exact ⟨_, rfl, rfl, rfl⟩
  slice := fun r' hr' => by
    rw [← Option.some.inj hr']
    exact ⟨l, hi, rfl⟩

/-- **The loop keeps the bits**, when slices are put together where they may be. -/
theorem inv_after {l : List Operand} (hw : ∀ x ∈ l, x.WellTyped T) (hm : MergesContiguous T l) :
    Inv T l (after T l) := by
  induction l using List.reverseRecOn with
  | nil => exact inv_nil
  | append_singleton l x ih =>
      have h := ih (fun y hy => hw y (List.mem_append_left _ hy)) hm.of_append
      have hx := hw x (List.mem_append_right _ (List.mem_singleton_self x))
      rw [after_append]
      cases x with
      | access e =>
          rw [step_access]
          exact h.access e
      | slice e0 hi k =>
          rcases step_slice (T := T) (after T l) e0 hi k with ⟨r, hr, hcheck, hstep⟩ | ⟨-, hstep⟩
          · obtain ⟨pre, h', rfl⟩ := h.slice r hr
            obtain ⟨h'', heq⟩ := hm pre _ e0 hi k [] (by rw [List.append_assoc]; rfl)
              ⟨r, hr, hcheck⟩
            obtain ⟨rfl, -, hl⟩ := Operand.slice.inj heq
            rw [hstep]
            exact h.extendRun hr hl.symm hx
          · rw [hstep]
            exact h.startRun hx

end Reduction

/-- **When slices are put together where they may be.** -/
theorem mergesContiguous_iff {l : List Operand} (hw : ∀ x ∈ l, x.WellTyped T) :
    MergesContiguous T l ↔ l.IsChain Operand.Distinguished := by
  induction l using List.reverseRecOn with
  | nil =>
      refine iff_of_true (fun pre a e0 hi k post hl => ?_) List.IsChain.nil
      exact absurd hl.symm (List.append_ne_nil_of_right_ne_nil pre (List.cons_ne_nil _ _))
  | append_singleton l x ih =>
      have hwl : ∀ y ∈ l, y.WellTyped T := fun y hy => hw y (List.mem_append_left _ hy)
      have ih := ih hwl
      constructor
      · intro hm
        refine List.isChain_append.mpr ⟨ih.mp hm.of_append, List.IsChain.singleton x, ?_⟩
        intro a ha y hy
        cases Option.some.inj hy
        obtain ⟨pre, rfl⟩ := List.getLast?_eq_some_iff.mp ha
        match a, x with
        | .slice e0 hi k, .slice e0' hi' k' =>
            intro hk halike
            obtain ⟨r, hr, he0, hcurL⟩ :=
              (Reduction.inv_after hwl hm.of_append).last e0 hi k pre rfl
            have hcheck := SliceRun.checkReducibility_iff.mpr
              ⟨hk.trans hcurL.symm, he0 ▸ halike⟩
            obtain ⟨h'', heq⟩ := hm pre _ e0' hi' k' [] (by rw [List.append_assoc]; rfl)
              ⟨r, hr, hcheck⟩
            exact (Operand.slice.inj heq).1
        | .access _, _ => trivial
        | .slice _ _ _, .access _ => trivial
      · intro hchain pre a e0 hi k post hl hmerge
        obtain ⟨hleft, -, hlink⟩ := List.isChain_append.mp hchain
        have hm := ih.mpr hleft
        rcases List.eq_nil_or_concat' post with rfl | ⟨post, y, rfl⟩
        · -- the last operand
          have hsplit : l ++ [x] = (pre ++ [a]) ++ [.slice e0 hi k] := by
            rw [hl, List.append_assoc]
            rfl
          obtain ⟨rfl, hx⟩ := List.append_inj' hsplit rfl
          cases hx
          obtain ⟨r, hr, hcheck⟩ := hmerge
          obtain ⟨hcurL, halike⟩ := SliceRun.checkReducibility_iff.mp hcheck
          obtain ⟨pre', h', heq⟩ := (Reduction.inv_after hwl hm).slice r hr
          obtain ⟨-, ha⟩ := List.append_inj' heq rfl
          cases ha
          have hsame := hlink _ List.getLast?_concat _ rfl hcurL halike
          exact ⟨h', by rw [hsame, hcurL]⟩
        · have hsplit : l ++ [x] = (pre ++ a :: .slice e0 hi k :: post) ++ [y] := by
            rw [hl, List.append_assoc]
            rfl
          exact hm pre a e0 hi k post (List.append_inj' hsplit rfl).1 hmerge

/-! ## The children of the result -/

/-- The second operand is not to be put together with the first. -/
def Operand.Apart : Operand → Operand → Prop
  | .slice e0 h l, .slice e0' h' _ => (SliceRun.mk e0 h l).checkReducibility e0' h' = false
  | _, _ => True

/-- Nothing is to be put together. -/
structure Irreducible (T : Types) (l : List Operand) : Prop where
  made : ∀ e0 h k, .slice e0 h k ∈ l → makeSlice T e0 k h = .slice e0 h k
  chain : l.IsChain Operand.Apart

theorem Irreducible.of_append {l : List Operand} (l' : List Operand)
    (h : Irreducible T (l ++ l')) : Irreducible T l where
  made := fun e0 hi k hmem => h.made e0 hi k (List.mem_append_left _ hmem)
  chain := (List.isChain_append.mp h.chain).1

theorem Irreducible.concat_access {l : List Operand} (h : Irreducible T l) (e : Access) :
    Irreducible T (l ++ [.access e]) where
  made := fun e0 hi k hmem => by
    rcases List.mem_append.mp hmem with hmem | hmem
    · exact h.made e0 hi k hmem
    · cases List.mem_singleton.mp hmem
  chain := by
    refine List.isChain_append.mpr ⟨h.chain, List.IsChain.singleton _, fun a _ y hy => ?_⟩
    cases Option.some.inj hy
    cases a <;> trivial

namespace Reduction

/-- The loop changes nothing. -/
theorem after_eq {l : List Operand} (h : Irreducible T l) :
    (after T l).finish T = l ∧ ∀ r, (after T l).curr = some r → l.getLast? = some r.operand := by
  induction l using List.reverseRecOn with
  | nil => exact ⟨rfl, fun r hr => absurd (show none = some r from hr) (Option.some_ne_none r).symm⟩
  | append_singleton l x ih =>
      obtain ⟨hfinish, hlast⟩ := ih (h.of_append [x])
      rw [after_append]
      cases x with
      | access e =>
          rw [step_access, hfinish]
          exact ⟨rfl, fun r hr => absurd hr (Option.some_ne_none r).symm⟩
      | slice e0 hi k =>
          rcases step_slice (T := T) (after T l) e0 hi k with ⟨r, hr, hcheck, -⟩ | ⟨-, hstep⟩
          · have hapart := (List.isChain_append.mp h.chain).2.2 _ (hlast r hr) _ rfl
            exact absurd hcheck (by rw [show r.checkReducibility e0 hi = false from hapart]; simp)
          · rw [hstep]
            refine ⟨?_, fun r hr => ?_⟩
            · have hmade := h.made e0 hi k (List.mem_append_right _ (List.mem_singleton_self _))
              show (after T l).finish T ++ [makeSlice T e0 k hi] = _
              rw [hfinish, hmade]
            · rw [← Option.some.inj hr, List.getLast?_concat]
              rfl

/-- Nothing of what is built is to be put together. -/
structure Settled (T : Types) (s : Reduction) : Prop where
  irreducible : Irreducible T s.concatVec
  run : ∀ r, s.curr = some r → ∀ a ∈ s.concatVec.getLast?, a.Apart r.operand
  noRun : s.curr = none → ∀ a ∈ s.concatVec.getLast?, ∃ e, a = .access e

/-- The result of `reduce`, behind what is built. -/
theorem Settled.finish {l : List Operand} {s : Reduction} (h : Settled T s) (hs : Inv T l s) :
    Irreducible T (s.finish T) := by
  unfold Reduction.finish
  cases hr : s.curr with
  | none => exact h.irreducible
  | some r =>
      dsimp only [SliceRun.reduce]
      rcases makeSlice_eq (hs.wellTyped r hr) with hmake | ⟨hmake, -⟩
      · refine ⟨fun e0 hi k hmem => ?_, ?_⟩
        · rcases List.mem_append.mp hmem with hmem | hmem
          · exact h.irreducible.made e0 hi k hmem
          · rw [List.mem_singleton, hmake] at hmem
            cases hmem
            exact hmake
        · refine List.isChain_append.mpr ⟨h.irreducible.chain, List.IsChain.singleton _, ?_⟩
          intro a ha y hy
          rw [← Option.some.inj hy, hmake]
          exact h.run r hr a ha
      · rw [hmake]
        exact h.irreducible.concat_access r.e0

theorem Settled.startRun {l : List Operand} {s : Reduction} (h : Settled T s) (hs : Inv T l s)
    {e0 : Access} {hi k : ℕ}
    (hnot : ∀ r, s.curr = some r → r.checkReducibility e0 hi = false) :
    Settled T ⟨s.finish T, some ⟨e0, hi, k⟩⟩ where
  irreducible := h.finish hs
  run := by
    intro r' hr' a ha
    cases Option.some.inj hr'
    change a ∈ (s.finish T).getLast? at ha
    unfold Reduction.finish at ha
    cases hr : s.curr with
    | none =>
        rw [hr] at ha
        obtain ⟨e, rfl⟩ := h.noRun hr a ha
        trivial
    | some r =>
        rw [hr] at ha
        dsimp only at ha
        rw [List.getLast?_concat] at ha
        rw [← Option.some.inj ha, SliceRun.reduce]
        rcases makeSlice_eq (hs.wellTyped r hr) with hmake | ⟨hmake, -⟩
        · rw [hmake]
          exact hnot r hr
        · rw [hmake]
          trivial
  noRun := fun hr => absurd hr (Option.some_ne_none _)

theorem settled_after {l : List Operand} (hw : ∀ x ∈ l, x.WellTyped T)
    (hm : MergesContiguous T l) : Settled T (after T l) := by
  induction l using List.reverseRecOn with
  | nil =>
      refine ⟨⟨fun _ _ _ hmem => absurd hmem List.not_mem_nil, List.IsChain.nil⟩, ?_, ?_⟩
      · exact fun r hr => absurd (show none = some r from hr) (Option.some_ne_none r).symm
      · exact fun _ a ha => absurd (show none = some a from ha) (Option.some_ne_none a).symm
  | append_singleton l x ih =>
      have hwl : ∀ y ∈ l, y.WellTyped T := fun y hy => hw y (List.mem_append_left _ hy)
      have h := ih hwl hm.of_append
      have hs := inv_after hwl hm.of_append
      rw [after_append]
      cases x with
      | access e =>
          rw [step_access]
          refine ⟨(h.finish hs).concat_access e, ?_, fun _ a ha => ?_⟩
          · exact fun r hr => absurd hr (Option.some_ne_none r).symm
          · rw [List.getLast?_concat] at ha
            exact ⟨e, (Option.some.inj ha).symm⟩
      | slice e0 hi k =>
          rcases step_slice (T := T) (after T l) e0 hi k with
            ⟨r, hr, -, hstep⟩ | ⟨hnot, hstep⟩
          · rw [hstep]
            refine ⟨h.irreducible, fun r' hr' a ha => ?_,
              fun hr' => absurd hr' (Option.some_ne_none _)⟩
            -- the lower bound does not matter for what is in front
            cases Option.some.inj hr'
            have hapart := h.run r hr a ha
            cases a <;> exact hapart
          · rw [hstep]
            exact h.startRun hs hnot

theorem finish_ne_nil (s : Reduction) (x : Operand) : (s.step T x).finish T ≠ [] := by
  cases x with
  | access e =>
      rw [step_access]
      exact List.append_ne_nil_of_right_ne_nil _ (List.cons_ne_nil _ _)
  | slice e0 hi k =>
      rcases step_slice (T := T) s e0 hi k with ⟨r, -, -, hstep⟩ | ⟨-, hstep⟩ <;> rw [hstep] <;>
        exact List.append_ne_nil_of_right_ne_nil _ (List.cons_ne_nil _ _)

end Reduction

theorem Concat.createConcat_append {α : Type} (first : Concat α) (l : List (Concat α))
    (y : Concat α) : createConcat first (l ++ [y]) = .concat (createConcat first l) y := by
  unfold createConcat
  rw [List.foldl_append]
  rfl

/-- The visitor leaves a concatenation alone in which nothing is to be put together. -/
theorem reduceConcatExpression_of_irreducible {x : Operand} {l : List Operand}
    (h : Irreducible T (x :: l)) :
    reduceConcatExpression T (.createConcat (.operand x) (l.map .operand)) =
      some (.createConcat (.operand x) (l.map .operand)) := by
  induction l using List.reverseRecOn with
  | nil => rw [List.map_nil, Concat.createConcat, List.foldl_nil, reduceConcatExpression]
  | append_singleton l y ih =>
      have hleft : Irreducible T (x :: l) := Irreducible.of_append [y] h
      have hreduce : reduceConcat T (.createConcat (.operand x) ((l ++ [y]).map .operand)) =
          some (.createConcat (.operand x) ((l ++ [y]).map .operand)) := by
        unfold reduceConcat
        rw [Concat.flatten_createConcat, show (Concat.operand x).flatten ++ (l ++ [y]) =
          x :: (l ++ [y]) from rfl, (Reduction.after_eq h).1]
      rw [List.map_append, List.map_singleton, Concat.createConcat_append] at hreduce ⊢
      rw [reduceConcatExpression]
      split
      · rename_i heq
        cases heq.symm.trans hreduce
      · rename_i heq
        cases heq.symm.trans hreduce
      · rename_i heq
        cases heq.symm.trans hreduce
        rw [ih hleft, reduceConcatExpression]
        rfl

/-- The pass is done with a concatenation after one visit. -/
theorem reduceConcatExpression_eq {left right : Concat Operand}
    (hw : ∀ x ∈ (Concat.concat left right).flatten, x.WellTyped T)
    (hm : MergesContiguous T (Concat.concat left right).flatten) :
    ∃ r, reduceConcat T (.concat left right) = some r ∧
      reduceConcatExpression T (.concat left right) = some r := by
  have hirr := (Reduction.settled_after hw hm).finish (Reduction.inv_after hw hm)
  obtain ⟨x, l, heq⟩ : ∃ x l,
      (Reduction.after T (Concat.concat left right).flatten).finish T = x :: l := by
    obtain ⟨l, x, hl⟩ := (List.eq_nil_or_concat' _).resolve_left
      (Concat.concat left right).flatten_ne_nil
    rw [hl, Reduction.after_append]
    exact List.exists_cons_of_ne_nil (Reduction.finish_ne_nil _ x)
  have hreduce : reduceConcat T (.concat left right) =
      some (.createConcat (.operand x) (l.map .operand)) := by
    unfold reduceConcat
    rw [heq]
  refine ⟨_, hreduce, ?_⟩
  rw [heq] at hirr
  rw [reduceConcatExpression]
  rcases List.eq_nil_or_concat' l with rfl | ⟨l, y, rfl⟩
  · split
    · rename_i hnone
      cases hnone.symm.trans hreduce
    · rename_i hsome
      cases hsome.symm.trans hreduce
      rfl
    · rename_i hsome
      cases hsome.symm.trans hreduce
  · rw [List.map_append, List.map_singleton, Concat.createConcat_append] at hreduce ⊢
    split
    · rename_i hnone
      cases hnone.symm.trans hreduce
    · rename_i hsome
      cases hsome.symm.trans hreduce
    · rename_i hsome
      cases hsome.symm.trans hreduce
      rw [reduceConcatExpression_of_irreducible (Irreducible.of_append [y] hirr),
        reduceConcatExpression]
      rfl

/-! ## When the bits stay -/

/-- **Exactly when concatenations are reduced correctly.** -/
theorem reducesCorrectly_iff (t : TypedConcat T) :
    ReducesCorrectly t ↔ t.expr.flatten.IsChain Operand.Distinguished := by
  obtain ⟨t, hw⟩ := t
  rw [← mergesContiguous_iff hw]
  refine ⟨And.right, fun hm => ⟨?_, hm⟩⟩
  cases t with
  | operand x => exact ⟨_, by rw [reduceConcatExpression], rfl, fun _ => rfl⟩
  | concat left right =>
      obtain ⟨r, hreduce, hvisit⟩ := reduceConcatExpression_eq hw hm
      have hvalue : ∀ σ, r.value (Operand.value T σ) =
          (Concat.concat left right).value (Operand.value T σ) := by
        intro σ
        rw [Concat.value_eq, Concat.value_eq, flatten_reduceConcat hreduce,
          Reduction.value_finish (Reduction.inv_after hw hm)]
      refine ⟨r, hvisit, ?_, hvalue⟩
      have hwidth : ∀ t : Concat Operand,
          (t.value (Operand.value T fun _ _ => false)).length = t.width T := by
        intro t
        rw [Concat.value_eq, List.length_flatMap, Concat.width]
        simp only [Operand.length_value]
      rw [← hwidth, ← hwidth, hvalue]

/-! ## Two bytes of different elements -/

/-- `s[0].data[15:8] ++ s[1].data[7:0]`. -/
def twoBytes : TypedConcat twoByteTypes where
  expr := .concat (.operand (.slice (dataOf 0) 15 8)) (.operand (.slice (dataOf 1) 7 0))
  wellTyped := by
    intro x hx
    rcases List.mem_pair.mp hx with rfl | rfl
    · exact ⟨by decide, by decide, fun _ _ => Access.noConfusion⟩
    · exact ⟨by decide, by decide, fun _ _ => Access.noConfusion⟩

/-- Both bytes are read from the first element. -/
theorem not_reducesCorrectly_twoBytes : ¬ ReducesCorrectly twoBytes := by
  rintro ⟨⟨r, hr, -, hvalue⟩, -⟩
  have hreduce : reduceConcat twoByteTypes twoBytes.expr = some (.operand (.access (dataOf 0))) :=
    by decide
  have hresult : reduceConcatExpression twoByteTypes twoBytes.expr =
      some (.operand (.access (dataOf 0))) := by
    unfold twoBytes at hreduce ⊢
    rw [reduceConcatExpression]
    split <;> rename_i heq <;> cases heq.symm.trans hreduce
    rfl
  cases hresult.symm.trans hr
  have hbits := hvalue fun loc _ =>
    decide (loc = .field (.elem (.field (.var "p") "msa_hdr_stack_s0") 0) "data")
  exact absurd hbits (by decide)

end Tofino
end MicroP4
