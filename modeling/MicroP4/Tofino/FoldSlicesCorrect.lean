import Mathlib.Data.List.GetD
import MicroP4.Tofino.FoldSlices

/-!
# When folding keeps the meaning of a block

The visitor is followed with a description of what it keeps: nothing, a whole access that keeps
it from folding, or a group of assignments that it has taken out.  A block is safe if no
assignment to a whole access comes while there is a group, there is no group at the start and
at the end of what is inside other statements, and an assignment that goes into a group is to
the access of the group and reads what it would have read in front of the group.
-/

namespace MicroP4
namespace Tofino

open BitString

variable {E S : Type} {T : Types}

/-! ## Adjacent slices of one access -/

theorem assignSlice_same {e0 : Access} (h l : ℕ) (bits : List Bool) {σ : Store} {x : Loc}
    (hx : x = e0.loc T σ) (i : ℕ) : assignSlice T e0 h l bits σ x i =
      if l ≤ i ∧ i ≤ h then bits.getD (h - i) false else σ x i := by
  rw [hx, assignSlice, Function.update_self]

theorem assignSlice_of_ne (e0 : Access) (h l : ℕ) (bits : List Bool) {σ : Store} {x : Loc}
    (hx : x ≠ e0.loc T σ) : assignSlice T e0 h l bits σ x = σ x := by
  rw [assignSlice, Function.update_of_ne hx]

/-- Bit `i` of two adjacent slices is in one of them. -/
theorem getD_append_slices {h m l i : ℕ} {a b : List Bool} (x : Bool)
    (ha : a.length = h + 1 - (m + 1)) (hm : m ≤ h) (hl : l ≤ m) :
    (if l ≤ i ∧ i ≤ h then (a ++ b).getD (h - i) false else x) =
      if l ≤ i ∧ i ≤ m then b.getD (m - i) false
      else if m + 1 ≤ i ∧ i ≤ h then a.getD (h - i) false else x := by
  by_cases hlow : l ≤ i ∧ i ≤ m
  · have hsub : h - i - a.length = m - i := by omega
    rw [if_pos hlow, if_pos (by omega), List.getD_append_right _ _ _ _ (by omega), hsub]
  · rw [if_neg hlow]
    by_cases hhigh : m + 1 ≤ i ∧ i ≤ h
    · rw [if_pos hhigh, if_pos (by omega), List.getD_append _ _ _ _ (by omega)]
    · rw [if_neg hhigh, if_neg (by omega)]

/-- The lower slice second. -/
theorem assignSlice_below {e0 : Access} {h m l : ℕ} {a b : List Bool} {σ : Store}
    (ha : a.length = h + 1 - (m + 1)) (hm : m ≤ h) (hl : l ≤ m)
    (hloc : e0.loc T (assignSlice T e0 h (m + 1) a σ) = e0.loc T σ) :
    assignSlice T e0 m l b (assignSlice T e0 h (m + 1) a σ) = assignSlice T e0 h l (a ++ b) σ := by
  funext x i
  by_cases hx : x = e0.loc T σ
  · rw [assignSlice_same _ _ _ (hx.trans hloc.symm), assignSlice_same _ _ _ hx,
      assignSlice_same _ _ _ hx, getD_append_slices _ ha hm hl]
  · have hx' : x ≠ e0.loc T (assignSlice T e0 h (m + 1) a σ) := by rwa [hloc]
    rw [assignSlice_of_ne _ _ _ _ hx', assignSlice_of_ne _ _ _ _ hx, assignSlice_of_ne _ _ _ _ hx]

/-- The upper slice second. -/
theorem assignSlice_above {e0 : Access} {h m l : ℕ} {a b : List Bool} {σ : Store}
    (ha : a.length = h + 1 - (m + 1)) (hm : m ≤ h) (hl : l ≤ m)
    (hloc : e0.loc T (assignSlice T e0 m l b σ) = e0.loc T σ) :
    assignSlice T e0 h (m + 1) a (assignSlice T e0 m l b σ) = assignSlice T e0 h l (a ++ b) σ := by
  funext x i
  by_cases hx : x = e0.loc T σ
  · rw [assignSlice_same _ _ _ (hx.trans hloc.symm), assignSlice_same _ _ _ hx,
      assignSlice_same _ _ _ hx, getD_append_slices _ ha hm hl]
    by_cases hlow : l ≤ i ∧ i ≤ m
    · rw [if_pos hlow, if_neg (by omega), if_pos hlow]
    · rw [if_neg hlow, if_neg hlow]
  · have hx' : x ≠ e0.loc T (assignSlice T e0 m l b σ) := by rwa [hloc]
    rw [assignSlice_of_ne _ _ _ _ hx', assignSlice_of_ne _ _ _ _ hx, assignSlice_of_ne _ _ _ _ hx]

/-! ## Safe blocks -/

/-- Assignments that are taken out, to bits `h` down to `l` of an access. -/
structure Group (E : Type) where
  e0 : Access
  h : ℕ
  l : ℕ
  done : List (AssignmentStatement E)

/-- What the visitor keeps. -/
inductive Mode (E : Type) where
  | fresh
  | stuck
  | pending (g : Group E)

/-- A slice of another access is next to the bits of the group. -/
def Group.Continued (g : Group E) (e0 : Access) (h l : ℕ) : Prop :=
  (g.l = h + 1 ∨ g.h + 1 = l) ∧ g.e0.Alike e0

instance Access.decidableAlike : DecidableRel Access.Alike := fun _ _ =>
  decidable_of_iff _ compareExpression_iff

instance (g : Group E) (e0 : Access) (h l : ℕ) : Decidable (g.Continued e0 h l) :=
  inferInstanceAs (Decidable (_ ∧ _))

/-- There is no group. -/
def Mode.Idle : Mode E → Prop
  | .pending _ => False
  | _ => True

/-- What the visitor keeps behind an assignment. -/
def Mode.assign (as : AssignmentStatement E) : Mode E → Mode E
  | .stuck => .stuck
  | .fresh =>
      match as.left with
      | .slice e0 h l => .pending ⟨e0, h, l, [as]⟩
      | .access _ => .stuck
  | .pending g =>
      match as.left with
      | .slice e0 h l =>
          if g.Continued e0 h l then .pending ⟨g.e0, max g.h h, min g.l l, g.done ++ [as]⟩
          else .pending ⟨e0, h, l, [as]⟩
      | .access _ => .stuck

/-- What the visitor keeps behind another statement. -/
def Mode.close : Mode E → Mode E
  | .stuck => .stuck
  | _ => .fresh

mutual

def Stmt.after : Stmt E S → Mode E → Mode E
  | .assign as, m => m.assign as
  | .other _, m => m.close
  | .block components, _ => components.after .fresh
  | .ifThen _ ifTrue, m => ifTrue.after m
  | .ifElse _ ifTrue ifFalse, m => ifFalse.after (ifTrue.after m)
  | .switch _ cases, m => cases.after m

def Components.after : Components E S → Mode E → Mode E
  | .nil, m => m
  | .cons stmt rest, m => rest.after (stmt.after m)

def Cases.after : Cases E S → Mode E → Mode E
  | .nil, m => m
  | .cons statement rest, m => rest.after (statement.after m)
  | .fall rest, m => rest.after m

end

section Safe

variable (M : Semantics T E S)

/-- Assignments one after the other. -/
def execAssignments (l : List (AssignmentStatement E)) (σ : Store) : Store :=
  l.foldl (fun σ as => as.exec M σ) σ

/-- The assignment sets the access of the group, and the group does not change what the
assignment reads. -/
def Group.Joins (g : Group E) (as : AssignmentStatement E) (e0 : Access) : Prop :=
  e0 = g.e0 ∧ ∀ σ, M.bits as.right (execAssignments M g.done σ) = M.bits as.right σ ∧
    e0.loc T (execAssignments M g.done σ) = e0.loc T σ

/-- An assignment that the visitor may meet. -/
def Mode.Admits (as : AssignmentStatement E) : Mode E → Prop
  | .pending g =>
      match as.left with
      | .slice e0 h l => g.Continued e0 h l → g.Joins M as e0
      | .access _ => False
  | _ => True

mutual

/-- A statement that the visitor may meet. -/
def Stmt.Safe : Stmt E S → Mode E → Prop
  | .assign as, m => m.Admits M as
  | .other _, _ => True
  | .block components, m =>
      m.Idle ∧ components.Safe .fresh ∧ (components.after .fresh).Idle
  | .ifThen _ ifTrue, m => m.Idle ∧ ifTrue.Safe m ∧ (ifTrue.after m).Idle
  | .ifElse _ ifTrue ifFalse, m =>
      m.Idle ∧ (ifTrue.Safe m ∧ (ifTrue.after m).Idle) ∧
        ifFalse.Safe (ifTrue.after m) ∧ (ifFalse.after (ifTrue.after m)).Idle
  | .switch _ cases, m => m.Idle ∧ cases.Safe m

def Components.Safe : Components E S → Mode E → Prop
  | .nil, _ => True
  | .cons stmt rest, m => stmt.Safe m ∧ rest.Safe (stmt.after m)

def Cases.Safe : Cases E S → Mode E → Prop
  | .nil, _ => True
  | .cons statement rest, m =>
      (statement.Safe m ∧ (statement.after m).Idle) ∧ rest.Safe (statement.after m)
  | .fall rest, m => rest.Safe m

end

/-- A slice is within its access, and the right side has its width. -/
def AssignmentStatement.WellTyped (as : AssignmentStatement E) : Prop :=
  match as.left with
  | .slice e0 h l =>
      (Operand.slice e0 h l).WellTyped T ∧ ∀ σ, (M.bits as.right σ).length = h + 1 - l
  | .access _ => True

mutual

def Stmt.WellTyped : Stmt E S → Prop
  | .assign as => as.WellTyped M
  | .other _ => True
  | .block components => components.WellTyped
  | .ifThen _ ifTrue => ifTrue.WellTyped
  | .ifElse _ ifTrue ifFalse => ifTrue.WellTyped ∧ ifFalse.WellTyped
  | .switch _ cases => cases.WellTyped

def Components.WellTyped : Components E S → Prop
  | .nil => True
  | .cons stmt rest => stmt.WellTyped ∧ rest.WellTyped

def Cases.WellTyped : Cases E S → Prop
  | .nil => True
  | .cons statement rest => statement.WellTyped ∧ rest.WellTyped
  | .fall rest => rest.WellTyped

end

end Safe

/-! ## Groups -/

variable {M : Semantics T E S}

theorem execAssignments_append (l : List (AssignmentStatement E)) (as : AssignmentStatement E)
    (σ : Store) : execAssignments M (l ++ [as]) σ = as.exec M (execAssignments M l σ) := by
  unfold execAssignments
  rw [List.foldl_append]
  rfl

/-- The right sides that are kept, side by side. -/
def FoldContext.bits (M : Semantics T E S) (c : FoldContext E) (σ : Store) : List Bool :=
  c.rightExprVec.flatMap fun right => M.bits right σ

/-- The visitor keeps a group. -/
structure Group.Kept (M : Semantics T E S) (g : Group E) (c : FoldContext E) : Prop where
  lExpMember : ∃ h l, c.lExpMember = some (.slice g.e0 h l)
  slices : c.slices ≠ []
  curL : c.curL = g.l
  curH : c.curH = g.h
  rightExprVec : c.rightExprVec ≠ []
  wellTyped : (Operand.slice g.e0 g.h g.l).WellTyped T
  length : ∀ σ, (c.bits M σ).length = g.h + 1 - g.l
  done : ∀ σ, execAssignments M g.done σ = assignSlice T g.e0 g.h g.l (c.bits M σ) σ

/-- The visitor keeps what is described. -/
def Mode.Kept (M : Semantics T E S) : Mode E → FoldContext E → Prop
  | .fresh, c => c.lExpMember = none ∧ c.slices = [] ∧ c.rightExprVec = []
  | .stuck, c => (∃ e, c.lExpMember = some (.access e)) ∧ c.slices = [] ∧ c.rightExprVec = []
  | .pending g, c => g.Kept M c

/-- What is left to do. -/
def Mode.finish (M : Semantics T E S) : Mode E → Store → Store
  | .pending g, σ => execAssignments M g.done σ
  | _, σ => σ

/-- **One assignment for a group.** -/
theorem Group.Kept.fold {g : Group E} {c : FoldContext E} (h : g.Kept M c) :
    ∃ as, c.fold T = some as ∧ ∀ σ, as.exec M σ = execAssignments M g.done σ := by
  obtain ⟨hi, lo, hmember⟩ := h.lExpMember
  obtain ⟨r, rest, hrights⟩ := List.exists_cons_of_ne_nil h.rightExprVec
  have hbits : ∀ σ, M.bits (.createConcat r rest) σ = c.bits M σ := by
    intro σ
    unfold FoldContext.bits Semantics.bits
    rw [Concat.value_createConcat, hrights]
  refine ⟨⟨makeSlice T g.e0 g.l g.h, .createConcat r rest⟩, ?_, fun σ => ?_⟩
  · unfold FoldContext.fold
    rw [hmember, hrights, h.curL, h.curH]
  · rw [h.done σ]
    unfold AssignmentStatement.exec
    dsimp only
    rcases makeSlice_eq h.wellTyped with hmake | ⟨hmake, hzero, hwidth⟩
    · rw [hmake]
      dsimp only
      rw [hbits]
    · rw [hmake]
      dsimp only
      have hpred : g.e0.width T - 1 = g.h := by omega
      rw [M.assign_eq _ _ _ (by omega), hpred, hzero]
      exact congrArg (fun b => assignSlice T g.e0 g.h 0 b σ) (hbits σ)

/-- A group of one assignment. -/
theorem Group.kept_single {as : AssignmentStatement E} {e0 : Access} {h l : ℕ}
    (hleft : as.left = .slice e0 h l) (hw : as.WellTyped M) (merged : List Merged) :
    Group.Kept M ⟨e0, h, l, [as]⟩ ⟨some as.left, [(l, h)], [as.right], merged⟩ := by
  unfold AssignmentStatement.WellTyped at hw
  rw [hleft] at hw
  have hbits : ∀ σ, FoldContext.bits M ⟨some as.left, [(l, h)], [as.right], merged⟩ σ =
      M.bits as.right σ := fun σ => List.flatMap_singleton _ _
  refine ⟨⟨h, l, congrArg some hleft⟩, List.cons_ne_nil _ _, rfl, rfl, List.cons_ne_nil _ _, hw.1,
    fun σ => ?_, fun σ => ?_⟩
  · rw [hbits]
    exact hw.2 σ
  · rw [hbits]
    show as.exec M σ = _
    unfold AssignmentStatement.exec
    rw [hleft]

/-- A group that an assignment joins at its lower end. -/
theorem Group.Kept.below {g : Group E} {c : FoldContext E} (hg : g.Kept M c)
    {as : AssignmentStatement E} {e0 : Access} {h l : ℕ} (hleft : as.left = .slice e0 h l)
    (hw : as.WellTyped M) (hjoin : g.Joins M as e0) (hnext : g.l = h + 1) (merged : List Merged) :
    Group.Kept M ⟨g.e0, max g.h h, min g.l l, g.done ++ [as]⟩
      ⟨c.lExpMember, c.slices ++ [(l, h)], c.rightExprVec ++ [as.right], merged⟩ := by
  unfold AssignmentStatement.WellTyped at hw
  rw [hleft] at hw
  obtain ⟨⟨hlh, -⟩, hlen⟩ := hw
  obtain ⟨rfl, hreads⟩ := hjoin
  obtain ⟨hlg, hhg, hconst⟩ := hg.wellTyped
  have hmax : max g.h h = g.h := by omega
  have hmin : min g.l l = l := by omega
  rw [hmax, hmin]
  have hbits : ∀ σ, FoldContext.bits M ⟨c.lExpMember, c.slices ++ [(l, h)],
      c.rightExprVec ++ [as.right], merged⟩ σ = c.bits M σ ++ M.bits as.right σ := by
    intro σ
    unfold FoldContext.bits
    rw [List.flatMap_append, List.flatMap_singleton]
  have hcurH : FoldContext.curH (E := E) ⟨c.lExpMember, c.slices ++ [(l, h)],
      c.rightExprVec ++ [as.right], merged⟩ = g.h := by
    rw [← hg.curH]
    obtain ⟨x, xs, hslices⟩ := List.exists_cons_of_ne_nil hg.slices
    unfold FoldContext.curH
    rw [hslices]
    rfl
  refine ⟨hg.lExpMember, List.append_ne_nil_of_right_ne_nil _ (List.cons_ne_nil _ _), ?_, hcurH,
    List.append_ne_nil_of_right_ne_nil _ (List.cons_ne_nil _ _),
    ⟨by show l ≤ g.h; omega, hhg, hconst⟩, fun σ => ?_, fun σ => ?_⟩
  · unfold FoldContext.curL
    rw [List.getLastD_concat]
  · rw [hbits, List.length_append, hg.length, hlen]
    dsimp only
    omega
  · have hexec : as.exec M (execAssignments M g.done σ) =
        assignSlice T g.e0 h l (M.bits as.right σ) (execAssignments M g.done σ) := by
      unfold AssignmentStatement.exec
      rw [hleft, ← (hreads σ).1]
    have hlen' := hg.length σ
    have hloc := (hreads σ).2
    rw [hbits, execAssignments_append, hexec, hg.done σ]
    rw [hg.done σ] at hloc
    rw [hnext] at hlen' hloc ⊢
    exact assignSlice_below hlen' (by omega) hlh hloc

/-- A group that an assignment joins at its upper end. -/
theorem Group.Kept.above {g : Group E} {c : FoldContext E} (hg : g.Kept M c)
    {as : AssignmentStatement E} {e0 : Access} {h l : ℕ} (hleft : as.left = .slice e0 h l)
    (hw : as.WellTyped M) (hjoin : g.Joins M as e0) (hnext : g.h + 1 = l) (merged : List Merged) :
    Group.Kept M ⟨g.e0, max g.h h, min g.l l, g.done ++ [as]⟩
      ⟨c.lExpMember, (l, h) :: c.slices, as.right :: c.rightExprVec, merged⟩ := by
  unfold AssignmentStatement.WellTyped at hw
  rw [hleft] at hw
  obtain ⟨⟨hlh, hhw, -⟩, hlen⟩ := hw
  obtain ⟨rfl, hreads⟩ := hjoin
  obtain ⟨hlg, hhg, hconst⟩ := hg.wellTyped
  have hmax : max g.h h = h := by omega
  have hmin : min g.l l = g.l := by omega
  rw [hmax, hmin]
  have hbits : ∀ σ, FoldContext.bits M ⟨c.lExpMember, (l, h) :: c.slices,
      as.right :: c.rightExprVec, merged⟩ σ = M.bits as.right σ ++ c.bits M σ := fun _ => rfl
  have hcurL : FoldContext.curL (E := E) ⟨c.lExpMember, (l, h) :: c.slices,
      as.right :: c.rightExprVec, merged⟩ = g.l := by
    rw [← hg.curL]
    obtain ⟨x, xs, hslices⟩ := List.exists_cons_of_ne_nil hg.slices
    unfold FoldContext.curL
    rw [hslices]
    rfl
  refine ⟨hg.lExpMember, List.cons_ne_nil _ _, hcurL, rfl, List.cons_ne_nil _ _,
    ⟨by show g.l ≤ h; omega, hhw, hconst⟩, fun σ => ?_, fun σ => ?_⟩
  · rw [hbits, List.length_append, hg.length, hlen]
    dsimp only
    omega
  · have hexec : as.exec M (execAssignments M g.done σ) =
        assignSlice T g.e0 h l (M.bits as.right σ) (execAssignments M g.done σ) := by
      unfold AssignmentStatement.exec
      rw [hleft, ← (hreads σ).1]
    have hlen' := hlen σ
    have hloc := (hreads σ).2
    rw [hbits, execAssignments_append, hexec, hg.done σ]
    rw [hg.done σ] at hloc
    rw [← hnext] at hlen' ⊢
    exact assignSlice_above hlen' (by omega) hlg hloc

/-! ## One statement -/

/-- From one description to the next: what comes out does, with what is left to do behind it,
what the statement does with what was left to do in front of it. -/
structure Simulates (M : Semantics T E S) (m : Mode E) (c : FoldContext E) (before : Store → Store)
    (m' : Mode E) (c' : FoldContext E) (after : Store → Store) : Prop where
  kept : m'.Kept M c'
  exec : ∀ σ, m'.finish M (after σ) = before (m.finish M σ)
  merged : (∀ x ∈ c.merged, x.Adjacent) → ∀ x ∈ c'.merged, x.Adjacent

theorem Simulates.trans {m₁ m₂ m₃ : Mode E} {c₁ c₂ c₃ : FoldContext E}
    {f₁ f₂ g₁ g₂ : Store → Store} (h : Simulates M m₁ c₁ f₁ m₂ c₂ g₁)
    (h' : Simulates M m₂ c₂ f₂ m₃ c₃ g₂) :
    Simulates M m₁ c₁ (fun σ => f₂ (f₁ σ)) m₃ c₃ (fun σ => g₂ (g₁ σ)) where
  kept := h'.kept
  exec := fun σ => by rw [h'.exec, h.exec]
  merged := fun hc => h'.merged (h.merged hc)

theorem Mode.Idle.finish {m : Mode E} (h : m.Idle) (σ : Store) : m.finish M σ = σ := by
  cases m with
  | pending g => exact h.elim
  | _ => rfl

/-- Without a group no right sides are kept. -/
theorem Mode.Idle.rightExprVec {m : Mode E} {c : FoldContext E} (h : m.Idle) (hk : m.Kept M c) :
    c.rightExprVec = [] := by
  cases m with
  | pending g => exact h.elim
  | fresh => exact hk.2.2
  | stuck => exact hk.2.2

/-- What comes out for a statement, as a step. -/
def execOut (M : Semantics T E S) : Option (Stmt E S) → Store → Store
  | none, σ => σ
  | some s, σ => s.exec M σ

section Assign

variable {as : AssignmentStatement E} {e0 : Access} {h l : ℕ}

theorem Mode.assign_fresh (hleft : as.left = .slice e0 h l) :
    Mode.fresh.assign as = .pending ⟨e0, h, l, [as]⟩ := by
  simp only [Mode.assign, hleft]

theorem Mode.assign_continued {g : Group E} (hleft : as.left = .slice e0 h l)
    (hg : g.Continued e0 h l) :
    (Mode.pending g).assign as = .pending ⟨g.e0, max g.h h, min g.l l, g.done ++ [as]⟩ := by
  simp only [Mode.assign, hleft, if_pos hg]

theorem Mode.assign_other {g : Group E} (hleft : as.left = .slice e0 h l)
    (hg : ¬ g.Continued e0 h l) : (Mode.pending g).assign as = .pending ⟨e0, h, l, [as]⟩ := by
  simp only [Mode.assign, hleft, if_neg hg]

/-- The first assignment to a slice starts a group. -/
theorem simulates_start {c : FoldContext E} (hk : Mode.fresh.Kept M c)
    (hleft : as.left = .slice e0 h l) (hw : as.WellTyped M) :
    c.assign (S := S) T as = some (none, ⟨some as.left, [(l, h)], [as.right], c.merged⟩) ∧
      Simulates M .fresh c (as.exec M) (Mode.fresh.assign as)
        ⟨some as.left, [(l, h)], [as.right], c.merged⟩ id := by
  obtain ⟨hmember, hslices, hrights⟩ := hk
  rw [Mode.assign_fresh hleft]
  refine ⟨?_, Group.kept_single hleft hw c.merged, fun _ => rfl, id⟩
  unfold FoldContext.assign FoldContext.matchLExpSliceIndices
  rw [hmember, hleft]
  simp [hslices, hrights]

/-- An assignment goes into the group. -/
theorem simulates_continued {g : Group E} {c : FoldContext E} (hk : g.Kept M c)
    (hleft : as.left = .slice e0 h l) (hw : as.WellTyped M) (hg : g.Continued e0 h l)
    (hjoin : g.Joins M as e0) : ∃ c', c.assign (S := S) T as = some (none, c') ∧
      Simulates M (.pending g) c (as.exec M) ((Mode.pending g).assign as) c' id := by
  obtain ⟨h', l', hmember⟩ := hk.lExpMember
  have hbounds : c.curL = h + 1 ∨ c.curH + 1 = l := by
    rw [hk.curL, hk.curH]
    exact hg.1
  have hmatch : c.matchLExpSliceIndices as.left =
      ⟨{ c with merged := c.merged ++ [⟨.slice g.e0 h' l', c.curL, c.curH, as.left⟩] }, l, h,
        !decide (c.curH + 1 = l), true⟩ := by
    unfold FoldContext.matchLExpSliceIndices
    rw [hmember, hleft]
    dsimp only
    rw [if_neg (not_not.mpr hbounds), if_pos (compareExpression_iff.mpr hg.2)]
  have hadjacent : (∀ x ∈ c.merged, x.Adjacent) →
      ∀ x ∈ c.merged ++ [⟨.slice g.e0 h' l', c.curL, c.curH, as.left⟩], x.Adjacent := by
    intro hc x hx
    rcases List.mem_append.mp hx with hx | hx
    · exact hc x hx
    · rw [List.mem_singleton.mp hx]
      exact ⟨e0, h, l, hleft, ⟨h', l', by rw [hjoin.1]⟩, hbounds⟩
  have hexec : ∀ σ : Store, (Mode.pending ⟨g.e0, max g.h h, min g.l l, g.done ++ [as]⟩).finish M
      (id σ) = as.exec M ((Mode.pending g).finish M σ) :=
    fun σ => execAssignments_append g.done as σ
  rw [Mode.assign_continued hleft hg]
  by_cases habove : c.curH + 1 = l
  · refine ⟨⟨c.lExpMember, (l, h) :: c.slices, as.right :: c.rightExprVec, _⟩, ?_,
      hk.above hleft hw hjoin (hk.curH ▸ habove) _, hexec, hadjacent⟩
    unfold FoldContext.assign
    rw [hmatch, decide_eq_true habove]
    rfl
  · refine ⟨⟨c.lExpMember, c.slices ++ [(l, h)], c.rightExprVec ++ [as.right], _⟩, ?_,
      hk.below hleft hw hjoin (hk.curL ▸ hbounds.resolve_right habove) _, hexec, hadjacent⟩
    unfold FoldContext.assign
    rw [hmatch, decide_eq_false habove]
    rfl

/-- An assignment that does not fit starts a group of its own. -/
theorem simulates_other {g : Group E} {c : FoldContext E} (hk : g.Kept M c)
    (hleft : as.left = .slice e0 h l) (hw : as.WellTyped M) (hg : ¬ g.Continued e0 h l) :
    ∃ (out : Stmt E S) (c' : FoldContext E), c.assign T as = some (some out, c') ∧
      Simulates M (.pending g) c (as.exec M) ((Mode.pending g).assign as) c' (out.exec M) := by
  obtain ⟨h', l', hmember⟩ := hk.lExpMember
  obtain ⟨asfolded, hfold, hexec⟩ := hk.fold
  have hmatch : ∃ pushDir, c.matchLExpSliceIndices as.left = ⟨c, l, h, pushDir, false⟩ := by
    unfold FoldContext.matchLExpSliceIndices
    rw [hmember, hleft]
    dsimp only
    by_cases hbounds : c.curL = h + 1 ∨ c.curH + 1 = l
    · have hnot : ¬ compareExpression g.e0 e0 = true := by
        rw [compareExpression_iff]
        rw [hk.curL, hk.curH] at hbounds
        exact fun halike => hg ⟨hbounds, halike⟩
      rw [if_neg (not_not.mpr hbounds), if_neg hnot]
      exact ⟨_, rfl⟩
    · rw [if_pos hbounds]
      exact ⟨_, rfl⟩
  obtain ⟨pushDir, hmatch⟩ := hmatch
  refine ⟨.assign asfolded, ⟨some as.left, [(l, h)], [as.right], c.merged⟩, ?_, ?_, ?_, id⟩
  · unfold FoldContext.assign
    rw [hmatch]
    dsimp only
    rw [if_neg Bool.false_ne_true, if_neg (by rw [List.isEmpty_iff]; exact hk.rightExprVec), hfold]
    rfl
  · rw [Mode.assign_other hleft hg]
    exact Group.kept_single hleft hw c.merged
  · intro σ
    rw [Mode.assign_other hleft hg]
    exact congrArg (as.exec M) (hexec σ)

end Assign

theorem exists_assign_eq {m : Mode E} {c : FoldContext E} (hk : m.Kept M c)
    {as : AssignmentStatement E} (hw : as.WellTyped M) (ha : m.Admits M as) :
    ∃ (out : Option (Stmt E S)) (c' : FoldContext E), c.assign T as = some (out, c') ∧
      Simulates M m c (as.exec M) (m.assign as) c' (execOut M out) ∧
      ((m.assign as).Idle → out ≠ none) := by
  cases m with
  | fresh =>
      cases hleft : as.left with
      | slice e0 h l =>
          obtain ⟨heq, hsim⟩ := simulates_start (S := S) hk hleft hw
          exact ⟨none, _, heq, hsim, by rw [Mode.assign_fresh hleft]; exact False.elim⟩
      | access e =>
          obtain ⟨hmember, hslices, hrights⟩ := hk
          have hmode : Mode.fresh.assign as = .stuck := by simp only [Mode.assign, hleft]
          rw [hmode]
          refine ⟨some (.assign as), { c with lExpMember := some (.access e) }, ?_,
            ⟨⟨⟨e, rfl⟩, hslices, hrights⟩, fun _ => rfl, id⟩, fun _ => Option.some_ne_none _⟩
          unfold FoldContext.assign FoldContext.matchLExpSliceIndices
          rw [hmember, hleft]
          simp [hrights]
  | stuck =>
      obtain ⟨⟨e, hmember⟩, hslices, hrights⟩ := hk
      refine ⟨some (.assign as), c, ?_, ⟨⟨⟨e, hmember⟩, hslices, hrights⟩, fun σ => rfl, id⟩,
        fun _ => Option.some_ne_none _⟩
      unfold FoldContext.assign FoldContext.matchLExpSliceIndices
      rw [hmember]
      simp [hrights]
  | pending g =>
      unfold Mode.Admits at ha
      cases hleft : as.left with
      | access e =>
          rw [hleft] at ha
          exact ha.elim
      | slice e0 h l =>
          rw [hleft] at ha
          by_cases hg : g.Continued e0 h l
          · obtain ⟨c', heq, hsim⟩ := simulates_continued (S := S) hk hleft hw hg (ha hg)
            exact ⟨none, c', heq, hsim, by rw [Mode.assign_continued hleft hg]; exact False.elim⟩
          · obtain ⟨out, c', heq, hsim⟩ := simulates_other (S := S) hk hleft hw hg
            exact ⟨some out, c', heq, hsim, fun _ => Option.some_ne_none _⟩

/-! ## All statements -/

theorem postorder_of_idle {m : Mode E} {c : FoldContext E} (hk : m.Kept M c) (hm : m.Idle)
    (sd : Stmt E S) : c.postorder T sd = some (sd, c) := by
  unfold FoldContext.postorder
  rw [if_pos (List.isEmpty_iff.mpr (hm.rightExprVec hk))]

theorem exists_postorder_eq {m : Mode E} {c : FoldContext E} (hk : m.Kept M c) (sd : Stmt E S) :
    ∃ out c', c.postorder T sd = some (out, c') ∧
      Simulates M m c (sd.exec M) m.close c' (out.exec M) := by
  cases m with
  | fresh => exact ⟨sd, c, postorder_of_idle hk trivial sd, hk, fun _ => rfl, id⟩
  | stuck => exact ⟨sd, c, postorder_of_idle hk trivial sd, hk, fun _ => rfl, id⟩
  | pending g =>
      obtain ⟨as, hfold, hexec⟩ := Group.Kept.fold hk
      refine ⟨.block (.cons (.assign as) (.cons sd .nil)), c.reset, ?_, ⟨rfl, rfl, rfl⟩, ?_, id⟩
      · unfold FoldContext.postorder
        rw [if_neg (by rw [List.isEmpty_iff]; exact hk.rightExprVec), hfold]
        rfl
      · exact fun σ => congrArg (sd.exec M) (hexec σ)

theorem Components.exec_push (cs : Components E S) (s : Stmt E S) (σ : Store) :
    (cs.push s).exec M σ = s.exec M (cs.exec M σ) := by
  match cs with
  | .nil => rfl
  | .cons t rest => exact Components.exec_push rest s (t.exec M σ)

/-- The last group of a block. -/
theorem exists_finishBlock_eq {m : Mode E} {c : FoldContext E} (hk : m.Kept M c)
    (cs : Components E S) :
    ∃ out, c.finishBlock T cs = some (out, c) ∧ ∀ σ, out.exec M σ = m.finish M (cs.exec M σ) := by
  unfold FoldContext.finishBlock
  cases m with
  | fresh => exact ⟨cs, if_pos (List.isEmpty_iff.mpr hk.2.2), fun _ => rfl⟩
  | stuck => exact ⟨cs, if_pos (List.isEmpty_iff.mpr hk.2.2), fun _ => rfl⟩
  | pending g =>
      obtain ⟨as, hfold, hexec⟩ := Group.Kept.fold hk
      refine ⟨cs.push (.assign as), ?_, fun σ => ?_⟩
      · rw [if_neg (by rw [List.isEmpty_iff]; exact hk.rightExprVec), hfold]
        rfl
      · rw [Components.exec_push]
        exact hexec _

theorem kept_reset (c : FoldContext E) : Mode.fresh.Kept M c.reset := ⟨rfl, rfl, rfl⟩

mutual

/-- **What the visitor does with a statement.** -/
theorem Stmt.exists_visit_eq (s : Stmt E S) {m : Mode E} {c : FoldContext E} (hk : m.Kept M c)
    (hw : s.WellTyped M) (hs : s.Safe M m) :
    ∃ out c', s.visit T c = some (out, c') ∧
      Simulates M m c (s.exec M) (s.after m) c' (execOut M out) ∧
      ((s.after m).Idle → out ≠ none) := by
  match s with
  | .assign as => exact exists_assign_eq hk hw hs
  | .other s =>
      obtain ⟨out, c', heq, hsim⟩ := exists_postorder_eq (S := S) hk (.other s)
      refine ⟨some out, c', ?_, hsim, fun _ => Option.some_ne_none _⟩
      rw [Stmt.visit, heq]
      rfl
  | .block components =>
      obtain ⟨hm, hs, hafter⟩ := hs
      obtain ⟨cs, c₁, heq, hsim⟩ := components.exists_visit_eq (kept_reset c) hw hs
      obtain ⟨out, hfinish, hexec⟩ := exists_finishBlock_eq hsim.kept cs
      refine ⟨some (.block out), c₁, ?_, ⟨hsim.kept, fun σ => ?_, hsim.merged⟩,
        fun _ => Option.some_ne_none _⟩
      · rw [Stmt.visit, heq, Option.bind_some, hfinish]
        rfl
      · rw [hm.finish]
        show (components.after .fresh).finish M (out.exec M σ) = components.exec M σ
        rw [hafter.finish, hexec, hsim.exec]
        rfl
  | .ifThen condition ifTrue =>
      obtain ⟨hm, hs, hafter⟩ := hs
      obtain ⟨out, c₁, heq, hsim, hout⟩ := ifTrue.exists_visit_eq hk hw hs
      obtain ⟨t, rfl⟩ := Option.ne_none_iff_exists'.mp (hout hafter)
      have hexec : ∀ σ, t.exec M σ = ifTrue.exec M σ := by
        intro σ
        have h := hsim.exec σ
        rwa [hafter.finish, hm.finish] at h
      refine ⟨some (.ifThen condition t), c₁, ?_, ⟨hsim.kept, fun σ => ?_, hsim.merged⟩,
        fun _ => Option.some_ne_none _⟩
      · rw [Stmt.visit, heq, Option.bind_some, Option.bind_some,
          postorder_of_idle hsim.kept hafter]
        rfl
      · show (ifTrue.after m).finish M ((Stmt.ifThen condition t).exec M σ) = _
        rw [hafter.finish, hm.finish, Stmt.exec, Stmt.exec]
        rw [hexec]
  | .ifElse condition ifTrue ifFalse =>
      obtain ⟨hm, ⟨hs, hafter⟩, hs', hafter'⟩ := hs
      obtain ⟨out, c₁, heq, hsim, hout⟩ := ifTrue.exists_visit_eq hk hw.1 hs
      obtain ⟨out', c₂, heq', hsim', hout'⟩ := ifFalse.exists_visit_eq hsim.kept hw.2 hs'
      obtain ⟨t, rfl⟩ := Option.ne_none_iff_exists'.mp (hout hafter)
      obtain ⟨f, rfl⟩ := Option.ne_none_iff_exists'.mp (hout' hafter')
      have hexec : ∀ σ, t.exec M σ = ifTrue.exec M σ := by
        intro σ
        have h := hsim.exec σ
        rwa [hafter.finish, hm.finish] at h
      have hexec' : ∀ σ, f.exec M σ = ifFalse.exec M σ := by
        intro σ
        have h := hsim'.exec σ
        rwa [hafter'.finish, hafter.finish] at h
      refine ⟨some (.ifElse condition t f), c₂, ?_, ⟨hsim'.kept, fun σ => ?_,
        fun hc => hsim'.merged (hsim.merged hc)⟩, fun _ => Option.some_ne_none _⟩
      · rw [Stmt.visit, heq, Option.bind_some, Option.bind_some, heq', Option.bind_some,
          postorder_of_idle hsim'.kept hafter']
        rfl
      · show (ifFalse.after (ifTrue.after m)).finish M ((Stmt.ifElse condition t f).exec M σ) = _
        rw [hafter'.finish, hm.finish, Stmt.exec, Stmt.exec]
        rw [hexec, hexec']
  | .switch expression cases =>
      obtain ⟨hm, hs⟩ := hs
      obtain ⟨out, c₁, heq, hafter, hkept, hmerged, hexec⟩ := cases.exists_visit_eq hk hm hw hs
      refine ⟨some (.switch expression out), c₁, ?_, ⟨hkept, fun σ => ?_, hmerged⟩,
        fun _ => Option.some_ne_none _⟩
      · rw [Stmt.visit, heq, Option.bind_some, postorder_of_idle hkept hafter]
        rfl
      · show (cases.after m).finish M ((Stmt.switch expression out).exec M σ) = _
        rw [hafter.finish, hm.finish, Stmt.exec, Stmt.exec]
        rw [hexec]

theorem Components.exists_visit_eq (cs : Components E S) {m : Mode E} {c : FoldContext E}
    (hk : m.Kept M c) (hw : cs.WellTyped M) (hs : cs.Safe M m) :
    ∃ out c', cs.visit T c = some (out, c') ∧
      Simulates M m c (cs.exec M) (cs.after m) c' (out.exec M) := by
  match cs with
  | .nil => exact ⟨.nil, c, rfl, hk, fun _ => rfl, id⟩
  | .cons stmt rest =>
      obtain ⟨out, c₁, heq, hsim, -⟩ := stmt.exists_visit_eq hk hw.1 hs.1
      obtain ⟨out', c₂, heq', hsim'⟩ := rest.exists_visit_eq hsim.kept hw.2 hs.2
      cases out with
      | none =>
          refine ⟨out', c₂, ?_, hsim.trans hsim'⟩
          rw [Components.visit, heq, Option.bind_some, heq']
          rfl
      | some s =>
          refine ⟨.cons s out', c₂, ?_, hsim.trans hsim'⟩
          rw [Components.visit, heq, Option.bind_some, heq']
          rfl

theorem Cases.exists_visit_eq (cs : Cases E S) {m : Mode E} {c : FoldContext E}
    (hk : m.Kept M c) (hm : m.Idle) (hw : cs.WellTyped M) (hs : cs.Safe M m) :
    ∃ out c', cs.visit T c = some (out, c') ∧ (cs.after m).Idle ∧ (cs.after m).Kept M c' ∧
      ((∀ x ∈ c.merged, x.Adjacent) → ∀ x ∈ c'.merged, x.Adjacent) ∧
      ∀ i σ, out.exec M i σ = cs.exec M i σ := by
  match cs with
  | .nil => exact ⟨.nil, c, rfl, hm, hk, id, fun _ _ => rfl⟩
  | .cons statement rest =>
      obtain ⟨⟨hs, hafter⟩, hs'⟩ := hs
      obtain ⟨out, c₁, heq, hsim, hout⟩ := statement.exists_visit_eq hk hw.1 hs
      obtain ⟨t, rfl⟩ := Option.ne_none_iff_exists'.mp (hout hafter)
      obtain ⟨out', c₂, heq', hafter', hkept, hmerged, hexec'⟩ :=
        rest.exists_visit_eq hsim.kept hafter hw.2 hs'
      have hexec : ∀ σ, t.exec M σ = statement.exec M σ := by
        intro σ
        have h := hsim.exec σ
        rwa [hafter.finish, hm.finish] at h
      refine ⟨.cons t out', c₂, ?_, hafter', hkept, fun hc => hmerged (hsim.merged hc), ?_⟩
      · rw [Cases.visit, heq, Option.bind_some, heq']
        rfl
      · intro i σ
        cases i with
        | zero => exact hexec σ
        | succ i => exact hexec' i σ
  | .fall rest =>
      obtain ⟨out, c', heq, hafter, hkept, hmerged, hexec⟩ := rest.exists_visit_eq hk hm hw hs
      refine ⟨.fall out, c', ?_, hafter, hkept, hmerged, fun i σ => ?_⟩
      · rw [Cases.visit, heq]
        rfl
      · cases i with
        | zero => exact hexec 0 σ
        | succ i => exact hexec i σ

end

/-- **A safe block is folded correctly.** -/
theorem foldsCorrectly_of_safe {components : Components E S} (hw : components.WellTyped M)
    (hs : components.Safe M .fresh) : FoldsCorrectly M components := by
  intro c hc
  obtain ⟨cs, c₁, heq, hsim⟩ := components.exists_visit_eq (kept_reset c) hw hs
  obtain ⟨out, hfinish, hexec⟩ := exists_finishBlock_eq hsim.kept cs
  refine ⟨out, c₁, ?_, fun σ => ?_, hsim.merged ?_⟩
  · rw [foldBlock, heq, Option.bind_some, hfinish]
  · rw [hexec, hsim.exec]
    rfl
  · rw [FoldContext.reset, hc]
    exact fun x hx => absurd hx List.not_mem_nil

/-! ## Two bytes -/

/-- Right sides are bits, and other statements do nothing. -/
def bitSemantics (T : Types) : Semantics T (List Bool) Unit where
  value := fun bits _ => bits
  other := fun _ σ => σ
  condition := fun _ σ => (σ, true)
  expression := fun _ σ => (σ, 0)
  assign := fun e right σ => assignSlice T e (e.width T - 1) 0 (right.value id) σ
  assign_eq := fun _ _ _ _ => rfl

/-- `e0[h:h-7] = 0xff`. -/
def byteAssignment (e0 : Access) (h : ℕ) : Stmt (List Bool) Unit :=
  .assign ⟨.slice e0 h (h - 7), .operand (List.replicate 8 true)⟩

/-- Both bytes of a header, and a call. -/
theorem foldsCorrectly_oneHeader : FoldsCorrectly (bitSemantics twoByteTypes)
    (.cons (byteAssignment (dataOf 0) 15) (.cons (byteAssignment (dataOf 0) 7)
      (.cons (.other ()) .nil))) := by
  refine foldsCorrectly_of_safe ⟨?_, ?_, trivial, trivial⟩ ⟨trivial, ?_, trivial, trivial⟩
  · exact ⟨⟨by decide, by decide, fun _ _ => Access.noConfusion⟩, fun _ => rfl⟩
  · exact ⟨⟨by decide, by decide, fun _ _ => Access.noConfusion⟩, fun _ => rfl⟩
  · exact fun _ => ⟨rfl, fun _ => ⟨rfl, rfl⟩⟩

/-- The second byte of a header, and the first byte of the next one: both go to one header. -/
theorem not_foldsCorrectly_twoHeaders : ¬ FoldsCorrectly (bitSemantics twoByteTypes)
    (.cons (byteAssignment (dataOf 0) 7) (.cons (byteAssignment (dataOf 1) 15) .nil)) := by
  intro h
  obtain ⟨folded, c', heq, hexec, -⟩ := h ⟨none, [], [], []⟩ rfl
  cases heq
  have hbit := congrFun (congrFun (hexec fun _ _ => false) ((dataOf 1).loc twoByteTypes
    fun _ _ => false)) 8
  exact absurd hbit (by decide)

end Tofino
end MicroP4
