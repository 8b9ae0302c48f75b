import MicroP4.Partitioning.SlicePipeControl

/-!
# Where a control is cut

What the traversal of a block does is known if no call that must not be in the pipeline stands in
a branch of an `if` or in a case of a `switch` (`visit_block_cut`): the first half ends in front of
the first such call, the second half starts with it, and a control that is cut itself is called in
halves.  What stands in front of the cut and behind it is the block (`CutsInto.exists_parts`).
-/

namespace MicroP4
namespace Partitioning

open CopyInCopyOut

variable {N O E : Type}

section Cuts

variable (cut : O → Bool) (callee : N → Option (ApplySplit N))

mutual

/-- There is nothing in a statement at which it is to be cut. -/
def Statement.noCut : Statement N O → Bool
  | .simple s => !s.cuts cut
  | .apply c _ => (callee c).isNone
  | .block l => noCutOf l
  | .ifStatement c t f => !c.cuts cut && (t.noCut && noCutOfOption f)
  | .switchStatement _ cases => noCutOfCases cases

def noCutOf : List (Statement N O) → Bool
  | [] => true
  | s :: l => s.noCut && noCutOf l

def noCutOfOption : Option (Statement N O) → Bool
  | none => true
  | some s => s.noCut

def noCutOfCases : List (Option N × Option (Statement N O)) → Bool
  | [] => true
  | (_, s) :: cases => noCutOfOption s && noCutOfCases cases

end

mutual

/-- Nothing at which it is to be cut stands in a branch or a case. -/
def Statement.plain : Statement N O → Bool
  | .simple _ => true
  | .apply _ _ => true
  | .block l => plainOf l
  | .ifStatement _ t f => t.noCut cut callee && noCutOfOption cut callee f
  | .switchStatement _ cases => noCutOfCases cut callee cases

def plainOf : List (Statement N O) → Bool
  | [] => true
  | s :: l => s.plain && plainOf l

end

/-- The arguments of the halves. -/
def ApplySplit.args (s : ApplySplit N) (args : List (Arg N O)) : List (Arg N O) :=
  args ++ [⟨none, .place (.ofVar s.varName)⟩]

/-- The call at which a block is cut, if it is the call of a control. -/
abbrev CutCall (N O : Type) := Option (N × List (Arg N O) × ApplySplit N)

/-- The halves of a block. -/
inductive CutsInto : List (Statement N O) → List (Statement N O) → List (Statement N O) →
    CutCall N O → Prop
  | simple {front rest : List (Statement N O)} {s : Simple N O} (hfront : noCutOf cut callee front)
      (h : s.cuts cut) : CutsInto (front ++ .simple s :: rest) front (.simple s :: rest) none
  | condition {front rest : List (Statement N O)} {c : Condition N O} {t : Statement N O}
      {f : Option (Statement N O)} (hfront : noCutOf cut callee front) (h : c.cuts cut) :
      CutsInto (front ++ .ifStatement c t f :: rest) front (.ifStatement c t f :: rest) none
  | apply {front rest : List (Statement N O)} {c : N} {args : List (Arg N O)} {s : ApplySplit N}
      (hfront : noCutOf cut callee front) (h : callee c = some s) :
      CutsInto (front ++ .apply c args :: rest) (front ++ [.apply s.inst₁ (s.args args)])
        (.apply s.inst₂ (s.args args) :: rest) (some (c, args, s))
  | block {front rest l l₁ l₂ : List (Statement N O)} {o : CutCall N O}
      (hfront : noCutOf cut callee front) (h : CutsInto l l₁ l₂ o) :
      CutsInto (front ++ .block l :: rest) (front ++ [.block l₁]) (.block l₂ :: rest) o

variable {cut callee}

/-- Another statement in front that is not cut. -/
theorem CutsInto.cons {s : Statement N O} (hs : s.noCut cut callee)
    {l l₁ l₂ : List (Statement N O)} {o : CutCall N O} (h : CutsInto cut callee l l₁ l₂ o) :
    CutsInto cut callee (s :: l) (s :: l₁) l₂ o := by
  have hcons : ∀ {front : List (Statement N O)}, noCutOf cut callee front →
      noCutOf cut callee (s :: front) := fun hfront => by
    rw [noCutOf, hs, hfront]
    rfl
  cases h with
  | simple hfront h => exact .simple (hcons hfront) h
  | condition hfront h => exact .condition (hcons hfront) h
  | apply hfront h => exact .apply (hcons hfront) h
  | block hfront h => exact .block (hcons hfront) h

mutual

/-- A block without a call to be cut at in a branch or a case is not cut, or has halves. -/
theorem Statement.plain_cases : ∀ s : Statement N O, s.plain cut callee →
    s.noCut cut callee ∨ ∀ rest, ∃ l₁ l₂ o, CutsInto cut callee (s :: rest) l₁ l₂ o
  | .simple s, _ => by
      cases h : s.cuts cut with
      | false => exact Or.inl (by rw [Statement.noCut, h]; rfl)
      | true => exact Or.inr fun rest => ⟨_, _, _, @CutsInto.simple _ _ _ _ [] _ _ rfl h⟩
  | .apply c args, _ => by
      cases h : callee c with
      | none => exact Or.inl (by rw [Statement.noCut, h]; rfl)
      | some s => exact Or.inr fun rest => ⟨_, _, _, @CutsInto.apply _ _ _ _ [] _ _ _ _ rfl h⟩
  | .block l, hl => (plainOf_cases l hl).imp id fun ⟨l₁, l₂, o, h⟩ rest =>
      ⟨_, _, o, @CutsInto.block _ _ _ _ [] _ _ _ _ _ rfl h⟩
  | .ifStatement c t f, h => by
      rw [Statement.plain] at h
      cases hc : c.cuts cut with
      | false => exact Or.inl (by rw [Statement.noCut, hc, h]; rfl)
      | true => exact Or.inr fun rest => ⟨_, _, _, @CutsInto.condition _ _ _ _ [] _ _ _ _ rfl hc⟩
  | .switchStatement t cases, h => Or.inl h

theorem plainOf_cases : ∀ l : List (Statement N O), plainOf cut callee l →
    noCutOf cut callee l ∨ ∃ l₁ l₂ o, CutsInto cut callee l l₁ l₂ o
  | [], _ => Or.inl rfl
  | s :: l, h => by
      rw [plainOf, Bool.and_eq_true] at h
      rcases Statement.plain_cases s h.1 with hs | hs
      · refine (plainOf_cases l h.2).imp (fun hl => ?_) fun ⟨l₁, l₂, o, hl⟩ => ?_
        · rw [noCutOf, hs, hl]
          rfl
        · exact ⟨_, _, o, hl.cons hs⟩
      · exact Or.inr (hs l)

end

end Cuts

/-! ## What the traversal does -/

section Visit

variable {names : SliceNames N O} {cut : O → Bool} {callee : N → Option (ApplySplit N)}

/-- The members are what they were, but a first half may have been forgotten. -/
def SliceState.Same (st st' : SliceState N O) : Prop :=
  st' = st ∨ st' = { st with slicedHalf := none }

theorem SliceState.Same.trans {st st₁ st₂ : SliceState N O} (h : st.Same st₁)
    (h' : st₁.Same st₂) : st.Same st₂ := by
  rcases h with rfl | rfl
  · exact h'
  · exact Or.inr (h'.elim id id)

theorem SliceState.Same.slice_eq {st st' : SliceState N O} (h : st.Same st') :
    st'.slice = st.slice := by
  rcases h with rfl | rfl <;> rfl

theorem SliceState.Same.eq {st st' : SliceState N O} (h : st.Same st')
    (hhalf : st.slicedHalf = none) : st' = st := by
  rcases h with rfl | rfl
  · rfl
  · rw [← hhalf]

mutual

/-- A statement that is not cut stays. -/
theorem visit_same : ∀ (s : Statement N O) {st : SliceState N O}, s.noCut cut callee →
    st.slice = false → ∃ st', visit names cut callee s st = some (some s, st') ∧ st.Same st'
  | .simple s, st, h, _ => by
      rw [Statement.noCut, Bool.not_eq_true'] at h
      refine ⟨st, ?_, Or.inl rfl⟩
      rw [visit, h]
      rfl
  | .apply c args, st, h, _ => by
      rw [Statement.noCut, Option.isNone_iff_eq_none] at h
      exact ⟨st, by rw [visit, h], Or.inl rfl⟩
  | .block l, st, h, hslice => by
      have hstart :
          ({ st with slice := false, slicedHalf := none } : SliceState N O).slice = false := rfl
      obtain ⟨st', hrun, hsame⟩ := visitComponents_same l h hstart
      refine ⟨st', ?_, Or.inr ?_⟩
      · rw [visit, hrun]
        dsimp only
        rw [SliceState.endBlock, hsame.slice_eq]
        rfl
      · rw [hsame.eq rfl, ← hslice]
  | .ifStatement c t f, st, h, hslice => by
      rw [Statement.noCut, Bool.and_eq_true, Bool.and_eq_true, Bool.not_eq_true'] at h
      obtain ⟨hc, ht, hf⟩ := h
      have hst : ({ st with slice := false } : SliceState N O) = st := by rw [← hslice]
      obtain ⟨st₁, hrun₁, hsame₁⟩ := visit_same t ht hslice
      have hslice₁ : st₁.slice = false := hsame₁.slice_eq.trans hslice
      obtain ⟨st₂, hrun₂, hsame₂⟩ := visitOption_same f hf hslice₁
      have hslice₂ : st₂.slice = false := hsame₂.slice_eq.trans hslice₁
      refine ⟨st₂, ?_, hsame₁.trans hsame₂⟩
      rw [visit, hc, hst, hrun₁]
      dsimp only
      rw [hslice₁, hrun₂]
      simp only [hslice₂, SliceState.endIf, Bool.false_eq_true, if_false]
  | .switchStatement t cases, st, h, hslice => by
      obtain ⟨st', hrun, hsame⟩ := visitCases_same cases h hslice
      exact ⟨st', by rw [visit, hrun], hsame⟩

theorem visitComponents_same : ∀ (l : List (Statement N O)) {st : SliceState N O},
    noCutOf cut callee l → st.slice = false →
    ∃ st', visitComponents names cut callee l st = some (l, [], st') ∧ st.Same st'
  | [], st, _, _ => ⟨st, rfl, Or.inl rfl⟩
  | s :: l, st, h, hslice => by
      rw [noCutOf, Bool.and_eq_true] at h
      obtain ⟨st₁, hrun₁, hsame₁⟩ := visit_same s h.1 hslice
      have hslice₁ : st₁.slice = false := hsame₁.slice_eq.trans hslice
      obtain ⟨st₂, hrun₂, hsame₂⟩ := visitComponents_same l h.2 hslice₁
      refine ⟨st₂, ?_, hsame₁.trans hsame₂⟩
      rw [visitComponents, hrun₁]
      dsimp only
      rw [hslice₁, hrun₂]
      rfl

theorem visitOption_same : ∀ (s : Option (Statement N O)) {st : SliceState N O},
    noCutOfOption cut callee s → st.slice = false →
    ∃ st', visitOption names cut callee s st = some (s, st') ∧ st.Same st'
  | none, st, _, _ => ⟨st, rfl, Or.inl rfl⟩
  | some s, _, h, hslice => visit_same s h hslice

theorem visitCases_same : ∀ (cases : List (Option N × Option (Statement N O)))
    {st : SliceState N O}, noCutOfCases cut callee cases → st.slice = false →
    ∃ st', visitCases names cut callee cases st = some (cases, st') ∧ st.Same st'
  | [], st, _, _ => ⟨st, rfl, Or.inl rfl⟩
  | (l, s) :: cases, st, h, hslice => by
      rw [noCutOfCases, Bool.and_eq_true] at h
      obtain ⟨st₁, hrun₁, hsame₁⟩ := visitOption_same s h.1 hslice
      obtain ⟨st₂, hrun₂, hsame₂⟩ := visitCases_same cases h.2 (hsame₁.slice_eq.trans hslice)
      refine ⟨st₂, ?_, hsame₁.trans hsame₂⟩
      rw [visitCases, hrun₁]
      dsimp only
      rw [hrun₂]

end

/-- Nothing happens, if there was no first half. -/
theorem visit_noCut (s : Statement N O) {st : SliceState N O} (h : s.noCut cut callee)
    (hslice : st.slice = false) (hhalf : st.slicedHalf = none) :
    visit names cut callee s st = some (some s, st) := by
  obtain ⟨st', hrun, hsame⟩ := visit_same s h hslice
  rw [hrun, hsame.eq hhalf]

/-- What stands in front of the cut stays in the first half. -/
theorem visitComponents_append : ∀ (front : List (Statement N O)) {l : List (Statement N O)}
    {st : SliceState N O}, noCutOf cut callee front → st.slice = false → st.slicedHalf = none →
    visitComponents names cut callee (front ++ l) st
      = (visitComponents names cut callee l st).map fun r => (front ++ r.1, r.2)
  | [], l, st, _, _, _ => by
      rw [List.nil_append]
      cases visitComponents names cut callee l st with
      | none => rfl
      | some r => rfl
  | s :: front, l, st, h, hslice, hhalf => by
      rw [noCutOf, Bool.and_eq_true] at h
      rw [List.cons_append, visitComponents, visit_noCut s h.1 hslice hhalf]
      dsimp only
      rw [hslice, visitComponents_append front h.2 hslice hhalf]
      cases visitComponents names cut callee l st with
      | none => rfl
      | some r => rfl

/-- The split of the call at which a block is cut. -/
def CutCall.splits (o : CutCall N O) : List (ApplySplit N) := (o.map fun r => r.2.2).toList

/-- The members after a block was cut. -/
def SliceState.cutInto (st : SliceState N O) (l₁ l₂ : List (Statement N O)) (o : CutCall N O) :
    SliceState N O :=
  { st with
    slice := true
    slicedHalf := some (.block l₁)
    newStmtVec := st.newStmtVec ++ [.block l₂]
    splits := st.splits ++ o.splits }

/-- **A block is cut into its halves.** -/
theorem visit_block_cut {l l₁ l₂ : List (Statement N O)} {o : CutCall N O}
    (h : CutsInto cut callee l l₁ l₂ o) (st : SliceState N O) :
    visit names cut callee (.block l) st = some (none, st.cutInto l₁ l₂ o) := by
  induction h generalizing st with
  | simple hfront h =>
      rw [visit, visitComponents_append _ hfront rfl rfl, visitComponents, visit, h]
      simp [SliceState.endBlock, SliceState.popTo, SliceState.cutInto, CutCall.splits]
  | condition hfront h =>
      rw [visit, visitComponents_append _ hfront rfl rfl, visitComponents, visit, h]
      simp [SliceState.endBlock, SliceState.popTo, SliceState.cutInto, CutCall.splits]
  | apply hfront h =>
      rw [visit, visitComponents_append _ hfront rfl rfl, visitComponents, visit, h]
      simp [SliceState.endBlock, SliceState.popTo, SliceState.cutInto, CutCall.splits,
        SliceState.splitApply, ApplySplit.args]
  | block hfront h ih =>
      rw [visit, visitComponents_append _ hfront rfl rfl, visitComponents, ih]
      simp [SliceState.endBlock, SliceState.popTo, SliceState.cutInto, CutCall.splits]

end Visit

/-! ## What the halves do -/

namespace CutCall

/-- The call at which a block is cut. -/
def whole : CutCall N O → List (Statement N O)
  | none => []
  | some (c, args, _) => [.apply c args]

/-- The call in the first half. -/
def first : CutCall N O → List (Statement N O)
  | none => []
  | some (_, args, s) => [.apply s.inst₁ (s.args args)]

/-- The call in the second half. -/
def second : CutCall N O → List (Statement N O)
  | none => []
  | some (_, args, s) => [.apply s.inst₂ (s.args args)]

end CutCall

theorem leavesOf_append : ∀ l l' : List (Statement N O),
    leavesOf (l ++ l') = leavesOf l ++ leavesOf l'
  | [], _ => rfl
  | s :: l, l' => by
      rw [List.cons_append, leavesOf, leavesOf, leavesOf_append l l', List.append_assoc]

/-- Lists of statements with the same effect and the same statements in them. -/
structure SameRuns [DecidableEq N] (l l' : List (Statement N O)) : Prop where
  leaves : leavesOf l = leavesOf l'
  exec : ∀ {E : Type} (I : Interp N O E) (ctrls acts : N → Option (Callee N E))
    (keys : N → List (Expr N O)), execOf I ctrls acts keys l = execOf I ctrls acts keys l'

namespace SameRuns

variable [DecidableEq N] {l l' m m' : List (Statement N O)}

theorem refl (l : List (Statement N O)) : SameRuns l l := ⟨rfl, fun _ _ _ _ => rfl⟩

theorem trans {l₁ l₂ l₃ : List (Statement N O)} (h : SameRuns l₁ l₂) (h' : SameRuns l₂ l₃) :
    SameRuns l₁ l₃ :=
  ⟨h.leaves.trans h'.leaves, fun I c a k => (h.exec I c a k).trans (h'.exec I c a k)⟩

theorem append (h : SameRuns l l') (h' : SameRuns m m') : SameRuns (l ++ m) (l' ++ m') where
  leaves := by rw [leavesOf_append, leavesOf_append, h.leaves, h'.leaves]
  exec := fun I c a k => by rw [execOf_append, execOf_append, h.exec, h'.exec]

/-- A block does what its statements do. -/
theorem block (l : List (Statement N O)) : SameRuns [.block l] l where
  leaves := List.append_nil _
  exec := fun I c a k => by
    funext σ e σ' e'
    refine propext ⟨?_, fun h => ⟨σ', e', h, rfl, rfl⟩⟩
    rintro ⟨τ, d, h, rfl, rfl⟩
    exact h

end SameRuns

/-- **What stands in front of the cut, and what stands behind it.** -/
theorem CutsInto.exists_parts [DecidableEq N] {cut : O → Bool} {callee : N → Option (ApplySplit N)}
    {l l₁ l₂ : List (Statement N O)} {o : CutCall N O} (h : CutsInto cut callee l l₁ l₂ o) :
    ∃ A B, SameRuns l (A ++ (o.whole ++ B)) ∧ SameRuns l₁ (A ++ o.first) ∧
      SameRuns l₂ (o.second ++ B) := by
  induction h with
  | simple hfront h =>
      exact ⟨_, _, .refl _, by rw [CutCall.first, List.append_nil]; exact .refl _, .refl _⟩
  | condition hfront h =>
      exact ⟨_, _, .refl _, by rw [CutCall.first, List.append_nil]; exact .refl _, .refl _⟩
  | apply hfront h => exact ⟨_, _, .refl _, .refl _, .refl _⟩
  | @block front rest l l₁ l₂ o hfront h ih =>
      obtain ⟨A, B, hl, hl₁, hl₂⟩ := ih
      refine ⟨front ++ A, B ++ rest, ?_, ?_, ?_⟩
      · rw [List.append_assoc, ← List.append_assoc o.whole, ← List.append_assoc A]
        exact (SameRuns.refl front).append (((SameRuns.block l).trans hl).append (.refl rest))
      · rw [List.append_assoc]
        exact (SameRuns.refl front).append ((SameRuns.block l₁).trans hl₁)
      · rw [← List.append_assoc]
        exact ((SameRuns.block l₂).trans hl₂).append (.refl rest)

/-- The call at which a block is cut stands in it. -/
theorem CutsInto.callee_eq {cut : O → Bool} {callee : N → Option (ApplySplit N)}
    {l l₁ l₂ : List (Statement N O)} {o : CutCall N O} (h : CutsInto cut callee l l₁ l₂ o)
    {c : N} {args : List (Arg N O)} {s : ApplySplit N} (ho : o = some (c, args, s)) :
    callee c = some s := by
  induction h with
  | simple => cases ho
  | condition => cases ho
  | apply hfront h =>
      cases ho
      exact h
  | block hfront h ih => exact ih ho

end Partitioning
end MicroP4
