import MicroP4.Foundations.OtherCalls
import MicroP4.Partitioning.SlicedPrograms

/-!
# What the first half must not do

No call that the pipeline does not allow is left in the first half of a control, also where the
traversal loses statements because the cut is in a branch.  Only a `switch` is not safe: each of
its cases is visited as if none had been cut before.  The calls of the deparsers that end the
first halves of converted packages come behind.  So whatever the calls do that are not allowed, the
first half of a control does the same (`slicedCallees_first`), if this holds of the controls that
are skipped.
-/

namespace MicroP4
namespace Partitioning

open CopyInCopyOut

variable {N O E : Type}

/-! ## Statements without such a call -/

theorem allowed_condition {cut : O → Bool} {good : N → Prop} : ∀ {c : Condition N O},
    c.cuts cut = false → c.stmt.Allowed cut good
  | .expr _, _ => ⟨trivial, trivial⟩
  | .hit _, _ => trivial
  | .method _ _, h => h

section Cuts

variable {cut : O → Bool} {callee : N → Option (ApplySplit N)}

mutual

/-- What a statement that is not cut does is allowed. -/
theorem Statement.allowed_leaves : ∀ {s : Statement N O}, s.noCut cut callee →
    ∀ t ∈ s.leaves, t.Allowed cut fun k => callee k = none
  | .simple (.method f ins outs), h => by
      rw [Statement.noCut, Bool.not_eq_true'] at h
      exact List.forall_mem_singleton.mpr h
  | .simple (.assign _ _), _ | .simple (.table _), _ | .simple (.action _ _), _ =>
      List.forall_mem_singleton.mpr trivial
  | .apply c args, h => by
      rw [Statement.noCut, Option.isNone_iff_eq_none] at h
      exact List.forall_mem_singleton.mpr h
  | .block l, h => allowed_leavesOf h
  | .ifStatement c t f, h => by
      rw [Statement.noCut, Bool.and_eq_true, Bool.and_eq_true, Bool.not_eq_true'] at h
      rw [Statement.leaves, List.forall_mem_cons, List.forall_mem_append]
      exact ⟨allowed_condition h.1, Statement.allowed_leaves h.2.1, allowed_leavesOfOption h.2.2⟩
  | .switchStatement t cases, h => by
      rw [Statement.leaves, List.forall_mem_cons]
      exact ⟨trivial, allowed_leavesOfCases h⟩

theorem allowed_leavesOf : ∀ {l : List (Statement N O)}, noCutOf cut callee l →
    ∀ t ∈ leavesOf l, t.Allowed cut fun k => callee k = none
  | [], _ => fun _ ht => absurd ht List.not_mem_nil
  | s :: l, h => by
      rw [noCutOf, Bool.and_eq_true] at h
      rw [leavesOf, List.forall_mem_append]
      exact ⟨Statement.allowed_leaves h.1, allowed_leavesOf h.2⟩

theorem allowed_leavesOfOption : ∀ {s : Option (Statement N O)}, noCutOfOption cut callee s →
    ∀ t ∈ leavesOfOption s, t.Allowed cut fun k => callee k = none
  | none, _ => fun _ ht => absurd ht List.not_mem_nil
  | some _, h => Statement.allowed_leaves h

theorem allowed_leavesOfCases : ∀ {cases : List (Option N × Option (Statement N O))},
    noCutOfCases cut callee cases →
    ∀ t ∈ leavesOfCases cases, t.Allowed cut fun k => callee k = none
  | [], _ => fun _ ht => absurd ht List.not_mem_nil
  | (l, s) :: cases, h => by
      rw [noCutOfCases, Bool.and_eq_true] at h
      rw [leavesOfCases, List.forall_mem_append]
      exact ⟨allowed_leavesOfOption h.1, allowed_leavesOfCases h.2⟩

end

end Cuts

/-! ## The first half of a statement -/

section Visited

variable (cut : O → Bool) (callee : N → Option (ApplySplit N))

mutual

/-- Nothing at which a statement is to be cut stands in a case. -/
def Statement.casesNoCut : Statement N O → Bool
  | .simple _ => true
  | .apply _ _ => true
  | .block l => casesNoCutOf l
  | .ifStatement _ t f => t.casesNoCut && casesNoCutOfOption f
  | .switchStatement _ cases => noCutOfCases cut callee cases

def casesNoCutOf : List (Statement N O) → Bool
  | [] => true
  | s :: l => s.casesNoCut && casesNoCutOf l

def casesNoCutOfOption : Option (Statement N O) → Bool
  | none => true
  | some s => s.casesNoCut

end

variable (P : Stmt N O → Prop)

/-- A property of what is not cut, and of calls of first halves. -/
structure Admits (leaves : List (Stmt N O)) : Prop where
  noCut : ∀ t ∈ leaves, (t.Allowed cut fun k => callee k = none) → P t
  split : ∀ k args sp, .apply k args ∈ leaves → callee k = some sp →
    P (.apply sp.inst₁ (sp.args args))

/-- All statements in the first half have the property, and calls were split only for a control
that is cut. -/
def SliceState.FirstHas (st : SliceState N O) : Prop :=
  (∀ half, st.slicedHalf = some half → ∀ t ∈ half.leaves, P t) ∧
    ∀ sp ∈ st.splits, ∃ k, callee k = some sp

/-- What visiting a statement leaves: it is not cut and stays, or what takes its place is no
block. -/
structure Visited (uncut : Bool) (s : Option (Statement N O)) (st : SliceState N O)
    (r : Option (Statement N O)) (st' : SliceState N O) : Prop where
  whole : st'.slice = false → uncut = true ∧ r = s
  notBlock : st'.slice = true → ∀ l, r ≠ some (.block l)
  first : st.FirstHas callee P → st'.FirstHas callee P

variable {cut callee P}

omit cut callee in
theorem Admits.append_iff {cut : O → Bool} {callee : N → Option (ApplySplit N)}
    {l l' : List (Stmt N O)} :
    Admits cut callee P (l ++ l') ↔ Admits cut callee P l ∧ Admits cut callee P l' := by
  constructor
  · exact fun h => ⟨⟨fun t ht => h.noCut t (List.mem_append_left _ ht),
      fun k args sp hk => h.split k args sp (List.mem_append_left _ hk)⟩,
      fun t ht => h.noCut t (List.mem_append_right _ ht),
      fun k args sp hk => h.split k args sp (List.mem_append_right _ hk)⟩
  · exact fun ⟨h, h'⟩ => ⟨fun t ht => (List.mem_append.mp ht).elim (h.noCut t) (h'.noCut t),
      fun k args sp hk => (List.mem_append.mp hk).elim (h.split k args sp) (h'.split k args sp)⟩

/-- What is appended to a statement that is no block is lost with it. -/
theorem leaves_appendStatement {s a : Statement N O} (h : ∀ l, s ≠ .block l) :
    (appendStatement s (some a)).leaves = [] := by
  cases s with
  | block l => exact absurd rfl (h l)
  | simple | apply | ifStatement | switchStatement => rfl

/-- A statement that is cut. -/
theorem Visited.of_cut {uncut : Bool} {s r : Option (Statement N O)} {st st' : SliceState N O}
    (hslice : st'.slice = true) (hr : ∀ l, r ≠ some (.block l))
    (hfirst : st.FirstHas callee P → st'.FirstHas callee P) : Visited callee P uncut s st r st' :=
  ⟨fun h => absurd (hslice.symm.trans h) (by decide), fun _ => hr, hfirst⟩

/-- A statement that stays. -/
theorem Visited.of_whole {s : Option (Statement N O)} {st st' : SliceState N O}
    {uncut : Bool} (huncut : uncut = true) (hs : ∀ l, s ≠ some (.block l))
    (hfirst : st.FirstHas callee P → st'.FirstHas callee P) : Visited callee P uncut s st s st' :=
  ⟨fun _ => ⟨huncut, rfl⟩, fun _ => hs, hfirst⟩

/-- A branch that was visited, with the assignment for the cut in it. -/
theorem Visited.branch {uncut : Bool} {s r : Option (Statement N O)} {st st' : SliceState N O}
    (h : Visited callee P uncut s st r st') (hP : uncut = true → ∀ u ∈ leavesOfOption s, P u)
    {a : Option (Statement N O)} (ha : st'.slice = true → a.isSome)
    (ha' : st'.slice = false → a = none)
    {t : Statement N O} (ht : r = some t) : ∀ u ∈ (appendStatement t a).leaves, P u := by
  cases hslice : st'.slice with
  | true =>
      obtain ⟨a, rfl⟩ := Option.isSome_iff_exists.mp (ha hslice)
      rw [leaves_appendStatement fun l hl => h.notBlock hslice l (ht.trans (congrArg some hl))]
      exact fun _ hu => absurd hu List.not_mem_nil
  | false =>
      obtain ⟨huncut, hr⟩ := h.whole hslice
      rw [ha' hslice]
      have hleaves := hP huncut
      rw [← hr, ht] at hleaves
      exact hleaves

/-- An `if` that is cut. -/
theorem SliceState.endIf_visited {uncut : Bool} {s r₁ r₂ a₁ a₂ r : Option (Statement N O)}
    {st st₁ st' : SliceState N O} {c : Condition N O}
    (h : st₁.endIf c r₁ r₂ a₁ a₂ = some (r, st')) (hslice : st₁.slice = true)
    (hfirst : st.FirstHas callee P → st₁.FirstHas callee P) (hc : P c.stmt)
    (h₁ : ∀ t, r₁ = some t → ∀ u ∈ (appendStatement t a₁).leaves, P u)
    (h₂ : ∀ t, r₂ = some t → ∀ u ∈ (appendStatement t a₂).leaves, P u) :
    Visited callee P uncut s st r st' := by
  cases r₁ with
  | none => cases h
  | some t =>
      rw [SliceState.endIf, if_pos hslice] at h
      obtain ⟨rfl, rfl⟩ := Prod.mk.inj (Option.some.inj h)
      refine .of_cut hslice (fun l hl => (by cases hl)) fun h =>
        ⟨fun half hhalf => ?_, (hfirst h).2⟩
      obtain rfl := Option.some.inj hhalf
      rw [Statement.leaves, List.forall_mem_cons, List.forall_mem_append]
      refine ⟨hc, h₁ t rfl, ?_⟩
      cases r₂ with
      | none => exact fun _ hu => absurd hu List.not_mem_nil
      | some f => exact h₂ f rfl

variable {names : SliceNames N O}

/-- A block, whose statements were visited. -/
theorem visitBlock_visited {l : List (Statement N O)} {st st' : SliceState N O}
    {r : Option (Statement N O)}
    (hl : ∀ {ret rest st₁}, visitComponents names cut callee l
        { st with slice := false, slicedHalf := none } = some (ret, rest, st₁) →
      (st₁.slice = false → noCutOf cut callee l = true ∧ ret = l) ∧
        (SliceState.FirstHas callee P { st with slice := false, slicedHalf := none } →
          (∀ u ∈ leavesOf ret, P u) ∧ st₁.FirstHas callee P))
    (h : visit names cut callee (.block l) st = some (r, st')) :
    Visited callee P (noCutOf cut callee l) (some (.block l)) st r st' := by
  rw [visit] at h
  split at h
  · cases h
  rename_i ret rest st₁ hrun
  obtain ⟨hwhole, hret⟩ := hl hrun
  have hstart : st.FirstHas callee P → SliceState.FirstHas callee P
      { st with slice := false, slicedHalf := none } := fun h =>
    ⟨fun half hhalf => (by cases hhalf), h.2⟩
  rw [SliceState.endBlock] at h
  split at h
  · rename_i hcut
    obtain ⟨rfl, rfl⟩ := Prod.mk.inj (Option.some.inj h)
    refine .of_cut hcut (fun l hl => (by cases hl)) fun h =>
      ⟨fun half hhalf => ?_, (hret (hstart h)).2.2⟩
    obtain rfl := Option.some.inj hhalf
    exact (hret (hstart h)).1
  · rename_i hcut
    obtain ⟨rfl, rfl⟩ := Prod.mk.inj (Option.some.inj h)
    obtain ⟨huncut, rfl⟩ := hwhole (Bool.of_not_eq_true hcut)
    exact ⟨fun _ => ⟨huncut, rfl⟩, fun h => absurd h hcut, fun h => (hret (hstart h)).2⟩

/-- An `if`, of whose branches it is known what visiting them leaves. -/
theorem visitIf_visited {c : Condition N O} {t : Statement N O} {f : Option (Statement N O)}
    {st st' : SliceState N O} {r : Option (Statement N O)}
    (hP : Admits cut callee P (Statement.ifStatement c t f).leaves)
    (hvt : ∀ {st st' r}, st.slice = false → visit names cut callee t st = some (r, st') →
      Visited callee P (t.noCut cut callee) (some t) st r st')
    (hvf : ∀ {st st' r}, st.slice = false → visitOption names cut callee f st = some (r, st') →
      Visited callee P (noCutOfOption cut callee f) f st r st')
    (h : visit names cut callee (.ifStatement c t f) st = some (r, st')) :
    Visited callee P ((Statement.ifStatement c t f).noCut cut callee) (some (.ifStatement c t f)) st
      r st' := by
  rw [Statement.leaves, ← List.singleton_append, Admits.append_iff, Admits.append_iff] at hP
  obtain ⟨hPc, hPt, hPf⟩ := hP
  have ht := fun huncut => fun u hu => hPt.noCut u hu (Statement.allowed_leaves huncut u hu)
  have hf := fun huncut => fun u hu => hPf.noCut u hu (allowed_leavesOfOption huncut u hu)
  rw [visit] at h
  split at h
  · obtain ⟨rfl, rfl⟩ := Prod.mk.inj (Option.some.inj h)
    exact .of_cut rfl (fun l hl => (by cases hl)) fun h =>
      ⟨fun half hhalf => (by cases hhalf), h.2⟩
  rename_i hc
  have hcond : P c.stmt := hPc.noCut _ (List.mem_singleton_self _)
    (allowed_condition (Bool.of_not_eq_true hc))
  split at h
  · cases h
  rename_i t' st₁ hrun₁
  have hv₁ := hvt rfl hrun₁
  split at h
  · -- the first branch is cut
    rename_i hcut₁
    dsimp only at h
    split at h
    · cases h
    rename_i f' st₃ hrun₂
    have hv₂ := hvf rfl hrun₂
    have htrue : ∀ a u, t' = some u → ∀ w ∈ (appendStatement u (some a)).leaves, P w :=
      fun a u hu => hv₁.branch ht (fun _ => rfl)
        (fun h => absurd (hcut₁.symm.trans h) (by decide)) hu
    split at h
    · rename_i hcut₂
      exact SliceState.endIf_visited h hcut₂ (fun h => hv₂.first (hv₁.first h)) hcond (htrue _)
        fun u hu =>
          hv₂.branch hf (fun _ => rfl) (fun h => absurd (hcut₂.symm.trans h) (by decide)) hu
    · rename_i hcut₂
      exact SliceState.endIf_visited h rfl (fun h => hv₂.first (hv₁.first h)) hcond (htrue _)
        fun u hu => hv₂.branch hf (fun h => absurd h hcut₂) (fun _ => rfl) hu
  · rename_i hcut₁
    have hslice₁ := Bool.of_not_eq_true hcut₁
    split at h
    · cases h
    rename_i f' st₂ hrun₂
    have hv₂ := hvf hslice₁ hrun₂
    have htrue : ∀ u, t' = some u → ∀ w ∈ (appendStatement u none).leaves, P w := fun u hu =>
      hv₁.branch ht (fun h => absurd h hcut₁) (fun _ => rfl) hu
    split at h
    · rename_i hcut₂
      exact SliceState.endIf_visited h hcut₂ (fun h => hv₂.first (hv₁.first h)) hcond htrue
        fun u hu =>
          hv₂.branch hf (fun _ => rfl) (fun h => absurd (hcut₂.symm.trans h) (by decide)) hu
    · -- nothing is cut
      rename_i hcut₂
      have hslice₂ := Bool.of_not_eq_true hcut₂
      obtain ⟨huncut₁, rfl⟩ := hv₁.whole hslice₁
      obtain ⟨huncut₂, rfl⟩ := hv₂.whole hslice₂
      simp only [SliceState.endIf, hslice₂, Bool.false_eq_true, if_false] at h
      obtain ⟨rfl, rfl⟩ := Prod.mk.inj (Option.some.inj h)
      refine .of_whole ?_ (fun l hl => (by cases hl)) fun h => hv₂.first (hv₁.first h)
      rw [Statement.noCut, huncut₁, huncut₂, Bool.of_not_eq_true hc]
      rfl

mutual

/-- **Visiting a statement** leaves it, or puts nothing into the first half that is cut. -/
theorem visit_visited : ∀ {s : Statement N O} {st st' : SliceState N O}
    {r : Option (Statement N O)}, s.casesNoCut cut callee → Admits cut callee P s.leaves →
    st.slice = false → visit names cut callee s st = some (r, st') →
    Visited callee P (s.noCut cut callee) (some s) st r st'
  | .simple s, st, st', r, _, _, hslice, h => by
      obtain ⟨rfl, rfl⟩ := Prod.mk.inj (Option.some.inj h)
      cases hcut : s.cuts cut with
      | true => exact .of_cut rfl (fun l hl => (by cases hl)) id
      | false =>
          refine .of_whole ?_ (fun l hl => (by cases hl)) id
          rw [Statement.noCut, hcut]
          rfl
  | .apply c args, st, st', r, _, hP, hslice, h => by
      rw [visit] at h
      split at h
      · rename_i hc
        obtain ⟨rfl, rfl⟩ := Prod.mk.inj (Option.some.inj h)
        refine .of_whole ?_ (fun l hl => (by cases hl)) id
        rw [Statement.noCut, hc]
        rfl
      · rename_i sp hc
        obtain ⟨rfl, rfl⟩ := Prod.mk.inj (Option.some.inj h)
        refine .of_cut rfl (fun l hl => (by cases hl)) fun h => ⟨fun half hhalf => ?_, ?_⟩
        · obtain rfl := Option.some.inj hhalf
          exact List.forall_mem_singleton.mpr (hP.split c args sp (List.mem_singleton_self _) hc)
        · show ∀ sp' ∈ st.splits ++ [sp], _
          rw [List.forall_mem_append, List.forall_mem_singleton]
          exact ⟨h.2, c, hc⟩
  | .block l, _, _, _, hcases, hP, _, h =>
      visitBlock_visited (fun hrun => visitComponents_visited hcases hP rfl hrun) h
  | .ifStatement c t f, st, st', r, hcases, hP, _, h => by
      rw [Statement.casesNoCut, Bool.and_eq_true] at hcases
      have hparts := hP
      rw [Statement.leaves, ← List.singleton_append, Admits.append_iff, Admits.append_iff] at hparts
      exact visitIf_visited hP (fun hs hrun => visit_visited hcases.1 hparts.2.1 hs hrun)
        (fun hs hrun => visitOption_visited hcases.2 hparts.2.2 hs hrun) h
  | .switchStatement t cases, st, st', r, hcases, hP, hslice, h => by
      obtain ⟨st₁, hrun, hsame⟩ : ∃ st₁, visitCases names cut callee cases st
          = some (cases, st₁) ∧ st.Same st₁ := visitCases_same cases hcases hslice
      rw [visit, hrun] at h
      obtain ⟨rfl, rfl⟩ := Prod.mk.inj (Option.some.inj h)
      refine .of_whole hcases (fun l hl => (by cases hl)) fun hfirst => ?_
      rcases hsame with rfl | rfl
      · exact hfirst
      · exact ⟨fun half hhalf => (by cases hhalf), hfirst.2⟩

theorem visitComponents_visited : ∀ {l ret rest : List (Statement N O)} {st st' : SliceState N O},
    casesNoCutOf cut callee l → Admits cut callee P (leavesOf l) → st.slice = false →
    visitComponents names cut callee l st = some (ret, rest, st') →
    (st'.slice = false → noCutOf cut callee l = true ∧ ret = l) ∧
      (st.FirstHas callee P → (∀ u ∈ leavesOf ret, P u) ∧ st'.FirstHas callee P)
  | [], ret, rest, st, st', _, _, _, h => by
      obtain ⟨rfl, hrest⟩ := Prod.mk.inj (Option.some.inj h)
      obtain ⟨rfl, rfl⟩ := Prod.mk.inj hrest
      exact ⟨fun _ => ⟨rfl, rfl⟩, fun h => ⟨fun _ hu => absurd hu List.not_mem_nil, h⟩⟩
  | s :: l, ret, rest, st, st', hcases, hP, hslice, h => by
      rw [casesNoCutOf, Bool.and_eq_true] at hcases
      rw [leavesOf, Admits.append_iff] at hP
      rw [visitComponents] at h
      split at h
      · cases h
      rename_i s' st₁ hrun₁
      have hv := visit_visited hcases.1 hP.1 hslice hrun₁
      split at h
      · rename_i hcut
        split at h
        · rename_i half hhalf
          obtain ⟨rfl, hrest⟩ := Prod.mk.inj (Option.some.inj h)
          obtain ⟨rfl, rfl⟩ := Prod.mk.inj hrest
          refine ⟨fun h => absurd (hcut.symm.trans h) (by decide), fun hfirst =>
            ⟨?_, fun _ h => (by cases h), (hv.first hfirst).2⟩⟩
          rw [leavesOf, leavesOf, List.append_nil]
          exact (hv.first hfirst).1 half hhalf
        · obtain ⟨rfl, hrest⟩ := Prod.mk.inj (Option.some.inj h)
          obtain ⟨rfl, rfl⟩ := Prod.mk.inj hrest
          exact ⟨fun h => absurd (hcut.symm.trans h) (by decide), fun hfirst =>
            ⟨fun _ hu => absurd hu List.not_mem_nil, hv.first hfirst⟩⟩
      · rename_i hcut
        have hslice₁ := Bool.of_not_eq_true hcut
        obtain ⟨huncut, rfl⟩ := hv.whole hslice₁
        split at h
        · cases h
        rename_i ret' rest' st₂ hrun₂
        obtain ⟨rfl, hrest⟩ := Prod.mk.inj (Option.some.inj h)
        obtain ⟨rfl, rfl⟩ := Prod.mk.inj hrest
        obtain ⟨hwhole, hret⟩ := visitComponents_visited hcases.2 hP.2 hslice₁ hrun₂
        refine ⟨fun h => ?_, fun hfirst => ⟨?_, (hret (hv.first hfirst)).2⟩⟩
        · obtain ⟨hl, rfl⟩ := hwhole h
          rw [noCutOf, huncut, hl]
          exact ⟨rfl, rfl⟩
        · show ∀ u ∈ s.leaves ++ leavesOf ret', P u
          rw [List.forall_mem_append]
          exact ⟨fun u hu => hP.1.noCut u hu (Statement.allowed_leaves huncut u hu),
            (hret (hv.first hfirst)).1⟩

theorem visitOption_visited : ∀ {s : Option (Statement N O)} {st st' : SliceState N O}
    {r : Option (Statement N O)}, casesNoCutOfOption cut callee s →
    Admits cut callee P (leavesOfOption s) → st.slice = false →
    visitOption names cut callee s st = some (r, st') →
    Visited callee P (noCutOfOption cut callee s) s st r st'
  | none, st, st', r, _, _, _, h => by
      obtain ⟨rfl, rfl⟩ := Prod.mk.inj (Option.some.inj h)
      exact ⟨fun _ => ⟨rfl, rfl⟩, fun _ l hl => (by cases hl), fun h => h⟩
  | some s, _, _, _, hcases, hP, hslice, h => visit_visited hcases hP hslice h

end

/-- The bodies of actions make no call that is cut. -/
theorem visitLocals_noCut : ∀ {locals : List (Decl N O)} {st st' : SliceState N O},
    (∀ a params body, .action a params body ∈ locals → casesNoCutOf cut callee body) →
    st.slice = false → visitLocals names cut callee locals st = some st' →
    (∀ a params body, .action a params body ∈ locals → noCutOf cut callee body) ∧ st.Same st'
  | [], st, st', _, _, h => by
      obtain rfl := Option.some.inj h
      exact ⟨fun _ _ _ hd => absurd hd List.not_mem_nil, Or.inl rfl⟩
  | .action a params body :: locals, st, st', hcases, hslice, h => by
      rw [visitLocals] at h
      split at h
      · rename_i b st₁ hrun
        have hbody : noCutOf cut callee body := by
          rw [visit] at hrun
          split at hrun
          · cases hrun
          rename_i ret rest st₂ hcomponents
          rw [SliceState.endBlock] at hrun
          split at hrun
          · cases hrun
          · rename_i hcut
            exact ((visitComponents_visited (P := fun _ => True)
              (hcases a params body List.mem_cons_self) ⟨fun _ _ _ => trivial,
                fun _ _ _ _ _ => trivial⟩ rfl hcomponents).1 (Bool.of_not_eq_true hcut)).1
        obtain ⟨st₂, hrun', hsame⟩ : ∃ st₂, visit names cut callee (.block body) st
            = some (some (.block body), st₂) ∧ st.Same st₂ := visit_same (.block body) hbody hslice
        obtain rfl : st₁ = st₂ := (Prod.mk.inj (Option.some.inj (hrun.symm.trans hrun'))).2
        obtain ⟨hrest, hsame'⟩ := visitLocals_noCut (fun a params body hd =>
          hcases a params body (List.mem_cons_of_mem _ hd)) (hsame.slice_eq.trans hslice) h
        refine ⟨fun a' params' body' hd => ?_, hsame.trans hsame'⟩
        rcases List.mem_cons.mp hd with heq | hd
        · obtain ⟨-, -, rfl⟩ := Decl.action.inj heq
          exact hbody
        · exact hrest a' params' body' hd
      · cases h
  | .variable _ _ :: locals, _, _, hcases, hslice, h
  | .table _ _ _ :: locals, _, _, hcases, hslice, h
  | .instance _ _ :: locals, _, _, hcases, hslice, h => by
      obtain ⟨hrest, hsame⟩ := visitLocals_noCut (fun a params body hd =>
        hcases a params body (List.mem_cons_of_mem _ hd)) hslice h
      refine ⟨fun a params body hd => hrest a params body ?_, hsame⟩
      exact (List.mem_cons.mp hd).resolve_left fun heq => by cases heq

end Visited

/-! ## Running statements that do not make such a call -/

section Exec

variable [DecidableEq N] {I : Interp N O E}
  {method : O → List (Val N) → E → List (Val N) × E} {cut : O → Bool} {good : N → Prop}
  {ctrls ctrls' acts : N → Option (Callee N E)} {keys : N → List (Expr N O)}

omit [DecidableEq N] in
theorem Condition.test_withMethod (hm : ∀ f, cut f = false → method f = I.method f)
    (σ : Frame N) (e : E) : ∀ {c : Condition N O}, c.stmt.Allowed cut good →
    c.test (I.withMethod method) keys σ e = c.test I keys σ e
  | .expr r, _ => by
      rw [Condition.test, Condition.test, eval_withMethod]
      rfl
  | .hit t, _ => by
      rw [Condition.test, Condition.test, map_eval_withMethod]
      rfl
  | .method f ins, h => by
      have hf : (I.withMethod method).method f = I.method f := hm f h
      rw [Condition.test, Condition.test, map_eval_withMethod, hf]
      rfl

mutual

theorem Statement.exec_withMethod (hm : ∀ f, cut f = false → method f = I.method f)
    (hctrls : ∀ k, good k → ctrls' k = ctrls k) : ∀ s : Statement N O,
    (∀ t ∈ s.leaves, t.Allowed cut good) →
    s.exec (I.withMethod method) ctrls' acts keys = s.exec I ctrls acts keys
  | .simple s, h | .apply c args, h =>
      CopyInCopyOut.exec_withMethod hm hctrls (h _ (List.mem_singleton_self _))
  | .block l, h => execOf_withMethod hm hctrls l h
  | .ifStatement c t f, h => by
      rw [Statement.leaves, List.forall_mem_cons, List.forall_mem_append] at h
      obtain ⟨hc, ht, hf⟩ := h
      ext σ e σ' e'
      simp only [Statement.exec, CopyInCopyOut.exec_withMethod hm hctrls hc,
        Statement.exec_withMethod hm hctrls t ht, execOfOption_withMethod hm hctrls f hf,
        Condition.test_withMethod hm σ e hc]
  | .switchStatement t cases, h => by
      rw [Statement.leaves, List.forall_mem_cons] at h
      have hrun : ∀ σ, actionRun (I.withMethod method) keys σ t = actionRun I keys σ t :=
        fun σ => by
          rw [actionRun, actionRun, map_eval_withMethod]
          rfl
      ext σ e σ' e'
      simp only [Statement.exec, CopyInCopyOut.exec_withMethod hm hctrls h.1, hrun,
        execOfCases_withMethod hm hctrls _ cases h.2]

theorem execOf_withMethod (hm : ∀ f, cut f = false → method f = I.method f)
    (hctrls : ∀ k, good k → ctrls' k = ctrls k) : ∀ l : List (Statement N O),
    (∀ t ∈ leavesOf l, t.Allowed cut good) →
    execOf (I.withMethod method) ctrls' acts keys l = execOf I ctrls acts keys l
  | [], _ => rfl
  | s :: l, h => by
      rw [leavesOf, List.forall_mem_append] at h
      ext σ e σ' e'
      simp only [execOf, Statement.exec_withMethod hm hctrls s h.1,
        execOf_withMethod hm hctrls l h.2]

theorem execOfOption_withMethod (hm : ∀ f, cut f = false → method f = I.method f)
    (hctrls : ∀ k, good k → ctrls' k = ctrls k) : ∀ s : Option (Statement N O),
    (∀ t ∈ leavesOfOption s, t.Allowed cut good) →
    execOfOption (I.withMethod method) ctrls' acts keys s = execOfOption I ctrls acts keys s
  | none, _ => rfl
  | some s, h => Statement.exec_withMethod hm hctrls s h

theorem execOfCases_withMethod (hm : ∀ f, cut f = false → method f = I.method f)
    (hctrls : ∀ k, good k → ctrls' k = ctrls k) (a : Option N) :
    ∀ cases : List (Option N × Option (Statement N O)),
    (∀ t ∈ leavesOfCases cases, t.Allowed cut good) →
    execOfCases (I.withMethod method) ctrls' acts keys a cases
      = execOfCases I ctrls acts keys a cases
  | [], _ => rfl
  | (l, some s) :: cases, h => by
      rw [leavesOfCases, List.forall_mem_append] at h
      rw [execOfCases, execOfCases, Statement.exec_withMethod hm hctrls s h.1,
        execOfCases_withMethod hm hctrls a cases h.2]
  | (l, none) :: cases, h => by
      rw [leavesOfCases, List.forall_mem_append] at h
      rw [execOfCases, execOfCases, execFrom_withMethod hm hctrls cases h.2,
        execOfCases_withMethod hm hctrls a cases h.2]

theorem execFrom_withMethod (hm : ∀ f, cut f = false → method f = I.method f)
    (hctrls : ∀ k, good k → ctrls' k = ctrls k) :
    ∀ cases : List (Option N × Option (Statement N O)),
    (∀ t ∈ leavesOfCases cases, t.Allowed cut good) →
    execFrom (I.withMethod method) ctrls' acts keys cases = execFrom I ctrls acts keys cases
  | [], _ => rfl
  | (l, some s) :: cases, h => by
      rw [leavesOfCases, List.forall_mem_append] at h
      exact Statement.exec_withMethod hm hctrls s h.1
  | (l, none) :: cases, h => by
      rw [leavesOfCases, List.forall_mem_append] at h
      exact execFrom_withMethod hm hctrls cases h.2

end

/-- A control that does not make a call does not depend on it. -/
theorem Control.callee_withMethod (hm : ∀ f, cut f = false → method f = I.method f)
    {c : Control N O} {program program' : N → Option (Callee N E)}
    (hbody : ∀ t ∈ leavesOf c.body, t.Allowed cut fun k => ∀ k' type,
      getDeclaration c.controlLocals k = some (.instance k' type) → program' type = program type)
    (hacts : ∀ a params body, .action a params body ∈ c.controlLocals → ∀ t ∈ leavesOf body,
      t.Allowed cut fun _ => True) :
    c.callee (I.withMethod method) program' = c.callee I program := by
  have hctrls : ∀ k, (∀ k' type, getDeclaration c.controlLocals k = some (.instance k' type) →
      program' type = program type) →
      ctrlsOf program' c.controlLocals k = ctrlsOf program c.controlLocals k := by
    intro k hk
    rw [ctrlsOf, ctrlsOf]
    split
    · rename_i k' type hd
      exact hk k' type hd
    · rfl
  have hactsOf : actsOf (I.withMethod method) c.controlLocals = actsOf I c.controlLocals := by
    funext a
    rw [actsOf, actsOf]
    split
    · rename_i a' params body hd
      have hrun : execOf (I.withMethod method) (fun _ => none) (fun _ => none) (fun _ => []) body
          = execOf I (fun _ => none) (fun _ => none) (fun _ => []) body :=
        execOf_withMethod hm (fun _ _ => rfl) body
          (hacts a' params body (mem_of_getDeclaration hd).1)
      rw [hrun]
    · rfl
  have hrun : runIn (I.withMethod method) program' c.controlLocals c.body
      = runIn I program c.controlLocals c.body := by
    rw [runIn, runIn, hactsOf]
    exact execOf_withMethod hm hctrls c.body hbody
  rw [Control.callee, Control.callee, hrun]

end Exec

/-! ## The first half of a control -/

section First

variable [DecidableEq N] {names : SliceNames N O} {cut : O → Bool}
  {callee : N → Option (ApplySplit N)} {c : Control N O}

/-- No call at which a control is to be cut stands in a case, and what is applied is declared. -/
structure Control.CasesNoCut (cut : O → Bool) (callee : N → Option (ApplySplit N))
    (c : Control N O) : Prop where
  body : casesNoCutOf cut callee c.body
  actions : ∀ a params body, .action a params body ∈ c.controlLocals →
    casesNoCutOf cut callee body
  declared : ∀ k, .control k ∈ namesOf c.body → k ∈ c.controlLocals.map Decl.name

/-- A control makes no call that is cut. -/
def Control.NoCut (cut : O → Bool) (callee : N → Option (ApplySplit N)) (c : Control N O) : Prop :=
  noCutOf cut callee c.body ∧
    ∀ a params body, .action a params body ∈ c.controlLocals → noCutOf cut callee body

omit [DecidableEq N] in
/-- What the traversal of a control leaves. -/
theorem Control.traverse_cases (hcases : c.CasesNoCut cut callee) (hpacket : c.csaPacket = false)
    {s : Option (Slice N O)} (h : c.traverse names cut callee = some s) :
    (∀ a params body, .action a params body ∈ c.controlLocals → noCutOf cut callee body) ∧
    ∃ r st', visit names cut callee (.block c.body) .initial = some (r, st') ∧
      s = if st'.slice then
          some ⟨componentsOf st'.slicedHalf, st'.newStmtVec,
            c.controlLocals ++ st'.splits.flatMap ApplySplit.decls, st'.newFieldsInfo⟩
        else none := by
  rw [Control.traverse, hpacket, if_neg Bool.false_ne_true] at h
  split at h
  · cases h
  rename_i st hlocals
  obtain ⟨hacts, hsame⟩ := visitLocals_noCut hcases.actions rfl hlocals
  obtain rfl := hsame.eq rfl
  split at h
  · cases h
  rename_i r st' hrun
  exact ⟨hacts, r, st', hrun, (Option.some.inj h).symm⟩

omit [DecidableEq N] in
theorem Control.csaPacket_of_traverse {s : Slice N O}
    (h : c.traverse names cut callee = some (some s)) : c.csaPacket = false := by
  rw [Control.traverse] at h
  split at h
  · cases h
  · rename_i hpacket
    exact Bool.of_not_eq_true hpacket

omit [DecidableEq N] in
theorem SliceState.firstHas_initial {P : Stmt N O → Prop} :
    SliceState.FirstHas callee P (SliceState.initial : SliceState N O) :=
  ⟨fun _ h => (by cases h), fun _ h => absurd h List.not_mem_nil⟩

omit [DecidableEq N] in
theorem admits_trivial {leaves : List (Stmt N O)} : Admits cut callee (fun _ => True) leaves :=
  ⟨fun _ _ _ => trivial, fun _ _ _ _ _ => trivial⟩

/-- **A control that is not cut makes no call that is.** -/
theorem Control.noCut_of_slice (hcases : c.CasesNoCut cut callee)
    (h : c.slice names cut callee = some none) : c.csaPacket = true ∨ c.NoCut cut callee := by
  rw [Control.slice] at h
  split at h
  · cases h
  · rename_i htraverse
    refine or_iff_not_imp_left.mpr fun hpacket => ?_
    obtain ⟨hacts, r, st', hrun, hs⟩ :=
      Control.traverse_cases hcases (Bool.of_not_eq_true hpacket) htraverse
    have hv := visit_visited (s := .block c.body) hcases.body admits_trivial rfl hrun
    split at hs
    · cases hs
    · rename_i hcut
      exact ⟨(hv.whole (Bool.of_not_eq_true hcut)).1, hacts⟩
  · obtain ⟨r, -, hr⟩ := Option.map_eq_some_iff.mp h
    cases hr

/-- The names for different splits are different, and new. -/
structure Control.NewSplits (callee : N → Option (ApplySplit N)) (c : Control N O) : Prop where
  nodup : ∀ k sp, callee k = some sp → sp.newNames.Nodup
  fresh : ∀ k sp, callee k = some sp → ∀ x ∈ sp.newNames, x ∉ c.controlLocals.map Decl.name
  apart : ∀ k sp k' sp', callee k = some sp → callee k' = some sp' →
    ∀ x ∈ sp.newNames, x ∈ sp'.newNames → sp.newNames = sp'.newNames ∧ sp.type₁ = sp'.type₁

/-- What is declared for splits under the name of the instance of a first half. -/
theorem Control.NewSplits.getDeclaration_first (h : c.NewSplits callee) {k : N}
    {sp : ApplySplit N} (hk : callee k = some sp) {splits : List (ApplySplit N)}
    (hsplits : ∀ sp ∈ splits, ∃ k, callee k = some sp) {k' type : N}
    (hd : getDeclaration (c.controlLocals ++ splits.flatMap ApplySplit.decls) sp.inst₁
      = some (.instance k' type)) : type = sp.type₁ := by
  have hinst : sp.inst₁ ∈ sp.newNames := List.mem_cons_of_mem _ List.mem_cons_self
  rw [getDeclaration_append, getDeclaration_eq_none (h.fresh k sp hk _ hinst),
    Option.none_or] at hd
  obtain ⟨hmem, hname⟩ := mem_of_getDeclaration hd
  obtain ⟨sp', hsp', hd'⟩ := List.mem_flatMap.mp hmem
  obtain ⟨j, hj⟩ := hsplits sp' hsp'
  have hname' : k' = sp.inst₁ := hname
  subst hname'
  have hin : sp.inst₁ ∈ sp'.decls.map (Decl.name (O := O)) := List.mem_map_of_mem hd'
  obtain ⟨hnames, htype⟩ := h.apart k sp j sp' hk hj _ hinst hin
  have hnodup := h.nodup j sp' hj
  have heq : sp.inst₁ = sp'.inst₁ := (List.cons.inj (List.cons.inj hnames).2).1
  have hne : sp'.inst₁ ≠ sp'.inst₂ := fun h =>
    (List.nodup_cons.mp (List.nodup_cons.mp hnodup).2).1 (h ▸ List.mem_singleton_self _)
  rw [htype]
  rcases List.mem_cons.mp hd' with hd' | hd'
  · cases hd'
  rcases List.mem_cons.mp hd' with hd' | hd'
  · exact (Decl.instance.inj hd').2
  · rw [heq] at hd'
    exact absurd (Decl.instance.inj (List.mem_singleton.mp hd')).1 hne

/-- The instances for reading the packet again are none of those that are there. -/
structure Control.NewRecon (callee : N → Option (ApplySplit N)) (c : Control N O)
    (r : ReconCalls N O) : Prop where
  fresh : ∀ x ∈ r.decls.map Decl.name, x ∉ c.controlLocals.map Decl.name
  apart : ∀ x ∈ r.decls.map Decl.name, ∀ k sp, callee k = some sp → x ∉ sp.newNames

/-- The controls that the first half calls are good, if those that are not cut are, the first
halves of the others, and the deparser. -/
structure Control.GoodCalls (names : SliceNames N O) (callee : N → Option (ApplySplit N))
    (c : Control N O) (good : N → Prop) : Prop where
  whole : ∀ k type, getDeclaration c.controlLocals k = some (.instance k type) →
    callee k = none → good type
  first : ∀ k sp, callee k = some sp → good sp.type₁
  deparser : ∀ r, c.reconCalls names = some r → good r.deparser

/-- A statement makes no call that is cut, and applies only instances of good controls. -/
def GoodIn (cut : O → Bool) (locals : List (Decl N O)) (good : N → Prop) (t : Stmt N O) : Prop :=
  t.Allowed cut fun k => ∀ k' type, getDeclaration locals k = some (.instance k' type) → good type

section Good

variable {good : N → Prop}

/-- What a control applies is good among its declarations and others behind them, in which the
first halves are. -/
theorem Control.admits_good (hcases : c.CasesNoCut cut callee)
    (hgood : c.GoodCalls names callee good) {locals : List (Decl N O)}
    (hfirst : ∀ k sp, callee k = some sp → ∀ k' type,
      getDeclaration (c.controlLocals ++ locals) sp.inst₁ = some (.instance k' type) →
      type = sp.type₁) :
    Admits cut callee (GoodIn cut (c.controlLocals ++ locals) good) (leavesOf c.body) := by
  refine ⟨fun t ht hallowed => hallowed.mono fun k hk hnone k' type hd => ?_,
    fun k args sp _ hk k' type hd => ?_⟩
  · have hmem := hcases.declared k (List.mem_flatMap.mpr ⟨t, ht, hk⟩)
    cases hfind : getDeclaration c.controlLocals k with
    | none =>
        obtain ⟨d, hdmem, rfl⟩ := List.mem_map.mp hmem
        have hne := List.find?_eq_none.mp hfind d hdmem
        simp at hne
    | some d =>
        rw [getDeclaration_append, hfind] at hd
        obtain rfl := Option.some.inj hd
        obtain rfl := (mem_of_getDeclaration hfind).2
        exact hgood.whole _ _ hfind hnone
  · rw [hfirst k sp hk k' type hd]
    exact hgood.first k sp hk

omit [DecidableEq N] in
/-- The first half of a body has what its statements have. -/
theorem forall_mem_leavesOf_first {P : Stmt N O → Prop} {st : SliceState N O}
    (h : st.FirstHas callee P) : ∀ t ∈ leavesOf (componentsOf st.slicedHalf), P t := by
  cases hhalf : st.slicedHalf with
  | none => exact fun _ ht => absurd ht List.not_mem_nil
  | some half =>
      cases half with
      | block l => exact h.1 _ hhalf
      | simple | apply | ifStatement | switchStatement =>
          exact fun _ ht => absurd ht List.not_mem_nil

/-- The declarations for reading the packet again hide none of the first halves. -/
theorem Control.NewRecon.getDeclaration_behind {r : ReconCalls N O} (h : c.NewRecon callee r)
    (locals : List (Decl N O)) {k : N} {sp : ApplySplit N} (hk : callee k = some sp) :
    getDeclaration (locals ++ r.decls) sp.inst₁ = getDeclaration locals sp.inst₁ := by
  have hnone : getDeclaration r.decls sp.inst₁ = none := getDeclaration_eq_none fun hmem =>
    h.apart _ hmem k sp hk (List.mem_cons_of_mem _ List.mem_cons_self)
  rw [getDeclaration_append, hnone, Option.or_none]

/-- What is found under the name of the deparser's instance is its declaration. -/
theorem Control.NewRecon.getDeclaration_deparser {r : ReconCalls N O} (h : c.NewRecon callee r)
    {splits : List (ApplySplit N)} (hsplits : ∀ sp ∈ splits, ∃ k, callee k = some sp) :
    getDeclaration (c.controlLocals ++ splits.flatMap ApplySplit.decls ++ r.decls) r.deparserInst
      = some (.instance r.deparserInst r.deparser) := by
  have hmem : r.deparserInst ∈ r.decls.map (Decl.name (O := O)) := List.mem_cons_self
  have hnone : getDeclaration (c.controlLocals ++ splits.flatMap ApplySplit.decls) r.deparserInst
      = none := by
    refine getDeclaration_eq_none fun hin => ?_
    rw [List.map_append, List.mem_append] at hin
    refine hin.elim (h.fresh _ hmem) fun hin => ?_
    obtain ⟨d, hd, hname⟩ := List.mem_map.mp hin
    obtain ⟨sp, hsp, hd⟩ := List.mem_flatMap.mp hd
    obtain ⟨k, hk⟩ := hsplits sp hsp
    exact h.apart _ hmem k sp hk (hname ▸ List.mem_map_of_mem hd)
  rw [getDeclaration_append, hnone, Option.none_or]
  exact List.find?_cons_of_pos (decide_eq_true rfl)

/-- **The body of the first half makes no call that is cut.** -/
theorem Control.part1_good (hcases : c.CasesNoCut cut callee) (hnew : c.NewSplits callee)
    (hrecon : ∀ r, c.reconCalls names = some r → c.NewRecon callee r)
    (hgood : c.GoodCalls names callee good) {s : Slice N O}
    (h : c.traverse names cut callee = some (some s)) :
    ∀ t ∈ leavesOf (s.reconstruct (c.reconCalls names)).part1Body,
      GoodIn cut (s.reconstruct (c.reconCalls names)).controlLocals good t := by
  obtain ⟨-, r, st', hrun, hs⟩ :=
    Control.traverse_cases hcases (Control.csaPacket_of_traverse h) h
  split at hs
  rotate_left
  · cases hs
  obtain rfl := Option.some.inj hs
  have hsplits : ∀ sp ∈ st'.splits, ∃ k, callee k = some sp :=
    ((visit_visited (s := .block c.body) hcases.body admits_trivial rfl hrun).first
      SliceState.firstHas_initial).2
  cases hr : c.reconCalls names with
  | none =>
      have hP := Control.admits_good hcases hgood fun k sp hk k' type hd =>
        hnew.getDeclaration_first hk hsplits hd
      exact forall_mem_leavesOf_first
        ((visit_visited (s := .block c.body) hcases.body hP rfl hrun).first
          SliceState.firstHas_initial)
  | some r =>
      have hnewr := hrecon r hr
      have hP : Admits cut callee (GoodIn cut (c.controlLocals ++
          (st'.splits.flatMap ApplySplit.decls ++ r.decls)) good) (leavesOf c.body) :=
        Control.admits_good hcases hgood fun k sp hk k' type hd => by
          rw [← List.append_assoc, hnewr.getDeclaration_behind _ hk] at hd
          exact hnew.getDeclaration_first hk hsplits hd
      have hbody := forall_mem_leavesOf_first
        ((visit_visited (s := .block c.body) hcases.body hP rfl hrun).first
          SliceState.firstHas_initial)
      rw [← List.append_assoc] at hbody
      show ∀ t ∈ leavesOf (componentsOf st'.slicedHalf ++ [.apply r.deparserInst r.deparserArgs]), _
      rw [leavesOf_append, List.forall_mem_append]
      refine ⟨hbody, List.forall_mem_singleton.mpr fun k' type hd => ?_⟩
      obtain ⟨-, rfl⟩ := Decl.instance.inj
        (Option.some.inj ((hnewr.getDeclaration_deparser hsplits).symm.trans hd))
      exact hgood.deparser r hr

/-- A half makes no call that is cut if its body makes none. -/
theorem Control.half_good {params : List (Param N)} {arg : N} {locals used : List (Decl N O)}
    (shared : List N) {l : List (Statement N O)} (hused : usedDeclarations locals l = some used)
    (hbody : ∀ t ∈ leavesOf l, GoodIn cut locals good t) :
    ∀ t ∈ leavesOf (Control.half params arg shared used l).body,
      GoodIn cut (Control.half params arg shared used l).controlLocals good t := by
  intro t ht
  have ht' : t ∈ leavesOf (underOf (moved shared arg) l) := ht
  rw [leavesOf_under] at ht'
  obtain ⟨u, hu, rfl⟩ := List.mem_map.mp ht'
  refine ((hbody u hu).mono fun k _ hk k' type hd => hk k' type ?_).under _
  have hd' : getDeclaration (halfLocals arg shared used) k = some (.instance k' type) := hd
  rw [Half.getDeclaration_half] at hd'
  split at hd'
  · cases hd'
  obtain ⟨d, hdu, hunder⟩ := Option.map_eq_some_iff.mp hd'
  obtain ⟨hmem, hname⟩ := mem_of_getDeclaration hdu
  rcases d with _ | _ | _ | ⟨j, type'⟩
  · cases hunder
  · cases hunder
  · cases hunder
  · rw [← hunder, ← hname]
    exact (usedDeclarations_spec hused).closed.declared _ hmem

/-- The actions of a half are actions of the slice. -/
theorem Control.half_actions {params : List (Param N)} {arg : N} {locals used : List (Decl N O)}
    {shared : List N} {l : List (Statement N O)} (hused : usedDeclarations locals l = some used)
    (hacts : ∀ a params body, .action a params body ∈ locals → ∀ t ∈ leavesOf body,
      t.Allowed cut fun _ => True) {a : N} {params' : List (Param N)}
    {body : List (Statement N O)}
    (ha : .action a params' body ∈ (Control.half params arg shared used l).controlLocals) :
    ∀ t ∈ leavesOf body, t.Allowed cut fun _ => True := by
  intro t ht
  obtain ⟨d, hdmem, hunder⟩ := List.mem_map.mp ha
  have hmem := (mem_of_getDeclaration ((usedDeclarations_spec hused).closed.declared d
    (List.mem_filter.mp hdmem).1)).1
  rcases d with _ | ⟨a', params', body'⟩ | _ | _
  · cases hunder
  · obtain ⟨-, -, rfl⟩ := Decl.action.inj hunder
    rw [leavesOf_under] at ht
    obtain ⟨u, hu, rfl⟩ := List.mem_map.mp ht
    exact (hacts a' params' body' hmem u hu).under _
  · cases hunder
  · cases hunder

omit [DecidableEq N] in
/-- No action is declared for the calls that are made. -/
theorem Control.actions_of_traverse (hcases : c.CasesNoCut cut callee) {s : Slice N O}
    (h : c.traverse names cut callee = some (some s)) (r : Option (ReconCalls N O)) :
    ∀ a params body, .action a params body ∈ (s.reconstruct r).controlLocals →
      ∀ t ∈ leavesOf body, t.Allowed cut fun _ => True := by
  intro a params body ha t ht
  obtain ⟨hacts, -, st', -, hs⟩ :=
    Control.traverse_cases hcases (Control.csaPacket_of_traverse h) h
  split at hs
  rotate_left
  · cases hs
  obtain rfl := Option.some.inj hs
  have hlocal : .action a params body ∈ c.controlLocals := by
    have hsplit : .action a params body ∉ st'.splits.flatMap (ApplySplit.decls (O := O)) := by
      intro hmem
      obtain ⟨sp, -, hsp⟩ := List.mem_flatMap.mp hmem
      simp [ApplySplit.decls] at hsp
    cases r with
    | none => exact (List.mem_append.mp ha).resolve_right hsplit
    | some r =>
        refine (List.mem_append.mp ((List.mem_append.mp ha).resolve_right ?_)).resolve_right hsplit
        simp [ReconCalls.decls]
  exact (allowed_leavesOf (hacts a params body hlocal) t ht).mono fun _ _ _ => trivial

/-- **The first half of a control makes no call that is cut**, and calls the first halves of the
controls that are cut. -/
theorem Control.first_allowed (hcases : c.CasesNoCut cut callee) (hnew : c.NewSplits callee)
    (hrecon : ∀ r, c.reconCalls names = some r → c.NewRecon callee r)
    (hgood : c.GoodCalls names callee good) {h₁ h₂ : Control N O} {fields : List (N × Shape N)}
    (h : c.slice names cut callee = some (some (h₁, h₂, fields))) :
    (∀ t ∈ leavesOf h₁.body, GoodIn cut h₁.controlLocals good t) ∧
    ∀ a params body, .action a params body ∈ h₁.controlLocals → ∀ t ∈ leavesOf body,
      t.Allowed cut fun _ => True := by
  rw [Control.slice] at h
  split at h
  · cases h
  · cases h
  rename_i s htraverse
  obtain ⟨r, hcreate, hr⟩ := Option.map_eq_some_iff.mp h
  obtain rfl := Option.some.inj hr
  obtain ⟨used₁, used₂, shared, hc⟩ := exists_creates hcreate
  obtain rfl := hc.half₁
  exact ⟨Control.half_good shared hc.uses₁ (Control.part1_good hcases hnew hrecon hgood htraverse),
    fun a params body ha => Control.half_actions hc.uses₁
      (Control.actions_of_traverse hcases htraverse _) ha⟩

end Good

end First

/-! ## Programs -/

section Programs

variable [DecidableEq N] (names : ProgramNames N O) (partitionState : ControlConstraintStates)

/-- What the caller of a control declares. -/
def ProgramNames.newNames (n : N) : List N :=
  [names.sharedStructVarName n, names.instName (names.uniqueControlName n 0),
    names.instName (names.uniqueControlName n 1)]

/-- The compiler does not stop at a control, and no call at which it is to be cut stands in a case.
What the traversal skips, the controls of parsers and deparsers, does not make such a call, and
the deparser whose call ends the first half of a converted package is one of them. -/
structure Passes (program : Program N O) (n : N) (c : Control N O) : Prop where
  declared : ∀ k type, .instance k type ∈ c.controlLocals → type ∈ program.map Prod.fst
  passes : c.slice (names.slice n) (names.cut partitionState)
    (calleeOf names (slices names partitionState program) c.controlLocals) ≠ none
  cases : c.CasesNoCut (names.cut partitionState)
    (calleeOf names (slices names partitionState program) c.controlLocals)
  packet : c.csaPacket = true →
    c.NoCut (names.cut partitionState)
      (calleeOf names (slices names partitionState program) c.controlLocals)
  recon : ∀ r, c.reconCalls (names.slice n) = some r →
    ∃ d, (r.deparser, d) ∈ program ∧ d.csaPacket = true
  fresh : ∀ m ∈ program.map Prod.fst, ∀ x ∈ names.newNames m,
    x ∉ c.controlLocals.map Decl.name
  freshRecon : ∀ r, c.reconCalls (names.slice n) = some r → ∀ x ∈ r.decls.map Decl.name,
    x ∉ c.controlLocals.map Decl.name ∧ ∀ m ∈ program.map Prod.fst, x ∉ names.newNames m

/-- All controls of a program. -/
def AllPass : Program N O → Prop
  | [] => True
  | (n, c) :: program => Passes names partitionState program n c ∧ AllPass program

/-- The names that are made for different controls are different. -/
structure NewNamesApart (program : Program N O) : Prop where
  nodup : ∀ n ∈ program.map Prod.fst, (names.newNames n).Nodup
  apart : ∀ n ∈ program.map Prod.fst, ∀ m ∈ program.map Prod.fst, ∀ x ∈ names.newNames n,
    x ∈ names.newNames m → n = m

variable {names partitionState}

/-- An instance that is split has a control that is cut. -/
theorem exists_of_calleeOf {slices : N → Option (ControlHalves N O)} {locals : List (Decl N O)}
    {k : N} {sp : ApplySplit N} (h : calleeOf names slices locals k = some sp) :
    ∃ type halves, .instance k type ∈ locals ∧ slices type = some halves ∧
      sp = names.applySplit type halves.2.2 := by
  rw [calleeOf] at h
  split at h
  · rename_i k' type hd
    obtain ⟨halves, hslice, rfl⟩ := Option.map_eq_some_iff.mp h
    obtain ⟨hmem, hname⟩ := mem_of_getDeclaration hd
    have hname' : k' = k := hname
    exact ⟨type, halves, hname' ▸ hmem, hslice, rfl⟩
  · cases h

theorem Passes.newSplits {program : Program N O} {n : N} {c : Control N O}
    (h : Passes names partitionState program n c) (hnames : NewNamesApart names program) :
    c.NewSplits (calleeOf names (slices names partitionState program) c.controlLocals) where
  nodup := fun k sp hk => by
    obtain ⟨type, halves, hd, -, rfl⟩ := exists_of_calleeOf hk
    exact hnames.nodup type (h.declared k type hd)
  fresh := fun k sp hk => by
    obtain ⟨type, halves, hd, -, rfl⟩ := exists_of_calleeOf hk
    exact h.fresh type (h.declared k type hd)
  apart := fun k sp k' sp' hk hk' x hx hx' => by
    obtain ⟨type, halves, hd, -, rfl⟩ := exists_of_calleeOf hk
    obtain ⟨type', halves', hd', -, rfl⟩ := exists_of_calleeOf hk'
    obtain rfl := hnames.apart type (h.declared k type hd) type' (h.declared k' type' hd') x hx hx'
    exact ⟨rfl, rfl⟩

theorem Passes.newRecon {program : Program N O} {n : N} {c : Control N O}
    (h : Passes names partitionState program n c) {r : ReconCalls N O}
    (hr : c.reconCalls (names.slice n) = some r) :
    c.NewRecon (calleeOf names (slices names partitionState program) c.controlLocals) r where
  fresh := fun x hx => (h.freshRecon r hr x hx).1
  apart := fun x hx k sp hk => by
    obtain ⟨type, halves, hd, -, rfl⟩ := exists_of_calleeOf hk
    exact (h.freshRecon r hr x hx).2 type (h.declared k type hd)

/-- What the traversal skips is not cut. -/
theorem slices_of_csaPacket {program : Program N O} (hnodup : (program.map Prod.fst).Nodup) {n : N}
    {c : Control N O} (hmem : (n, c) ∈ program) (hpacket : c.csaPacket = true) :
    slices names partitionState program n = none := by
  induction program with
  | nil => exact absurd hmem List.not_mem_nil
  | cons entry program ih =>
      obtain ⟨hnew, hnodup⟩ := List.nodup_cons.mp hnodup
      rcases List.mem_cons.mp hmem with rfl | hmem
      · rw [slices, if_pos rfl, Control.slice, Control.traverse, if_pos hpacket]
        rfl
      · have hne : n ≠ entry.1 := fun heq => hnew (heq ▸ List.mem_map_of_mem hmem)
        rw [slices, if_neg hne]
        exact ih hnodup hmem

/-- What becomes of a control of a program where it must not make some calls: its first half, if
it is cut. -/
def firstName (names : ProgramNames N O) (partitionState : ControlConstraintStates)
    (program : Program N O) (n : N) : N :=
  match slices names partitionState program n with
  | none => n
  | some _ => names.uniqueControlName n 0

variable {I : Interp N O E} {method : O → List (Val N) → E → List (Val N) × E}

/-- The name of what a control becomes is new for the controls in front of it. -/
theorem firstName_ne {n : N} {c : Control N O} {program : Program N O}
    (hd : Distinct names ((n, c) :: program)) {m : N} (hm : m ∈ program.map Prod.fst)
    (hmn : m ≠ n) : firstName names partitionState program m ≠ n ∧
      ∀ i, firstName names partitionState program m ≠ names.uniqueControlName n i := by
  have hm' : m ∈ ((n, c) :: program).map Prod.fst := List.mem_cons_of_mem _ hm
  rw [firstName]
  split
  · exact ⟨hmn, fun i heq => hd.half n List.mem_cons_self i (heq ▸ hm')⟩
  · refine ⟨fun heq => hd.half m hm' 0 (heq ▸ List.mem_cons_self), fun i heq => ?_⟩
    exact hmn (hd.inj m hm' n List.mem_cons_self 0 i heq).1

/-- What a control calls does the same, if this holds of what the controls behind it become. -/
theorem Passes.goodCalls {program : Program N O} {n : N} {c : Control N O}
    (hc : Passes names partitionState program n c) (hnodup : (program.map Prod.fst).Nodup)
    {good : N → Prop}
    (hgood : ∀ m ∈ program.map Prod.fst, good (firstName names partitionState program m)) :
    c.GoodCalls (names.slice n)
      (calleeOf names (slices names partitionState program) c.controlLocals) good where
  whole := fun k type hdecl hk => by
    rw [calleeOf, hdecl, Option.map_eq_none_iff] at hk
    have htype := hgood type (hc.declared k type (mem_of_getDeclaration hdecl).1)
    rwa [firstName, hk] at htype
  first := fun k sp hk => by
    obtain ⟨type, halves, hdecl, hslice, rfl⟩ := exists_of_calleeOf hk
    have htype := hgood type (hc.declared k type hdecl)
    rwa [firstName, hslice] at htype
  deparser := fun r hr => by
    obtain ⟨d, hmem, hpacket⟩ := hc.recon r hr
    have hdeparser := hgood r.deparser (List.mem_map_of_mem hmem)
    rwa [firstName, slices_of_csaPacket hnodup hmem hpacket] at hdeparser

/-- **The first half of a control, at any depth, makes no call that is cut**, and neither does a
control that is not cut: they do the same, whatever these calls do. -/
theorem slicedCallees_first (hm : ∀ f, names.cut partitionState f = false → method f = I.method f) :
    ∀ {program : Program N O}, Distinct names program → NewNamesApart names program →
    AllPass names partitionState program → ∀ n ∈ program.map Prod.fst,
    slicedCallees names partitionState (I.withMethod method) program
        (firstName names partitionState program n)
      = slicedCallees names partitionState I program (firstName names partitionState program n)
  | [], _, _, _, _, hn => absurd hn List.not_mem_nil
  | (n, c) :: program, hd, hnames, ⟨hc, hrest⟩, m, hm' => by
      have hnames' : NewNamesApart names program :=
        ⟨fun k hk => hnames.nodup k (List.mem_cons_of_mem _ hk), fun k hk j hj =>
          hnames.apart k (List.mem_cons_of_mem _ hk) j (List.mem_cons_of_mem _ hj)⟩
      have ih := slicedCallees_first hm hd.tail hnames' hrest
      have hgood : c.GoodCalls (names.slice n)
          (calleeOf names (slices names partitionState program) c.controlLocals) fun type =>
            slicedCallees names partitionState (I.withMethod method) program type
              = slicedCallees names partitionState I program type :=
        hc.goodCalls hd.tail.nodup ih
      by_cases hmn : m = n
      · subst hmn
        have hslices : slices names partitionState ((m, c) :: program) m
            = (c.slice (names.slice m) (names.cut partitionState)
              (calleeOf names (slices names partitionState program) c.controlLocals)).join :=
          if_pos rfl
        cases hslice : c.slice (names.slice m) (names.cut partitionState)
            (calleeOf names (slices names partitionState program) c.controlLocals) with
        | none => exact absurd hslice hc.passes
        | some halves =>
            rw [hslice] at hslices
            cases halves with
            | none =>
                have hnone : slices names partitionState ((m, c) :: program) m = none := hslices
                have hnoCut := (Control.noCut_of_slice hc.cases hslice).elim hc.packet id
                rw [firstName, hnone, slicedCallees, slicedCallees, hnone]
                dsimp only
                rw [if_pos rfl, if_pos rfl]
                refine congrArg some (Control.callee_withMethod hm (fun t ht => ?_)
                  fun a params body ha t ht => ?_)
                · refine (allowed_leavesOf hnoCut.1 t ht).mono fun k _ hk k' type hdecl => ?_
                  obtain rfl := (mem_of_getDeclaration hdecl).2
                  exact hgood.whole _ type hdecl hk
                · exact (allowed_leavesOf (hnoCut.2 a params body ha) t ht).mono
                    fun _ _ _ => trivial
            | some halves =>
                obtain ⟨h₁, h₂, fields⟩ := halves
                have hsome : slices names partitionState ((m, c) :: program) m
                    = some (h₁, h₂, fields) := hslices
                obtain ⟨hbody, hacts⟩ := Control.first_allowed hc.cases (hc.newSplits hnames')
                  (fun r hr => hc.newRecon hr) hgood hslice
                rw [firstName, hsome, slicedCallees, slicedCallees, hsome]
                dsimp only
                rw [if_pos rfl, if_pos rfl, Control.callee_withMethod hm hbody hacts]
      · have hmem := (List.mem_cons.mp hm').resolve_left hmn
        have hname : firstName names partitionState ((n, c) :: program) m
            = firstName names partitionState program m := by
          rw [firstName, firstName, slices, if_neg hmn]
        obtain ⟨hne, hhalf⟩ := firstName_ne hd hmem hmn
        rw [hname, slicedCallees_cons hne hhalf, slicedCallees_cons hne hhalf]
        exact ih m hmem

end Programs

/-! ### A converted package around the control that calls another one -/

/-- The converted deparser. -/
def deparserControl : Control ℕ ℕ where
  params := [⟨60, .inout⟩]
  csaPacket := true
  controlLocals := []
  body := []

/-- A converted package, for which the packet is read again. -/
def packageCaller : Control ℕ ℕ where
  params := [⟨40, .inout⟩]
  csaPacket := false
  controlLocals := [.variable 30 .any, .instance 41 2]
  body := [.apply 41 [⟨none, .place (.ofVar 40)⟩]]

def packageProgram : Program ℕ ℕ := (4, packageCaller) :: (3, deparserControl) :: readerProgram

theorem passes_reader : Passes readerNames .rwImR [] 1 reader where
  declared := by simp [reader]
  passes := Option.isSome_iff_ne_none.mp (by decide)
  cases := ⟨by decide, by simp [reader], by
    simp [reader, namesOf, leavesOf, Statement.leaves, Simple.stmt, Stmt.names, Expr.names]⟩
  packet := by simp [reader]
  recon := fun r hr => by cases hr
  fresh := by simp
  freshRecon := fun r hr => by cases hr

theorem passes_readerCaller : Passes readerNames .rwImR [(1, reader)] 2 readerCaller where
  declared := by simp [readerCaller]
  passes := Option.isSome_iff_ne_none.mp (by decide)
  cases := ⟨by decide, by simp [readerCaller], by
    simp [readerCaller, namesOf, leavesOf, Statement.leaves, Stmt.names, argNames, Expr.names,
      Decl.name]⟩
  packet := by simp [readerCaller]
  recon := fun r hr => by cases hr
  fresh := by decide
  freshRecon := fun r hr => by cases hr

theorem passes_deparserControl : Passes readerNames .rwImR readerProgram 3 deparserControl where
  declared := by simp [deparserControl]
  passes := Option.isSome_iff_ne_none.mp (by decide)
  cases := ⟨by decide, by simp [deparserControl], by simp [deparserControl, namesOf, leavesOf]⟩
  packet := fun _ => ⟨by decide, by simp [deparserControl]⟩
  recon := fun r hr => by cases hr
  fresh := by decide
  freshRecon := fun r hr => by cases hr

theorem passes_packageCaller :
    Passes readerNames .rwImR ((3, deparserControl) :: readerProgram) 4 packageCaller where
  declared := by simp [packageCaller, readerProgram]
  passes := Option.isSome_iff_ne_none.mp (by decide)
  cases := ⟨by decide, by simp [packageCaller], by
    simp [packageCaller, namesOf, leavesOf, Statement.leaves, Stmt.names, argNames, Expr.names,
      Decl.name]⟩
  packet := by simp [packageCaller]
  recon := fun r hr => by
    obtain rfl := Option.some.inj hr
    exact ⟨deparserControl, List.mem_cons_self, rfl⟩
  fresh := by decide
  freshRecon := fun r hr => by
    obtain rfl := Option.some.inj hr
    decide

/-- Another reading, which the first half of the package does not make. -/
theorem slicedCallees_first_packageProgram :
    slicedCallees readerNames .rwImR (readerInterp.withMethod fun f ins e =>
        if f = 7 then ([], e) else readerInterp.method f ins e) packageProgram 304
      = slicedCallees readerNames .rwImR readerInterp packageProgram 304 := by
  have hapart : NewNamesApart readerNames packageProgram := ⟨by decide, by decide⟩
  have hname : firstName readerNames .rwImR packageProgram 4 = 304 := by decide
  rw [← hname]
  refine slicedCallees_first (fun f hf => ?_) (distinct_readerNames (by decide) (by decide)) hapart
    ⟨passes_packageCaller, passes_deparserControl, passes_readerCaller, passes_reader, trivial⟩ 4
    (by decide)
  have hne : f ≠ 7 := by
    rintro rfl
    exact absurd hf (by decide)
  simp only [if_neg hne]

end Partitioning
end MicroP4
