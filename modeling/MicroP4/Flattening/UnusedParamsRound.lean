import MicroP4.Flattening.UnusedApplyParams

/-!
# What one round does to a program

As long as no parameter of an action is removed, a round of `RemoveUnusedApplyParams` leaves
every control its used parameters and every call the arguments for these
(`removeUnusedApplyParams_eq`).  The positions that are remembered in the map are then those of
the unused parameters of the control, and each call finds them, since the control it applies
is declared in front of it.

A round can go wrong in two other ways, which are also about single calls.  Positions say
nothing about arguments that are given by name in another order; and an argument that is
read and assigned back without a change still hides what another parameter assigned to it.
-/

namespace MicroP4
namespace Flattening

open CopyInCopyOut

variable {N O : Type} [DecidableEq N] [DecidableEq O]

/-! ## Programs that are well typed -/

/-- A program as the type checker accepts it, with controls declared before they are applied. -/
structure WellTyped (P : Program N O) : Prop where
  names : (P.map Control.name).Nodup
  params : ∀ C ∈ P, (C.params.map Param.name).Nodup
  actionParams : ∀ C ∈ P, ∀ a ∈ C.actions, (a.params.map Param.name).Nodup
  actionCalls : ∀ C ∈ P, ∀ a ∈ C.actions, a.body.calls = []
  declared : ∀ pre C post, P = pre ++ C :: post → ∀ call ∈ C.calls, ∃ D ∈ pre, D.name = call.1
  arity : ArityOk P

/-! ## The condition -/

/-- The parameters a round keeps. -/
def keeps (skipDecl : List N) (C : Control N O) (p : Param N) : Bool :=
  C.name ∈ skipDecl || p.name ∈ C.refs

/-- A round takes away parameters of controls only, and the calls of these can spare them.  No
parameter of an action is unused or has the name of an unused parameter of the control.  Where a
call loses arguments, named ones stand in the order of the parameters, and nothing is assigned
back to a place of an argument that is lost before that argument would be. -/
structure RoundSafe (skipDecl : List N) (P : Program N O) : Prop where
  actionParams : ∀ C ∈ P, C.name ∉ skipDecl → ∀ a ∈ C.actions, ∀ q ∈ a.params,
    q.name ∈ a.body.refs ∧ ∀ p ∈ C.params, p.name = q.name → p.name ∈ C.refs
  inOrder : ∀ C ∈ P, ∀ call ∈ C.calls, ∀ D ∈ P, D.name = call.1 →
    (∃ p ∈ D.params, keeps skipDecl D p = false) → InOrder D.params call.2
  spared : ∀ C ∈ P, ∀ call ∈ C.calls, ∀ D ∈ P, D.name = call.1 →
    SparesDropped (keeps skipDecl D) (bindings D.params call.2)

/-! ## Positions -/

section Positions

variable {α β : Type}

theorem le_of_mem_locations {p : α → Bool} {i : ℕ} : ∀ {l : List α} {s : ℕ},
    i ∈ locations p s l → s ≤ i
  | [], _, h => absurd h List.not_mem_nil
  | a :: l, s, h => by
      rw [locations] at h
      split at h
      · rcases List.mem_cons.mp h with rfl | h
        · exact Nat.le_refl _
        · exact Nat.le_of_succ_le (le_of_mem_locations h)
      · exact Nat.le_of_succ_le (le_of_mem_locations h)

theorem deleteFrom_congr {locs locs' : List ℕ} : ∀ {l : List β} {s : ℕ},
    (∀ i, s ≤ i → (i ∈ locs ↔ i ∈ locs')) → deleteFrom locs s l = deleteFrom locs' s l
  | [], _, _ => rfl
  | b :: l, s, h => by
      have ih := deleteFrom_congr (l := l) fun i hi => h i (Nat.le_of_succ_le hi)
      rw [deleteFrom, deleteFrom, ih]
      simp only [h s (Nat.le_refl s)]

theorem deleteFrom_nil : ∀ (l : List β) (s : ℕ), deleteFrom [] s l = l
  | [], _ => rfl
  | b :: l, s => by
      rw [deleteFrom, if_neg List.not_mem_nil, deleteFrom_nil l]

theorem deleteFrom_subset {locs : List ℕ} : ∀ (l : List β) (s : ℕ), deleteFrom locs s l ⊆ l
  | [], _ => List.Subset.refl _
  | b :: l, s => by
      rw [deleteFrom]
      split
      · exact fun x hx => List.mem_cons_of_mem _ (deleteFrom_subset l (s + 1) hx)
      · exact List.cons_subset_cons b (deleteFrom_subset l (s + 1))

/-- Going on behind the first position. -/
theorem deleteFrom_locations_cons (p : α → Bool) (a : α) (l : List α) (b : β) (l' : List β)
    (s : ℕ) : deleteFrom (locations p s (a :: l)) s (b :: l') =
      if p a then deleteFrom (locations p (s + 1) l) (s + 1) l'
      else b :: deleteFrom (locations p (s + 1) l) (s + 1) l' := by
  rw [deleteFrom, locations]
  by_cases ha : p a = true
  · rw [if_pos ha, if_pos ha, if_pos List.mem_cons_self]
    refine deleteFrom_congr fun i hi => ?_
    rw [List.mem_cons]
    exact ⟨fun h => h.resolve_left (by omega), Or.inr⟩
  · rw [if_neg ha, if_neg ha, if_neg]
    intro hs
    have hle := le_of_mem_locations hs
    omega

/-- Deleting at the positions of some elements keeps what stands with the others. -/
theorem forall₂_deleteFrom {R : α → β → Prop} (keep : α → Bool) : ∀ {l : List α} {l' : List β}
    (s : ℕ), List.Forall₂ R l l' →
    List.Forall₂ R (l.filter keep) (deleteFrom (locations (fun a => !keep a) s l) s l')
  | [], _, _, .nil => .nil
  | a :: l, b :: l', s, .cons h hrest => by
      rw [deleteFrom_locations_cons]
      have ih := forall₂_deleteFrom keep (s + 1) hrest
      cases hkeep : keep a with
      | true =>
        rw [List.filter_cons_of_pos hkeep]
        exact .cons h ih
      | false =>
        rw [List.filter_cons_of_neg (by rw [hkeep]; exact Bool.false_ne_true)]
        exact ih

theorem zip_deleteFrom {γ : Type} (f : β → γ) (keep : α → Bool) : ∀ {l : List α} {l' : List β}
    (s : ℕ), l.length = l'.length →
    (l.filter keep).zip ((deleteFrom (locations (fun a => !keep a) s l) s l').map f) =
      (l.zip (l'.map f)).filter fun c => keep c.1
  | [], [], _, _ => rfl
  | a :: l, b :: l', s, h => by
      rw [deleteFrom_locations_cons]
      have ih := zip_deleteFrom f keep (s + 1) (Nat.succ.inj h)
      have hzip : (a :: l).zip ((b :: l').map f) = (a, f b) :: l.zip (l'.map f) := rfl
      rw [hzip]
      cases hkeep : keep a with
      | true =>
        have hfilter : ((a, f b) :: l.zip (l'.map f)).filter (fun c => keep c.1) =
            (a, f b) :: (l.zip (l'.map f)).filter fun c => keep c.1 :=
          List.filter_cons_of_pos hkeep
        rw [List.filter_cons_of_pos hkeep, hfilter, ← ih]
        rfl
      | false =>
        have hfilter : ((a, f b) :: l.zip (l'.map f)).filter (fun c => keep c.1) =
            (l.zip (l'.map f)).filter fun c => keep c.1 :=
          List.filter_cons_of_neg (by rw [hkeep]; exact Bool.false_ne_true)
        rw [List.filter_cons_of_neg (by rw [hkeep]; exact Bool.false_ne_true), hfilter]
        exact ih

theorem locations_eq_nil {p : α → Bool} : ∀ {l : List α} (s : ℕ),
    (∀ a ∈ l, p a = false) → locations p s l = []
  | [], _, _ => rfl
  | a :: l, s, h => by
      rw [locations, h a List.mem_cons_self]
      exact locations_eq_nil (s + 1) fun b hb => h b (List.mem_cons_of_mem _ hb)

theorem locations_congr {p q : α → Bool} : ∀ {l : List α} (s : ℕ), (∀ a ∈ l, p a = q a) →
    locations p s l = locations q s l
  | [], _, _ => rfl
  | a :: l, s, h => by
      rw [locations, locations, h a List.mem_cons_self,
        locations_congr (s + 1) fun b hb => h b (List.mem_cons_of_mem _ hb)]

end Positions

/-! ## The round -/

/-- The arguments that are left for the parameters that are kept. -/
def dropArgs (skipDecl : List N) (P : Program N O) (callee : N) (args : List (Arg N O)) :
    List (Arg N O) :=
  match P.find? fun D => D.name = callee with
  | none => args
  | some D => deleteFrom (locations (fun p => !keeps skipDecl D p) 0 D.params) 0 args

/-- What becomes of a control. -/
def shrink (skipDecl : List N) (P : Program N O) (C : Control N O) : Control N O :=
  { C with
    params := C.params.filter (keeps skipDecl C)
    body := C.body.mapCalls (dropArgs skipDecl P) }

variable {skipDecl : List N} {P : Program N O}

omit [DecidableEq O] in
theorem find?_name (hnames : (P.map Control.name).Nodup) {D : Control N O} (hD : D ∈ P) :
    P.find? (fun C => C.name = D.name) = some D := by
  induction P with
  | nil => exact absurd hD List.not_mem_nil
  | cons C cs ih =>
      rw [List.map_cons, List.nodup_cons] at hnames
      rcases List.mem_cons.mp hD with rfl | hD
      · exact List.find?_cons_of_pos (decide_eq_true rfl)
      · have hne : C.name ≠ D.name := fun heq =>
          hnames.1 (heq ▸ List.mem_map.mpr ⟨D, hD, rfl⟩)
        rw [List.find?_cons_of_neg (by simpa using hne)]
        exact ih hnames.2 hD

omit [DecidableEq O] in
theorem dropArgs_eq (hnames : (P.map Control.name).Nodup) {D : Control N O} (hD : D ∈ P)
    (args : List (Arg N O)) : dropArgs skipDecl P D.name args =
      deleteFrom (locations (fun p => !keeps skipDecl D p) 0 D.params) 0 args := by
  rw [dropArgs, find?_name hnames hD]

omit [DecidableEq O] in
/-- Actions whose parameters are all used, under names that are not to be removed. -/
theorem visitActions_eq (map : LocMap N) (st : UnusedState N) : ∀ {actions : List (Action N O)},
    (∀ a ∈ actions, a.body.calls = []) →
    (∀ a ∈ actions, ∀ q ∈ a.params, q.name ∈ a.body.refs ∧ q.name ∉ st.unusedParams) →
    visitActions map st actions = (actions, st)
  | [], _, _ => rfl
  | a :: actions, hcalls, hparams => by
      have hused : (a.params.filter fun q => !decide (q.name ∈ a.body.refs)) = [] := by
        rw [List.filter_eq_nil_iff]
        intro q hq
        simp [(hparams a List.mem_cons_self q hq).1]
      have hkept : (a.params.filter fun q => decide (q.name ∉ st.unusedParams)) = a.params := by
        rw [List.filter_eq_self]
        intro q hq
        simp [(hparams a List.mem_cons_self q hq).2]
      have hlocs : locations (fun q : Param N => decide (q.name ∈ st.unusedParams)) 0 a.params =
          [] :=
        locations_eq_nil 0 fun q hq => by simp [(hparams a List.mem_cons_self q hq).2]
      have hlist : visitParameterList (fun x => decide (x ∈ a.body.refs)) st a.params =
          (a.params, st) := by
        simp only [visitParameterList, hused, List.map_nil, List.append_nil, hkept, hlocs]
      have hbody : a.body.mapCalls (deleteArgs map) = a.body := by
        rw [mapCalls_congr (g := fun _ args => args), mapCalls_id]
        rw [hcalls a List.mem_cons_self]
        exact fun call hcall => absurd hcall List.not_mem_nil
      have ih := visitActions_eq map st (fun b hb => hcalls b (List.mem_cons_of_mem _ hb))
        fun b hb => hparams b (List.mem_cons_of_mem _ hb)
      simp only [visitActions, hlist, ih, hbody]

omit [DecidableEq O] in
/-- What a round does to a control and to the map. -/
theorem visitControl_eq {map : LocMap N} {C : Control N O}
    (hcalls : ∀ a ∈ C.actions, a.body.calls = [])
    (hsafe : C.name ∉ skipDecl → ∀ a ∈ C.actions, ∀ q ∈ a.params,
      q.name ∈ a.body.refs ∧ ∀ p ∈ C.params, p.name = q.name → p.name ∈ C.refs) :
    visitControl skipDecl map C =
      ({ C with
          params := C.params.filter (keeps skipDecl C)
          body := C.body.mapCalls (deleteArgs map) },
        if locations (fun p => !keeps skipDecl C p) 0 C.params = [] then map
        else map ++ [(C.name, locations (fun p => !keeps skipDecl C p) 0 C.params)]) := by
  by_cases hskip : C.name ∈ skipDecl
  · have hkeeps : ∀ p ∈ C.params, keeps skipDecl C p = true := fun p _ => by simp [keeps, hskip]
    have hlocs : locations (fun p => !keeps skipDecl C p) 0 C.params = [] :=
      locations_eq_nil 0 fun p hp => by rw [hkeeps p hp]; rfl
    rw [visitControl, if_pos hskip, hlocs, if_pos rfl, List.filter_eq_self.mpr hkeeps]
  · -- a name of the list is removed exactly if nothing refers to it
    have hunused : ∀ x, x ∈ (C.params.filter fun p => !decide (p.name ∈ C.refs)).map Param.name →
        x ∉ C.refs := by
      intro x hx
      obtain ⟨p, hp, rfl⟩ := List.mem_map.mp hx
      simpa using (List.mem_filter.mp hp).2
    have hmem : ∀ p ∈ C.params,
        (p.name ∈ (C.params.filter fun p => !decide (p.name ∈ C.refs)).map Param.name ↔
          p.name ∉ C.refs) := fun p hp =>
      ⟨hunused p.name, fun hn => List.mem_map.mpr ⟨p, List.mem_filter.mpr ⟨hp, by simp [hn]⟩, rfl⟩⟩
    have hlist : visitParameterList (fun x => decide (x ∈ C.refs)) ⟨[], []⟩ C.params =
        (C.params.filter (keeps skipDecl C),
          ⟨(C.params.filter fun p => !decide (p.name ∈ C.refs)).map Param.name,
            locations (fun p => !keeps skipDecl C p) 0 C.params⟩) := by
      simp only [visitParameterList, List.nil_append]
      refine Prod.ext ?_ (congrArg (UnusedState.mk _) ?_)
      · refine List.filter_congr fun p hp => ?_
        rw [keeps, decide_eq_false hskip, Bool.false_or]
        exact decide_eq_decide.mpr (not_iff_comm.mp (hmem p hp).symm)
      · refine locations_congr 0 fun p hp => ?_
        rw [keeps, decide_eq_false hskip, Bool.false_or, ← decide_not]
        exact decide_eq_decide.mpr (hmem p hp)
    have hactions := visitActions_eq map
      ⟨(C.params.filter fun p => !decide (p.name ∈ C.refs)).map Param.name,
        locations (fun p => !keeps skipDecl C p) 0 C.params⟩ hcalls fun a ha q hq => by
      refine ⟨(hsafe hskip a ha q hq).1, fun hx => ?_⟩
      obtain ⟨p, hp, hpq⟩ := List.mem_map.mp hx
      exact hunused q.name hx (hpq ▸ (hsafe hskip a ha q hq).2 p (List.mem_filter.mp hp).1 hpq)
    rw [visitControl, if_neg hskip]
    simp only [hlist, hactions]

/-- The map knows the positions of the parameters that the controls so far have lost. -/
structure MapOk (skipDecl : List N) (pre : Program N O) (map : LocMap N) : Prop where
  fresh : ∀ n, n ∉ pre.map Control.name → map.lookup n = none
  known : ∀ D ∈ pre, ∀ args : List (Arg N O), deleteArgs map D.name args =
    deleteFrom (locations (fun p => !keeps skipDecl D p) 0 D.params) 0 args

omit [DecidableEq O] in
theorem lookup_append_of_ne {map : LocMap N} {n x : N} {locs : List ℕ} (h : x ≠ n) :
    (map ++ [(n, locs)]).lookup x = map.lookup x := by
  have hnone : [(n, locs)].lookup x = none := by
    rw [List.lookup_cons, beq_false_of_ne h]
    rfl
  rw [List.lookup_append, hnone, Option.or_none]

omit [DecidableEq O] in
/-- The map after a control. -/
theorem MapOk.append {pre : Program N O} {map : LocMap N} (h : MapOk skipDecl pre map)
    {C : Control N O} (hC : C.name ∉ pre.map Control.name) :
    MapOk skipDecl (pre ++ [C])
      (if locations (fun p => !keeps skipDecl C p) 0 C.params = [] then map
        else map ++ [(C.name, locations (fun p => !keeps skipDecl C p) 0 C.params)]) := by
  obtain ⟨locs, hlocs⟩ : ∃ locs, locs = locations (fun p => !keeps skipDecl C p) 0 C.params :=
    ⟨_, rfl⟩
  rw [← hlocs]
  refine ⟨fun n hn => ?_, fun D hD args => ?_⟩
  · rw [List.map_append, List.mem_append, not_or] at hn
    have hne : n ≠ C.name := fun heq => hn.2 (heq ▸ List.mem_singleton_self _)
    split
    · exact h.fresh n hn.1
    · rw [lookup_append_of_ne hne]
      exact h.fresh n hn.1
  · rcases List.mem_append.mp hD with hD | hD
    · have hne : D.name ≠ C.name := fun heq => hC (heq ▸ List.mem_map.mpr ⟨D, hD, rfl⟩)
      rw [← h.known D hD args]
      split
      · rfl
      · rw [deleteArgs, deleteArgs, lookup_append_of_ne hne]
    · rw [List.mem_singleton.mp hD, ← hlocs]
      split
      · rename_i hnil
        rw [deleteArgs, h.fresh C.name hC, hnil, deleteFrom_nil]
      · rw [deleteArgs, List.lookup_append, h.fresh C.name hC, List.lookup_cons_self]
        rfl

omit [DecidableEq O] in
theorem visitControls_eq (hwt : WellTyped P) (hsafe : RoundSafe skipDecl P) :
    ∀ (post pre : Program N O) (map : LocMap N), P = pre ++ post → MapOk skipDecl pre map →
    visitControls skipDecl map post = post.map (shrink skipDecl P)
  | [], _, _, _, _ => rfl
  | C :: post, pre, map, hP, hmap => by
      have hmem : ∀ D ∈ pre ++ [C], D ∈ P := by
        intro D hD
        rw [hP]
        rcases List.mem_append.mp hD with hD | hD
        · exact List.mem_append_left _ hD
        · rw [List.mem_singleton.mp hD]
          exact List.mem_append_right _ List.mem_cons_self
      have hC := hmem C (List.mem_append_right _ (List.mem_singleton_self C))
      have hfresh : C.name ∉ pre.map Control.name := by
        have hnames := hwt.names
        rw [hP, List.map_append, List.map_cons] at hnames
        exact fun hx => (List.nodup_append.mp hnames).2.2 _ hx _ List.mem_cons_self rfl
      have hbody : C.body.mapCalls (deleteArgs map) = C.body.mapCalls (dropArgs skipDecl P) := by
        refine mapCalls_congr fun call hcall => ?_
        obtain ⟨D, hD, hname⟩ := hwt.declared pre C post hP call (List.mem_append_right _ hcall)
        rw [← hname, hmap.known D hD,
          dropArgs_eq hwt.names (hmem D (List.mem_append_left _ hD))]
      rw [visitControls, visitControl_eq (hwt.actionCalls C hC) (hsafe.actionParams C hC),
        List.map_cons, hbody]
      rw [visitControls_eq hwt hsafe post (pre ++ [C]) _ (by rw [hP]; simp) (hmap.append hfresh)]
      rfl

omit [DecidableEq O] in
/-- **What a round does.**  Every control keeps the parameters that are used, and every call the
arguments for these. -/
theorem removeUnusedApplyParams_eq (hwt : WellTyped P) (hsafe : RoundSafe skipDecl P) :
    removeUnusedApplyParams skipDecl P = P.map (shrink skipDecl P) :=
  visitControls_eq hwt hsafe P [] [] rfl
    ⟨fun _ _ => rfl, fun _ hD => absurd hD List.not_mem_nil⟩

end Flattening
end MicroP4
