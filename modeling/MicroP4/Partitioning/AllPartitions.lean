import Mathlib.Data.List.Nodup

/-!
# Splitting the main control

`CreateAllPartitions` repeats `PartitionP4Control` until the program does not change.  Each round
slices the control that was left over by the last one, in the state of the pipeline that is to
execute it, and replaces it in the program by its two parts.  The names of the first parts are
collected in `partitions`, what is known of a part in `partitionsMap`; the last name in the list
is that of the control that was not sliced any more, and this one has no entry of its own in the
map (`exists_rounds`).

What `SlicePipeControl` makes of the body of a control is a parameter here.
-/

namespace MicroP4
namespace Partitioning

variable {B : Type}

/-! ## Rounds -/

/-- `ControlConstraintStates`: what a pipeline allows. -/
inductive ControlConstraintStates where
  | rwImR
  | rEmR
  deriving DecidableEq

/-- `setNextControlConstraintStates`. -/
def ControlConstraintStates.next : ControlConstraintStates → ControlConstraintStates
  | .rwImR => .rEmR
  | .rEmR => .rwImR

/-- The name of a control: a declared one, or one that `getUniqueControlName` makes from another
name by a number. -/
inductive ControlName where
  | declared (s : String)
  | unique (n : ControlName) (id : ℕ)
  deriving DecidableEq

/-- A control of the program. -/
structure P4Control (B : Type) where
  name : ControlName
  body : B

/-- `PartitionInfo`. -/
structure PartitionInfo (B : Type) where
  origControlName : ControlName
  partition1 : P4Control B
  partition2 : Option (P4Control B)

/-- A part of a control. -/
def P4Control.part (c : P4Control B) (id : ℕ) (b : B) : P4Control B := ⟨.unique c.name id, b⟩

/-- The partition info of a control that is sliced. -/
def P4Control.info (c : P4Control B) (b₁ b₂ : B) : PartitionInfo B :=
  ⟨c.name, c.part 0 b₁, some (c.part 1 b₂)⟩

/-- The map from the names of first parts. -/
abbrev P4ControlPartitionInfoMap (B : Type) := List (ControlName × PartitionInfo B)

/-- `emplace`, which keeps a value that is there. -/
def emplace (m : P4ControlPartitionInfoMap B) (n : ControlName) (info : PartitionInfo B) :
    P4ControlPartitionInfoMap B :=
  if (m.lookup n).isSome then m else m ++ [(n, info)]

/-- The program and what `PartitionP4Control` keeps. -/
structure PartitionState (B : Type) where
  objects : List (P4Control B)
  controlTypeName : Option ControlName
  partitions : List ControlName
  partitionsMap : P4ControlPartitionInfoMap B
  constraintState : ControlConstraintStates
  partMap : P4ControlPartitionInfoMap B

/-- In front of the first round. -/
def PartitionState.initial (objects : List (P4Control B)) (mainControlTypeName : ControlName) :
    PartitionState B :=
  ⟨objects, some mainControlTypeName, [], [], .rwImR, []⟩

section Rounds

variable (slice : ControlConstraintStates → B → Option (B × B))

/-- `SlicePipeControl` on a control: the partition info, unless it is not sliced. -/
def slicePipeControl (st : ControlConstraintStates) (c : P4Control B) :
    P4ControlPartitionInfoMap B :=
  match slice st c.body with
  | none => []
  | some (b₁, b₂) => [((c.part 0 b₁).name, c.info b₁ b₂)]

/-- `PartitionP4Control::preorder(P4Control)`. -/
def preorder (s : PartitionState B) (c : P4Control B) : PartitionState B :=
  if s.controlTypeName ≠ some c.name then s
  else
    match slicePipeControl slice s.constraintState c with
    | [] =>
        { s with
          partMap := []
          partitions := s.partitions ++ [c.name]
          controlTypeName := none
          partitionsMap :=
            if s.partitionsMap.isEmpty then [(c.name, ⟨c.name, c, none⟩)] else s.partitionsMap }
    | (n, info) :: rest =>
        { s with
          partMap := (n, info) :: rest
          controlTypeName := info.partition2.map P4Control.name
          partitions := s.partitions ++ [info.partition1.name]
          partitionsMap := emplace s.partitionsMap n info
          constraintState := s.constraintState.next }

/-- Replacing the control that was sliced by its parts.  It fails where the pass stops with
`BUG`. -/
def replaceControl (info : PartitionInfo B) : List (P4Control B) → Option (List (P4Control B))
  | [] => none
  | c :: l =>
      if c.name = info.origControlName then
        some (info.partition1 :: (info.partition2.toList ++ l))
      else (replaceControl info l).map (c :: ·)

/-- `PartitionP4Control::postorder(P4Program)`. -/
def postorder (s : PartitionState B) : Option (PartitionState B) :=
  (s.partMap.foldlM (fun l e => replaceControl e.2 l) s.objects).map
    fun l => { s with objects := l }

/-- One round of the pass. -/
def round (s : PartitionState B) : Option (PartitionState B) :=
  postorder (s.objects.foldl (preorder slice) s)

/-- Rounds of the pass. -/
def rounds : ℕ → PartitionState B → Option (PartitionState B)
  | 0, s => some s
  | k + 1, s => (round slice s).bind (rounds k)

/-! ## The partitions -/

/-- The controls a control is split into, in program order. -/
inductive SplitsInto : ControlConstraintStates → P4Control B → List (P4Control B) → Prop
  | whole {st : ControlConstraintStates} {c : P4Control B} (h : slice st c.body = none) :
      SplitsInto st c [c]
  | split {st : ControlConstraintStates} {c : P4Control B} {b₁ b₂ : B} {cs : List (P4Control B)}
      (h : slice st c.body = some (b₁, b₂))
      (hrest : SplitsInto st.next (c.part 1 b₂) cs) : SplitsInto st c (c.part 0 b₁ :: cs)

end Rounds

/-- Names that are made from a name. -/
inductive ControlName.From (r : ControlName) : ControlName → Prop
  | refl : From r r
  | unique {n : ControlName} {id : ℕ} (h : From r n) : From r (.unique n id)

/-- How many numbers a name ends in. -/
def ControlName.depth : ControlName → ℕ
  | .declared _ => 0
  | .unique n _ => n.depth + 1

namespace ControlName

variable {r n m : ControlName}

theorem From.trans (h : From r n) (h' : From n m) : From r m := by
  induction h' with
  | refl => exact h
  | unique _ ih => exact ih.unique

/-- A name is made from a shorter one. -/
theorem From.eq_or_depth_lt (h : From r n) : n = r ∨ r.depth < n.depth := by
  induction h with
  | refl => exact Or.inl rfl
  | unique _ ih =>
      right
      rcases ih with rfl | hlt
      · exact Nat.lt_succ_self _
      · exact Nat.lt_succ_of_lt hlt

theorem from_unique (n : ControlName) (id : ℕ) : From n (.unique n id) := From.refl.unique

theorem not_from_sibling {i j : ℕ} (h : i ≠ j) : ¬ From (.unique n i) (.unique n j) := by
  intro hfrom
  rcases hfrom.eq_or_depth_lt with heq | hlt
  · exact h (ControlName.unique.inj heq).2.symm
  · exact Nat.lt_irrefl _ hlt

end ControlName

section Run

variable {slice : ControlConstraintStates → B → Option (B × B)} {st : ControlConstraintStates}
  {c : P4Control B} {parts : List (P4Control B)}

theorem SplitsInto.ne_nil (h : SplitsInto slice st c parts) : parts ≠ [] := by
  cases h with
  | whole => exact List.cons_ne_nil _ _
  | split => exact List.cons_ne_nil _ _

theorem SplitsInto.eq_of_singleton {d : P4Control B} (h : SplitsInto slice st c [d]) : d = c := by
  cases h with
  | whole => rfl
  | split _ hrest => exact absurd rfl hrest.ne_nil

theorem SplitsInto.from (h : SplitsInto slice st c parts) :
    ∀ d ∈ parts, ControlName.From c.name d.name := by
  induction h with
  | whole =>
      intro d hd
      rw [List.mem_singleton.mp hd]
      exact .refl
  | split _ _ ih =>
      intro d hd
      rcases List.mem_cons.mp hd with rfl | hd
      · exact ControlName.from_unique _ _
      · exact (ControlName.from_unique _ _).trans (ih d hd)

/-- The partitions have different names. -/
theorem SplitsInto.nodup (h : SplitsInto slice st c parts) : (parts.map P4Control.name).Nodup := by
  induction h with
  | whole => exact List.nodup_singleton _
  | split _ hrest ih =>
      refine List.nodup_cons.mpr ⟨fun hmem => ?_, ih⟩
      obtain ⟨d, hd, hname⟩ := List.mem_map.mp hmem
      have hfrom := hrest.from d hd
      rw [hname] at hfrom
      exact ControlName.not_from_sibling Nat.one_ne_zero hfrom

/-! ## One round -/

theorem foldl_preorder_of_ne {s : PartitionState B} {l : List (P4Control B)}
    (h : ∀ d ∈ l, s.controlTypeName ≠ some d.name) : l.foldl (preorder slice) s = s := by
  induction l with
  | nil => rfl
  | cons d l ih =>
      have hd : preorder slice s d = s := if_pos (h d List.mem_cons_self)
      rw [List.foldl_cons, hd]
      exact ih fun d' hd' => h d' (List.mem_cons_of_mem d hd')

theorem replaceControl_append {info : PartitionInfo B} {l₁ l₂ : List (P4Control B)}
    (hc : c.name = info.origControlName) (h : ∀ d ∈ l₁, d.name ≠ info.origControlName) :
    replaceControl info (l₁ ++ c :: l₂) =
      some (l₁ ++ info.partition1 :: (info.partition2.toList ++ l₂)) := by
  induction l₁ with
  | nil => exact if_pos hc
  | cons d l₁ ih =>
      rw [List.cons_append, replaceControl, if_neg (h d List.mem_cons_self),
        ih fun d' hd' => h d' (List.mem_cons_of_mem d hd')]
      rfl

/-- The control that is to be sliced, and that no other control has a name made from its name. -/
structure Pending (s : PartitionState B) (c : P4Control B) (l₁ l₂ : List (P4Control B)) : Prop where
  objects : s.objects = l₁ ++ c :: l₂
  controlTypeName : s.controlTypeName = some c.name
  fresh : ∀ d ∈ l₁ ++ l₂, ¬ ControlName.From c.name d.name
  freshKeys : ∀ n info, s.partitionsMap.lookup n = some info → ¬ ControlName.From c.name n

variable {s : PartitionState B} {l₁ l₂ : List (P4Control B)}

theorem Pending.foldl_preorder (h : Pending s c l₁ l₂) : s.objects.foldl (preorder slice) s =
    l₂.foldl (preorder slice) (preorder slice s c) := by
  have hfront : l₁.foldl (preorder slice) s = s := by
    refine foldl_preorder_of_ne fun d hd heq => ?_
    rw [h.controlTypeName, Option.some.injEq] at heq
    refine h.fresh d (List.mem_append_left _ hd) ?_
    rw [← heq]
    exact .refl
  rw [h.objects, List.foldl_append, hfront]
  rfl

/-- A round that slices nothing. -/
theorem Pending.round_whole (h : Pending s c l₁ l₂)
    (hslice : slice s.constraintState c.body = none) :
    round slice s = some { s with
      partMap := []
      partitions := s.partitions ++ [c.name]
      controlTypeName := none
      partitionsMap :=
        if s.partitionsMap.isEmpty then [(c.name, ⟨c.name, c, none⟩)] else s.partitionsMap } := by
  have hc : preorder slice s c = { s with
      partMap := []
      partitions := s.partitions ++ [c.name]
      controlTypeName := none
      partitionsMap :=
        if s.partitionsMap.isEmpty then [(c.name, ⟨c.name, c, none⟩)] else s.partitionsMap } := by
    rw [preorder, h.controlTypeName, if_neg (not_not_intro rfl), slicePipeControl, hslice]
  unfold round
  rw [h.foldl_preorder, hc, foldl_preorder_of_ne]
  · rfl
  · exact fun d _ => nofun

/-- A round that slices the control. -/
theorem Pending.round_split (h : Pending s c l₁ l₂) {b₁ b₂ : B}
    (hslice : slice s.constraintState c.body = some (b₁, b₂)) :
    round slice s = some { s with
      objects := (l₁ ++ [c.part 0 b₁]) ++ c.part 1 b₂ :: l₂
      partMap := [((c.part 0 b₁).name, c.info b₁ b₂)]
      controlTypeName := some (c.part 1 b₂).name
      partitions := s.partitions ++ [(c.part 0 b₁).name]
      partitionsMap := emplace s.partitionsMap (c.part 0 b₁).name (c.info b₁ b₂)
      constraintState := s.constraintState.next } := by
  have hc : preorder slice s c = { s with
      partMap := [((c.part 0 b₁).name, c.info b₁ b₂)]
      controlTypeName := some (c.part 1 b₂).name
      partitions := s.partitions ++ [(c.part 0 b₁).name]
      partitionsMap := emplace s.partitionsMap (c.part 0 b₁).name (c.info b₁ b₂)
      constraintState := s.constraintState.next } := by
    rw [preorder, h.controlTypeName, if_neg (not_not_intro rfl), slicePipeControl, hslice]
    rfl
  have hfront : ∀ d ∈ l₁, d.name ≠ (c.info b₁ b₂).origControlName := by
    intro d hd heq
    refine h.fresh d (List.mem_append_left _ hd) ?_
    rw [heq]
    exact .refl
  unfold round
  rw [h.foldl_preorder, hc, foldl_preorder_of_ne]
  · show Option.map _ ((replaceControl (c.info b₁ b₂) s.objects).bind some) = _
    rw [h.objects, replaceControl_append rfl hfront, List.append_assoc]
    rfl
  · intro d hd heq
    rw [Option.some.injEq] at heq
    refine h.fresh d (List.mem_append_right _ hd) ?_
    rw [← heq]
    exact ControlName.from_unique _ _

/-! ## All rounds -/

theorem rounds_of_round_eq (h : round slice s = some s) (k : ℕ) : rounds slice k s = some s := by
  induction k with
  | zero => rfl
  | succ k ih =>
      rw [rounds, h]
      exact ih

theorem lookup_append_singleton (m : P4ControlPartitionInfoMap B) (n n' : ControlName)
    (info : PartitionInfo B) : (m ++ [(n, info)]).lookup n' =
      (m.lookup n').or (if n' = n then some info else none) := by
  rw [List.lookup_append]
  congr 1
  by_cases h : n' = n
  · rw [if_pos h, h, List.lookup_cons_self]
  · rw [if_neg h, List.lookup_cons, beq_false_of_ne h]
    rfl

theorem lookup_emplace_self {m : P4ControlPartitionInfoMap B} {n : ControlName}
    (h : m.lookup n = none) (info : PartitionInfo B) : (emplace m n info).lookup n = some info := by
  rw [emplace, h, if_neg (by simp), lookup_append_singleton, h, if_pos rfl]
  rfl

theorem lookup_emplace_of_some {m : P4ControlPartitionInfoMap B} {n n' : ControlName}
    {info info' : PartitionInfo B} (h : m.lookup n = some info) :
    (emplace m n' info').lookup n = some info := by
  unfold emplace
  split
  · exact h
  · rw [lookup_append_singleton, h]
    rfl

/-- After a round that slices nothing nothing changes. -/
theorem Pending.rounds_whole (h : Pending s c l₁ l₂)
    (hslice : slice s.constraintState c.body = none)
    (k : ℕ) : rounds slice (k + 1) s = some { s with
      partMap := []
      partitions := s.partitions ++ [c.name]
      controlTypeName := none
      partitionsMap :=
        if s.partitionsMap.isEmpty then [(c.name, ⟨c.name, c, none⟩)] else s.partitionsMap } := by
  rw [rounds, h.round_whole hslice, Option.bind_some]
  refine rounds_of_round_eq ?_ k
  unfold round
  rw [foldl_preorder_of_ne]
  · rfl
  · exact fun d _ => nofun

/-- What the map has for the names of the partitions: the first parts, and for the last but one
also the last partition. -/
def Recorded (m : P4ControlPartitionInfoMap B) (parts : List (P4Control B)) : Prop :=
  ∀ i p, parts[i]? = some p → i + 1 < parts.length → ∃ info, m.lookup p.name = some info ∧
    info.partition1 = p ∧ (i + 2 = parts.length → info.partition2 = parts[i + 1]?)

/-- At the end of the rounds. -/
structure Finished (s s' : PartitionState B) (c : P4Control B) (l₁ l₂ parts : List (P4Control B)) :
    Prop where
  objects : s'.objects = l₁ ++ parts ++ l₂
  partitions : s'.partitions = s.partitions ++ parts.map P4Control.name
  keeps : ∀ n info, s.partitionsMap.lookup n = some info → s'.partitionsMap.lookup n = some info
  recorded : Recorded s'.partitionsMap parts
  whole : parts = [c] → s.partitionsMap = [] →
    s'.partitionsMap.lookup c.name = some ⟨c.name, c, none⟩

theorem Pending.next (h : Pending s c l₁ l₂) {b₁ b₂ : B} :
    Pending { s with
      objects := (l₁ ++ [c.part 0 b₁]) ++ c.part 1 b₂ :: l₂
      partMap := [((c.part 0 b₁).name, c.info b₁ b₂)]
      controlTypeName := some (c.part 1 b₂).name
      partitions := s.partitions ++ [(c.part 0 b₁).name]
      partitionsMap := emplace s.partitionsMap (c.part 0 b₁).name (c.info b₁ b₂)
      constraintState := s.constraintState.next } (c.part 1 b₂) (l₁ ++ [c.part 0 b₁]) l₂ := by
  have hsibling : ¬ ControlName.From (c.part 1 b₂).name (c.part 0 b₁).name :=
    ControlName.not_from_sibling Nat.one_ne_zero
  have hmade : ∀ {n}, ControlName.From (c.part 1 b₂).name n → ControlName.From c.name n :=
    (ControlName.from_unique _ _).trans
  refine ⟨rfl, rfl, fun d hd hfrom => ?_, fun n info hn hfrom => ?_⟩
  · rw [List.append_assoc, List.mem_append, List.singleton_append, List.mem_cons] at hd
    rcases hd with hd | rfl | hd
    · exact h.fresh d (List.mem_append_left _ hd) (hmade hfrom)
    · exact hsibling hfrom
    · exact h.fresh d (List.mem_append_right _ hd) (hmade hfrom)
  · by_cases heq : n = (c.part 0 b₁).name
    · rw [heq] at hfrom
      exact hsibling hfrom
    · unfold emplace at hn
      split at hn
      · exact h.freshKeys n info hn (hmade hfrom)
      · rw [lookup_append_singleton, if_neg heq, Option.or_none] at hn
        exact h.freshKeys n info hn (hmade hfrom)

/-- **The rounds** split the control, and stop. -/
theorem exists_rounds (hsplit : SplitsInto slice st c parts) : ∀ {s : PartitionState B}
    {l₁ l₂ : List (P4Control B)} {k : ℕ}, s.constraintState = st → Pending s c l₁ l₂ →
      parts.length ≤ k → ∃ s', rounds slice k s = some s' ∧ Finished s s' c l₁ l₂ parts := by
  induction hsplit with
  | @whole st c hslice =>
      intro s l₁ l₂ k hst h hk
      obtain ⟨k, rfl⟩ : ∃ j, k = j + 1 := ⟨k - 1, (Nat.succ_pred_eq_of_pos hk).symm⟩
      rw [← hst] at hslice
      have hkeep : ∀ n info, s.partitionsMap.lookup n = some info →
          (if s.partitionsMap.isEmpty then [(c.name, ⟨c.name, c, none⟩)]
            else s.partitionsMap).lookup n = some info := by
        intro n info hn
        cases hm : s.partitionsMap with
        | nil =>
            rw [hm] at hn
            cases hn
        | cons e m =>
            rw [hm] at hn
            exact hn
      refine ⟨_, h.rounds_whole hslice k, h.objects.trans (List.append_cons l₁ c l₂), rfl, hkeep,
        ?_,
        fun _ hnil => ?_⟩
      · intro i p _ hi
        exact absurd hi (by simp)
      · show (if s.partitionsMap.isEmpty then _ else s.partitionsMap).lookup c.name = _
        rw [hnil]
        exact List.lookup_cons_self
  | @split st c b₁ b₂ cs hslice hrest ih =>
      intro s l₁ l₂ k hst h hk
      obtain ⟨k, rfl⟩ : ∃ j, k = j + 1 :=
        ⟨k - 1, (Nat.succ_pred_eq_of_pos (Nat.lt_of_lt_of_le (Nat.succ_pos _) hk)).symm⟩
      rw [← hst] at hslice
      have hfresh : s.partitionsMap.lookup (c.part 0 b₁).name = none := by
        cases hlookup : s.partitionsMap.lookup (c.part 0 b₁).name with
        | none => rfl
        | some info => exact absurd (ControlName.from_unique _ _) (h.freshKeys _ info hlookup)
      obtain ⟨s', hs', hdone⟩ := ih (congrArg ControlConstraintStates.next hst) h.next
        (Nat.le_of_succ_le_succ hk)
      have hself := hdone.keeps _ _ (lookup_emplace_self hfresh (c.info b₁ b₂))
      refine ⟨s', ?_, ?_, ?_, fun n info hn => hdone.keeps n info (lookup_emplace_of_some hn), ?_,
        ?_⟩
      · rw [rounds, h.round_split hslice]
        exact hs'
      · rw [hdone.objects, List.append_assoc l₁]
        rfl
      · rw [hdone.partitions, List.map_cons, List.append_assoc]
        rfl
      · intro i p hi hlt
        cases i with
        | zero =>
            cases hi
            refine ⟨_, hself, rfl, fun hlen => ?_⟩
            obtain ⟨d, rfl⟩ := List.length_eq_one_iff.mp (Nat.succ.inj hlen).symm
            rw [hrest.eq_of_singleton]
            rfl
        | succ i =>
            obtain ⟨info, hinfo, hp, hlast⟩ := hdone.recorded i p hi (Nat.lt_of_succ_lt_succ hlt)
            exact ⟨info, hinfo, hp, fun hlen => hlast (Nat.succ.inj hlen)⟩
      · intro heq
        exact absurd (List.cons.inj heq).2 hrest.ne_nil

end Run

end Partitioning
end MicroP4
