import Mathlib.Data.List.Range
import MicroP4.Partitioning.AllPartitions

/-!
# The controls of the pipelines

The backends distribute the partitions over the ingress and the egress control of the target:
those at even places of the list go to the ingress control, the others to the egress control.
Every partition is applied once (`calls_perm`), but the order is that of the program for at most
two partitions only (`runsInOrder_iff`), since the packet goes through each pipeline once.
-/

namespace MicroP4
namespace Partitioning

variable {B : Type}

/-! ## The pipelines -/

/-- `prog->getDeclsByName`, which must find one control. -/
def getDecl (objects : List (P4Control B)) (n : ControlName) : Option (P4Control B) :=
  match objects.filter fun c => c.name = n with
  | [c] => some c
  | _ => none

/-- The body of the loop in `getControls`. -/
def controlAt (s : PartitionState B) (i : ℕ) : Option (P4Control B) :=
  if i = s.partitions.length - 1 then do
    let pi ← s.partitionsMap.lookup (← s.partitions[i - 1]?)
    getDecl s.objects (← pi.partition2).name
  else do
    let pi ← s.partitionsMap.lookup (← s.partitions[i]?)
    getDecl s.objects pi.partition1.name

/-- `getControls`.  It fails where the backend stops with `BUG`.  The loop takes every second
place, from 0 or 1 on. -/
def getControls (s : PartitionState B) (ingress : Bool) : Option (List (P4Control B)) :=
  if s.partitions.length = 1 then do
    let pi ← s.partitionsMap.lookup (← s.partitions[0]?)
    let p4c ← getDecl s.objects pi.partition1.name
    some [p4c]
  else
    let i := if ingress then 0 else 1
    (List.range' i ((s.partitions.length - i + 1) / 2) 2).mapM (controlAt s)

/-- The body of a generated control: an instance of each control is applied, whatever the
packet. -/
def createPipelineControl (p4Controls : List (P4Control B)) : List ControlName :=
  p4Controls.map P4Control.name

/-- The controls of the egress pipeline, if there is more than one partition. -/
def egressControls (s : PartitionState B) : Option (List (P4Control B)) :=
  if s.partitions.length > 1 then getControls s false else some []

/-- What the generated ingress control and the generated egress control apply. -/
def archBlock (s : PartitionState B) : Option (List ControlName × List ControlName) := do
  let ic ← getControls s true
  let ec ← egressControls s
  some (createPipelineControl ic, createPipelineControl ec)

/-- `CreateTofinoArchBlock::preorder(P4Program)`. -/
def CreateTofinoArchBlock.preorder (s : PartitionState B) := archBlock s

/-- `CreateV1ModelArchBlock::preorder(P4Program)`, with a `getControls` of its own that does the
same. -/
def CreateV1ModelArchBlock.preorder (s : PartitionState B) := archBlock s

/-! ## Which control is at which place -/

theorem getDecl_of_nodup {objects : List (P4Control B)} (h : (objects.map P4Control.name).Nodup)
    {c : P4Control B} (hc : c ∈ objects) : getDecl objects c.name = some c := by
  obtain ⟨a, b, rfl⟩ := List.append_of_mem hc
  rw [List.map_append, List.map_cons, List.nodup_middle, List.nodup_cons, List.mem_append,
    not_or] at h
  have hnone : ∀ l : List (P4Control B), c.name ∉ l.map P4Control.name →
      (l.filter fun d => d.name = c.name) = [] := by
    intro l hl
    refine List.filter_eq_nil_iff.mpr fun d hd heq => hl ?_
    rw [← of_decide_eq_true heq]
    exact List.mem_map_of_mem hd
  rw [getDecl, List.filter_append, List.filter_cons, hnone a h.1.1, hnone b h.1.2,
    if_pos (decide_eq_true rfl)]
  rfl

theorem mapM_eq_some {α : Type} {f g : ℕ → Option α} : ∀ {l : List ℕ},
    (∀ i ∈ l, f i = g i ∧ (g i).isSome) → l.mapM f = some (l.filterMap g)
  | [], _ => rfl
  | i :: l, h => by
      obtain ⟨hf, hg⟩ := h i List.mem_cons_self
      obtain ⟨a, ha⟩ := Option.isSome_iff_exists.mp hg
      rw [List.mapM_cons, hf, ha, mapM_eq_some fun j hj => h j (List.mem_cons_of_mem i hj),
        List.filterMap_cons_some ha]
      rfl

section Calls

variable {slice : ControlConstraintStates → B → Option (B × B)} {st : ControlConstraintStates}
  {c : P4Control B} {parts l₁ l₂ : List (P4Control B)} {s s' : PartitionState B}

/-- The loop finds the partitions at their places. -/
theorem controlAt_eq (h : Finished s s' c l₁ l₂ parts) (hs : s.partitions = [])
    (hnodup : (s'.objects.map P4Control.name).Nodup) (hlen : 2 ≤ parts.length) {i : ℕ}
    (hi : i < parts.length) : controlAt s' i = parts[i]? := by
  have hnames : s'.partitions = parts.map P4Control.name := by
    rw [h.partitions, hs, List.nil_append]
  have hdecl : ∀ p ∈ parts, getDecl s'.objects p.name = some p := by
    intro p hp
    refine getDecl_of_nodup hnodup ?_
    rw [h.objects, List.append_assoc]
    exact List.mem_append_right _ (List.mem_append_left _ hp)
  unfold controlAt
  rw [hnames, List.length_map]
  by_cases hend : i = parts.length - 1
  · -- the last partition is the second part of the last control that was sliced
    obtain ⟨j, rfl⟩ : ∃ j, i = j + 1 := ⟨i - 1, by omega⟩
    have hj : parts[j]? = some parts[j] := List.getElem?_eq_getElem (by omega)
    obtain ⟨info, hinfo, -, hlast⟩ := h.recorded j _ hj (by omega)
    have hlast := hlast (by omega)
    rw [List.getElem?_eq_getElem hi] at hlast
    rw [if_pos hend, Nat.add_sub_cancel, List.getElem?_map, hj, List.getElem?_eq_getElem hi]
    show (List.lookup _ _).bind _ = _
    rw [hinfo]
    show info.partition2.bind _ = _
    rw [hlast]
    exact hdecl _ (List.getElem_mem hi)
  · have hget : parts[i]? = some parts[i] := List.getElem?_eq_getElem hi
    obtain ⟨info, hinfo, hp, -⟩ := h.recorded i _ hget (by omega)
    rw [if_neg hend, List.getElem?_map, hget]
    show (List.lookup _ _).bind _ = _
    rw [hinfo]
    show getDecl _ info.partition1.name = _
    rw [hp]
    exact hdecl _ (List.getElem_mem hi)

theorem getControls_eq (h : Finished s s' c l₁ l₂ parts) (hs : s.partitions = [])
    (hnodup : (s'.objects.map P4Control.name).Nodup) (hlen : 2 ≤ parts.length) (ingress : Bool) :
    getControls s' ingress = some ((List.range' (if ingress then 0 else 1)
      ((parts.length - (if ingress then 0 else 1) + 1) / 2) 2).filterMap (parts[·]?)) := by
  have hnames : s'.partitions.length = parts.length := by
    rw [h.partitions, hs, List.nil_append, List.length_map]
  unfold getControls
  rw [hnames, if_neg (by omega)]
  refine mapM_eq_some fun i hi => ?_
  obtain ⟨j, hj, rfl⟩ := List.mem_range'.mp hi
  have hlt : (if ingress then 0 else 1) + 2 * j < parts.length := by
    cases ingress
    · rw [if_neg Bool.false_ne_true] at hj ⊢
      omega
    · rw [if_pos rfl] at hj ⊢
      omega
  refine ⟨controlAt_eq h hs hnodup hlen hlt, ?_⟩
  rw [List.getElem?_eq_getElem hlt]
  rfl

/-- The calls of the generated controls: every second partition in each. -/
theorem archBlock_eq (hsplit : SplitsInto slice st c parts) (h : Finished s s' c l₁ l₂ parts)
    (hs : s.partitions = []) (hmap : s.partitionsMap = [])
    (hnodup : (s'.objects.map P4Control.name).Nodup) : archBlock s' =
      some ((List.range' 0 ((parts.length + 1) / 2) 2).filterMap ((parts.map P4Control.name)[·]?),
        (List.range' 1 (parts.length / 2) 2).filterMap ((parts.map P4Control.name)[·]?)) := by
  have hnames : s'.partitions = parts.map P4Control.name := by
    rw [h.partitions, hs, List.nil_append]
  have hmapped : ∀ l : List ℕ, (l.filterMap (parts[·]?)).map P4Control.name =
      l.filterMap ((parts.map P4Control.name)[·]?) := by
    intro l
    rw [List.map_filterMap]
    simp only [List.getElem?_map]
  by_cases hlen : 2 ≤ parts.length
  · have hcount : (parts.length - 1 + 1) / 2 = parts.length / 2 := by
      rw [Nat.sub_add_cancel (Nat.le_of_succ_le hlen)]
    have hegress : egressControls s' = getControls s' false := by
      rw [egressControls, hnames, List.length_map]
      exact if_pos hlen
    rw [archBlock, hegress, getControls_eq h hs hnodup hlen, getControls_eq h hs hnodup hlen]
    simp only [if_true, if_false, Nat.sub_zero, hcount, Bool.false_eq_true]
    show some (List.map _ _, List.map _ _) = _
    rw [hmapped, hmapped]
  · obtain ⟨d, rfl⟩ : ∃ d, parts = [d] := List.length_eq_one_iff.mp <| by
      have hpos := List.length_pos_iff.mpr hsplit.ne_nil
      omega
    obtain rfl := hsplit.eq_of_singleton
    have hdecl : getDecl s'.objects d.name = some d := getDecl_of_nodup hnodup (by simp [h.objects])
    have hingress : getControls s' true = some [d] := by
      rw [getControls, hnames, List.map_singleton, if_pos rfl]
      show (List.lookup d.name s'.partitionsMap).bind _ = _
      rw [h.whole rfl hmap]
      show (getDecl s'.objects d.name).bind _ = _
      rw [hdecl]
      rfl
    have hegress : egressControls s' = some [] := by
      rw [egressControls, hnames, List.length_map]
      exact if_neg (Nat.lt_irrefl 1)
    rw [archBlock, hingress, hegress]
    simp [createPipelineControl]

/-! ## The order of the calls -/

theorem range'_two_perm (n : ℕ) :
    (List.range' 0 ((n + 1) / 2) 2 ++ List.range' 1 (n / 2) 2).Perm (List.range n) := by
  have hnodup : (List.range' 0 ((n + 1) / 2) 2 ++ List.range' 1 (n / 2) 2).Nodup := by
    refine List.nodup_append.mpr ⟨List.nodup_range' 2 (by decide),
      List.nodup_range' 2 (by decide), fun a ha b hb heq => ?_⟩
    obtain ⟨i, -, rfl⟩ := List.mem_range'.mp ha
    obtain ⟨j, -, rfl⟩ := List.mem_range'.mp hb
    omega
  refine (List.perm_ext_iff_of_nodup hnodup List.nodup_range).mpr fun a => ?_
  rw [List.mem_append, List.mem_range', List.mem_range', List.mem_range]
  constructor
  · rintro (⟨i, hi, rfl⟩ | ⟨i, hi, rfl⟩)
    · omega
    · omega
  · intro ha
    rcases Nat.mod_two_eq_zero_or_one a with heven | hodd
    · exact Or.inl ⟨a / 2, by omega, by omega⟩
    · exact Or.inr ⟨a / 2, by omega, by omega⟩

theorem filterMap_range_getElem? {α : Type} (l : List α) :
    (List.range l.length).filterMap (l[·]?) = l := by
  induction l with
  | nil => rfl
  | cons a l ih =>
      have hhead : (a :: l)[0]? = some a := rfl
      rw [List.length_cons, List.range_succ_eq_map, List.filterMap_cons_some hhead,
        List.filterMap_map]
      exact congrArg (a :: ·) ih

/-- Every partition is applied once. -/
theorem calls_perm {α : Type} (l : List α) :
    ((List.range' 0 ((l.length + 1) / 2) 2).filterMap (l[·]?) ++
      (List.range' 1 (l.length / 2) 2).filterMap (l[·]?)).Perm l := by
  rw [← List.filterMap_append]
  exact ((range'_two_perm l.length).filterMap _).trans (.of_eq (filterMap_range_getElem? l))

/-- The places come in order for at most two. -/
theorem calls_eq_iff {α : Type} {l : List α} (hnodup : l.Nodup) :
    (List.range' 0 ((l.length + 1) / 2) 2).filterMap (l[·]?) ++
      (List.range' 1 (l.length / 2) 2).filterMap (l[·]?) = l ↔ l.length ≤ 2 := by
  match l, hnodup with
  | [], _ => simp
  | [a], _ => simp
  | [a, b], _ => simp
  | a :: b :: d :: l, hnodup =>
      refine iff_of_false (fun heq => ?_) (by simp)
      -- the third partition is in the second place
      obtain ⟨m, hm⟩ : ∃ m, ((a :: b :: d :: l).length + 1) / 2 = m + 2 :=
        ⟨((a :: b :: d :: l).length + 1) / 2 - 2, by simp only [List.length_cons]; omega⟩
      have hfst : (a :: b :: d :: l)[0]? = some a := rfl
      have hsnd : (a :: b :: d :: l)[0 + 2]? = some d := rfl
      rw [hm, List.range'_succ, List.range'_succ, List.filterMap_cons_some hfst,
        List.filterMap_cons_some hsnd] at heq
      have hbd : d = b := (List.cons.inj (List.cons.inj heq).2).1
      rw [hbd] at hnodup
      exact (List.nodup_cons.mp (List.nodup_cons.mp hnodup).2).1 List.mem_cons_self

/-- On every packet the ingress control and then the egress control apply the partitions in
program order, with both backends. -/
def RunsInOrder (s : PartitionState B) (parts : List (P4Control B)) : Prop :=
  (∃ ic ec, CreateTofinoArchBlock.preorder s = some (ic, ec) ∧
      ic ++ ec = parts.map P4Control.name) ∧
    ∃ ic ec, CreateV1ModelArchBlock.preorder s = some (ic, ec) ∧
      ic ++ ec = parts.map P4Control.name

/-- **Partitions run in order** if the control is split into at most two, and only then. -/
theorem runsInOrder_iff {objects : List (P4Control B)}
    (hnodup : (objects.map P4Control.name).Nodup)
    (hdeclared : ∀ d ∈ objects, ∃ n, d.name = .declared n) (hc : c ∈ objects)
    (hsplit : SplitsInto slice .rwImR c parts) {k : ℕ} (hk : parts.length ≤ k) :
    ∃ s, rounds slice k (.initial objects c.name) = some s ∧
      (RunsInOrder s parts ↔ parts.length ≤ 2) := by
  obtain ⟨l₁, l₂, rfl⟩ := List.append_of_mem hc
  have hne : ∀ d ∈ l₁ ++ l₂, d.name ≠ c.name := by
    intro d hd heq
    rw [List.map_append, List.map_cons, List.nodup_middle, ← List.map_append] at hnodup
    exact (List.nodup_cons.mp hnodup).1 (heq ▸ List.mem_map_of_mem hd)
  -- declared names are made from no other name
  have hfresh : ∀ d ∈ l₁ ++ l₂, ¬ ControlName.From c.name d.name := by
    intro d hd hfrom
    obtain ⟨n, hn⟩ := hdeclared d <| (List.mem_append.mp hd).elim
      (List.mem_append_left _) fun hd => List.mem_append_right _ (List.mem_cons_of_mem c hd)
    rcases hfrom.eq_or_depth_lt with heq | hlt
    · exact hne d hd heq
    · rw [hn] at hlt
      exact Nat.not_lt_zero _ hlt
  have hpending : Pending (.initial (l₁ ++ c :: l₂) c.name) c l₁ l₂ :=
    ⟨rfl, rfl, hfresh, nofun⟩
  obtain ⟨s, hs, hdone⟩ := exists_rounds hsplit rfl hpending hk
  have hobjects : (s.objects.map P4Control.name).Nodup := by
    have hmiddle := hnodup
    rw [List.map_append, List.map_cons, List.nodup_middle, ← List.map_append] at hmiddle
    have hperm : (l₁ ++ l₂ ++ parts).Perm s.objects := by
      rw [hdone.objects, List.append_assoc, List.append_assoc]
      exact List.perm_append_comm.append_left l₁
    refine (hperm.map _).nodup_iff.mp ?_
    rw [List.map_append]
    refine List.nodup_append.mpr ⟨(List.nodup_cons.mp hmiddle).2, hsplit.nodup,
      fun n hn n' hn' heq => ?_⟩
    obtain ⟨d, hd, rfl⟩ := List.mem_map.mp hn
    obtain ⟨p, hp, rfl⟩ := List.mem_map.mp hn'
    refine hfresh d hd ?_
    rw [heq]
    exact hsplit.from p hp
  refine ⟨s, hs, ?_⟩
  have hcalls := archBlock_eq hsplit hdone rfl rfl hobjects
  have hiff := calls_eq_iff hsplit.nodup
  rw [List.length_map] at hiff
  rw [← hiff]
  unfold RunsInOrder CreateTofinoArchBlock.preorder CreateV1ModelArchBlock.preorder
  rw [and_self, hcalls]
  constructor
  · rintro ⟨ic, ec, heq, horder⟩
    cases heq
    exact horder
  · exact fun horder => ⟨_, _, rfl, horder⟩

end Calls

/-! ## Three partitions -/

/-- The calls that are not allowed everywhere. -/
inductive ImCall where
  | getValue
  | setOutPort
  deriving DecidableEq

/-- `processExternMethodCall`: whether a call is not allowed. -/
def ControlConstraintStates.forbids : ControlConstraintStates → ImCall → Bool
  | .rwImR, .getValue => true
  | .rEmR, .setOutPort => true
  | _, _ => false

/-- Slicing a sequence of calls in front of the first one that is not allowed. -/
def sliceCalls (st : ControlConstraintStates) (l : List ImCall) :
    Option (List ImCall × List ImCall) :=
  (l.findIdx? st.forbids).map l.splitAt

/-- A call that only the egress pipeline allows splits a control into two. -/
theorem runsInOrder_twoParts : ∃ s, rounds sliceCalls 2 (.initial
    [⟨.declared "main", [.setOutPort, .getValue]⟩] (.declared "main")) = some s ∧
      (RunsInOrder s [⟨.unique (.declared "main") 0, [.setOutPort]⟩,
        ⟨.unique (.declared "main") 1, [.getValue]⟩] ↔ 2 ≤ 2) := by
  refine runsInOrder_iff ?_ (fun d hd => ?_) (List.mem_singleton_self _) (.split rfl (.whole rfl))
    (Nat.le_refl 2)
  · exact List.nodup_cons.mpr ⟨List.not_mem_nil, List.nodup_nil⟩
  · exact ⟨"main", congrArg P4Control.name (List.mem_singleton.mp hd)⟩

/-- With a third partition the ingress control applies it in front of the second one. -/
theorem not_runsInOrder_threeParts : ∃ s, rounds sliceCalls 3 (.initial
    [⟨.declared "main", [.setOutPort, .getValue, .setOutPort]⟩] (.declared "main")) = some s ∧
      ¬ RunsInOrder s [⟨.unique (.declared "main") 0, [.setOutPort]⟩,
        ⟨.unique (.unique (.declared "main") 1) 0, [.getValue]⟩,
        ⟨.unique (.unique (.declared "main") 1) 1, [.setOutPort]⟩] := by
  refine ⟨_, rfl, ?_⟩
  rintro ⟨⟨ic, ec, hcalls, horder⟩, -⟩
  cases hcalls
  revert horder
  decide

end Partitioning
end MicroP4
