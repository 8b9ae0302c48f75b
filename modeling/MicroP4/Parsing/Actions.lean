import MicroP4.Parsing.Unroll

/-!
# The actions of a converted parser

`ParserConverter` turns a parser into one action for each instance of a state and each
initial offset.  `ExtractSubstitutor` replaces an extract by assignments of slices of
`msa_hdr_stack` to the fields of the header and of a constant to `curr_offset`.  The action
of an instance is made of the statements of its own state, followed by what its predecessor
left in `toAppendStats`: the statements of the predecessor's state, without the last one if
there are several.

`lookup_actionDecls` says what is declared under the name of an instance, whatever the
order in which the states are visited.
-/

namespace MicroP4
namespace Parsing

open BitString Assignments

/-! ## Maps with names for keys -/

section NameMap

variable {K V : Type} [DecidableEq K]

/-- The value under a key. -/
def lookup (m : List (K × V)) (k : K) : Option V := (m.find? fun e => e.1 = k).map Prod.snd

/-- `emplace`, which keeps a value that is there. -/
def emplace (v : V) (m : List (K × V)) (k : K) : List (K × V) :=
  if (lookup m k).isSome then m else m ++ [(k, v)]

theorem lookup_append_singleton (m : List (K × V)) (k k' : K) (v : V) :
    lookup (m ++ [(k, v)]) k' = (lookup m k').or (if k = k' then some v else none) := by
  unfold lookup
  rw [List.find?_append]
  cases hm : m.find? fun e => e.1 = k' with
  | some e => rfl
  | none => by_cases hk : k = k' <;> simp [hk]

theorem lookup_emplace (v : V) (m : List (K × V)) (k k' : K) :
    lookup (emplace v m k) k' = (lookup m k').or (if k = k' then some v else none) := by
  unfold emplace
  by_cases h : (lookup m k).isSome = true
  · rw [if_pos h]
    obtain ⟨w, hw⟩ := Option.isSome_iff_exists.mp h
    by_cases hk : k = k'
    · rw [← hk, hw, Option.some_or]
    · rw [if_neg hk, Option.or_none]
  · rw [if_neg h, lookup_append_singleton]

/-- Emplacing one value under several keys. -/
theorem lookup_foldl_emplace (v : V) (k' : K) : ∀ (ks : List K) (m : List (K × V)),
    lookup (ks.foldl (emplace v) m) k' = (lookup m k').or (if k' ∈ ks then some v else none)
  | [], m => by simp
  | k :: ks, m => by
      rw [List.foldl_cons, lookup_foldl_emplace v k' ks, lookup_emplace]
      by_cases hk : k = k'
      · subst hk
        cases lookup m k <;> simp
      · have hk' : k' ≠ k := Ne.symm hk
        simp [hk, hk']

end NameMap

/-! ## Substituting extracts -/

/-- The slice `msa_hdr_stack[byte].data[hi:lo]`. -/
structure Slice where
  byte : ℕ
  hi : ℕ
  lo : ℕ
  deriving DecidableEq, Repr

/-- The bits of a slice. -/
def Slice.bits (st : ℕ → Word) (s : Slice) : List Bool :=
  sliceBits (st s.byte) s.lo (s.hi + 1 - s.lo)

/-- The loop over whole bytes, `n` rounds of it, and the rest of the field: `w` bits of it
are left, and come from bytes from `byte` on. -/
def byteSlices : (n w byte : ℕ) → List Slice
  | 0, w, byte => if 0 < w then [⟨byte, 7, 8 - w⟩] else []
  | n + 1, w, byte => ⟨byte, 7, 0⟩ :: byteSlices n (w - 8) (byte + 1)

/-- The slices that are concatenated for a field of width `w` at bit offset `start`. -/
def fieldSlices (start w : ℕ) : List Slice :=
  let startByteIndex := start / 8
  let startByteBitIndex := 8 - start % 8
  if 8 - startByteBitIndex ≠ 0 then
    if startByteBitIndex ≤ w then
      ⟨startByteIndex, startByteBitIndex - 1, 0⟩ ::
        byteSlices ((w - startByteBitIndex) / 8) (w - startByteBitIndex) (startByteIndex + 1)
    else [⟨startByteIndex, startByteBitIndex, startByteBitIndex - w + 1⟩]
  else byteSlices (w / 8) w startByteIndex

/-- The right-hand side of a generated assignment. -/
inductive Rhs (H F X : Type) where
  | const (v : Value)
  | slices (l : List Slice)
  | expr (e : Expr (Loc H F X) Value)

/-- A generated assignment. -/
structure Asgn (H F X : Type) where
  target : Loc H F X
  rhs : Rhs H F X

variable {S H F X : Type}

/-- The value of a right-hand side on a byte stack. -/
def Rhs.toExpr (st : ℕ → Word) : Rhs H F X → Expr (Loc H F X) Value
  | .const v => Expr.const v
  | .slices l => Expr.const (.bits (l.flatMap (Slice.bits st)))
  | .expr e => e

/-- A generated assignment on a byte stack. -/
def Asgn.on (st : ℕ → Word) (a : Asgn H F X) : Assignment (Loc H F X) Value :=
  ⟨a.target, a.rhs.toExpr st⟩

/-- `createPerFieldAssignmentStmts`, up to the assignment to `curr_offset`. -/
def perFieldAsgns (h : H) : (start : ℕ) → List (F × ℕ) → List (Asgn H F X)
  | _, [] => []
  | start, (f, w) :: fs =>
      ⟨.field h f, .slices (fieldSlices start w)⟩ :: perFieldAsgns h (start + w) fs

namespace ParserDecl

variable (P : ParserDecl S H F X)

/-- The assignments for the extraction of a header at a bit offset. -/
def extractAsgns (h : H) (start : ℕ) : List (Asgn H F X) :=
  ⟨.valid h, .const (.flag true)⟩ :: perFieldAsgns h start (P.fields h) ++
    [⟨.currOffset, .const (.num (start + P.width h))⟩]

/-- `ExtractSubstitutor`: a header is found at the coordinates the map has for it. -/
def substitute (m : ValueMap H) (initOffset : ℕ) : ParserStat H F X → List (Asgn H F X)
  | .extract h => P.extractAsgns h (m.2 h + initOffset)
  | .assign x e => [⟨.var x, .expr e⟩]

variable [DecidableEq H]

/-- The statements of an instance after substitution. -/
def asgnsOf (p : List ℕ) (initOffset : ℕ) : List (Asgn H F X) :=
  (P.statsOf p).flatMap (P.substitute (P.after p) initOffset)

end ParserDecl

/-- `if (cc->size()>1) cc->erase(--(cc->end()))`. -/
def popBack {α : Type} (l : List α) : List α := if l.length > 1 then l.dropLast else l

/-! ## Declaring the actions -/

/-- The names of actions. -/
inductive ActName where
  | init
  | reject
  | inst (initOffset : ℕ) (p : List ℕ)
  deriving DecidableEq

/-- `actionDecls` and `toAppendStats`. -/
structure Decls (H F X : Type) where
  actionDecls : List (ActName × List (Asgn H F X))
  toAppendStats : List (ActName × List (Asgn H F X))

namespace ParserDecl

variable (P : ParserDecl S H F X) [DecidableEq S]

/-- `getActionName`. -/
def getActionName (p : List ℕ) (initOffset : ℕ) : ActName :=
  if P.targetOf p = some .reject then .reject else .inst initOffset p

/-- `createInitdAction`. -/
def initAction (initialOffsets : List ℕ) : List (Asgn H F X) :=
  (P.headers.map fun h => ⟨.valid h, .const (.flag false)⟩) ++
    [⟨.rejectStatus, .const (.num 0)⟩] ++
    if initialOffsets = [0] then
      [⟨.currOffset, .const (.num 0)⟩, ⟨.localOffset, .const (.num 0)⟩]
    else [⟨.localOffset, .expr (Expr.loc .currOffset)⟩]

/-- `createRejectAction`. -/
def rejectAction : List (Asgn H F X) := [⟨.rejectStatus, .const (.num 1)⟩]

variable [DecidableEq H]

/-- The body of the loop over `initialOffsets` in `stateIterator`, for an instance. -/
def declareAction (d : Decls H F X) (v : List ℕ × ℕ) : Decls H F X :=
  let name := P.getActionName v.1 v.2
  if (lookup d.actionDecls name).isSome then d
  else
    { actionDecls := d.actionDecls ++
        [(name, P.asgnsOf v.1 v.2 ++ (lookup d.toAppendStats name).getD [])]
      toAppendStats := ((P.children v.1).map fun c => P.getActionName c v.2).foldl
        (emplace (popBack (P.asgnsOf v.1 v.2))) d.toAppendStats }

end ParserDecl

namespace Parser

variable (P : Parser S H F X) [DecidableEq S] [DecidableEq H]

/-- The instances and offsets in the order of the visit. -/
def visits (initialOffsets : List ℕ) : List (List ℕ × ℕ) :=
  P.sorted.flatMap fun s => (P.evaluatedInstances s).flatMap fun p =>
    initialOffsets.map fun o => (p, o)

/-- The declarations at the end of the visit. -/
def decls (initialOffsets : List ℕ) : Decls H F X :=
  (P.visits initialOffsets).foldl P.declareAction
    ⟨[(.init, P.initAction initialOffsets), (.reject, ParserDecl.rejectAction)], []⟩

/-- The action declared under a name. -/
def findAction (initialOffsets : List ℕ) (name : ActName) : Option (List (Asgn H F X)) :=
  lookup (P.decls initialOffsets).actionDecls name

/-! ## What is declared -/

/-- What the predecessor of an instance leaves to append. -/
def appended : (p : List ℕ) → (initOffset : ℕ) → List (Asgn H F X)
  | [], _ => []
  | _ :: q, o => popBack (P.asgnsOf q o)

/-- After the visit of `done`, exactly the actions of these instances are declared, and they
have left their statements to their successors. -/
structure Declared (done : List (List ℕ × ℕ)) (d : Decls H F X) : Prop where
  actionDecls : ∀ p s, P.targetOf p = some (.state s) → ∀ o, lookup d.actionDecls (.inst o p) =
    if (p, o) ∈ done then some (P.asgnsOf p o ++ P.appended p o) else none
  nil : ∀ o, lookup d.toAppendStats (.inst o []) = none
  cons : ∀ i q s, P.targetOf (i :: q) = some (.state s) → ∀ o,
    lookup d.toAppendStats (.inst o (i :: q)) =
      if (q, o) ∈ done then some (popBack (P.asgnsOf q o)) else none

variable {P}

omit [DecidableEq H] in
theorem getActionName_state {p : List ℕ} {s : S} (hp : P.targetOf p = some (.state s)) (o : ℕ) :
    P.getActionName p o = .inst o p := by
  rw [ParserDecl.getActionName, if_neg]
  rw [hp]
  exact fun h => by cases h

omit [DecidableEq H] in
/-- Which successors of an instance have a given name. -/
theorem inst_mem_children {p p' : List ℕ} {o o' : ℕ} {s : S}
    (hp' : P.targetOf p' = some (.state s)) :
    ActName.inst o' p' ∈ ((P.children p).map fun c => P.getActionName c o) ↔
      o' = o ∧ p' ∈ P.children p := by
  rw [List.mem_map]
  constructor
  · rintro ⟨c, hc, hname⟩
    rw [ParserDecl.getActionName] at hname
    split at hname
    · cases hname
    · cases hname
      exact ⟨rfl, hc⟩
  · rintro ⟨rfl, hc⟩
    exact ⟨p', hc, getActionName_state hp' o'⟩

omit [DecidableEq S] [DecidableEq H] in
theorem children_tail {p p' : List ℕ} (h : p' ∈ P.children p) : ∃ i, p' = i :: p := by
  rw [ParserDecl.children] at h
  split at h
  · obtain ⟨i, -, rfl⟩ := List.mem_map.mp h
    exact ⟨i, rfl⟩
  · exact absurd h List.not_mem_nil

/-- One step of the visit, of an instance whose predecessor was visited. -/
theorem Declared.step {done : List (List ℕ × ℕ)} {d : Decls H F X} (hd : P.Declared done d)
    {p : List ℕ} {o : ℕ} {s : S} (hp : P.targetOf p = some (.state s))
    (hpred : ∀ i q, p = i :: q → (q, o) ∈ done) :
    P.Declared (done ++ [(p, o)]) (P.declareAction d (p, o)) := by
  have hname := getActionName_state hp o
  rw [ParserDecl.declareAction, hname, hd.actionDecls p s hp o]
  by_cases hmem : (p, o) ∈ done
  · -- the offset stands twice among the initial offsets
    have hsame : ∀ v, v ∈ done ++ [(p, o)] ↔ v ∈ done := by
      intro v
      rw [List.mem_append, List.mem_singleton]
      exact or_iff_left_of_imp fun h => h ▸ hmem
    rw [if_pos hmem, Option.isSome_some, if_pos rfl]
    refine ⟨fun p' s' h o' => ?_, hd.nil, fun i q s' h o' => ?_⟩
    · rw [hd.actionDecls p' s' h o']
      simp only [hsame]
    · rw [hd.cons i q s' h o']
      simp only [hsame]
  · rw [if_neg hmem, Option.isSome_none, if_neg Bool.false_ne_true]
    refine ⟨fun p' s' h o' => ?_, fun o' => ?_, fun i q s' h o' => ?_⟩
    · rw [lookup_append_singleton, hd.actionDecls p' s' h o']
      simp only [List.mem_append, List.mem_singleton]
      by_cases heq : (p', o') = (p, o)
      · cases heq
        have happ : (lookup d.toAppendStats (.inst o p)).getD [] = P.appended p o := by
          cases p with
          | nil => rw [hd.nil, appended, Option.getD_none]
          | cons i q => rw [hd.cons i q s hp, if_pos (hpred i q rfl), appended, Option.getD_some]
        rw [if_neg hmem, happ, if_pos rfl, if_pos (Or.inr rfl), Option.none_or]
      · have hne : ActName.inst o p ≠ .inst o' p' := by
          rintro ⟨⟩
          exact heq rfl
        rw [if_neg hne, Option.or_none]
        simp only [heq, or_false]
    · rw [lookup_foldl_emplace, hd.nil, if_neg, Option.or_none]
      intro h
      obtain ⟨-, hc⟩ := (inst_mem_children (P := P) (s := P.start) rfl).mp h
      obtain ⟨i, hi⟩ := children_tail hc
      exact List.cons_ne_nil i p hi.symm
    · rw [lookup_foldl_emplace, hd.cons i q s' h o']
      simp only [List.mem_append, List.mem_singleton, inst_mem_children h]
      by_cases heq : (q, o') = (p, o)
      · cases heq
        rw [if_neg hmem, if_pos ⟨rfl, P.mem_children h⟩, if_pos (Or.inr rfl), Option.none_or]
      · have hne : ¬ (o' = o ∧ i :: q ∈ P.children p) := by
          rintro ⟨rfl, hc⟩
          obtain ⟨j, hj⟩ := children_tail hc
          cases hj
          exact heq rfl
        rw [if_neg hne, Option.or_none]
        simp only [heq, or_false]

theorem Declared.foldl : ∀ (l : List (List ℕ × ℕ)) {done : List (List ℕ × ℕ)}
    {d : Decls H F X}, P.Declared done d →
    (∀ l₁ v l₂, l = l₁ ++ v :: l₂ → (∃ s, P.targetOf v.1 = some (.state s)) ∧
      ∀ i q, v.1 = i :: q → (q, v.2) ∈ done ++ l₁) →
    P.Declared (done ++ l) (l.foldl P.declareAction d)
  | [], done, d, hd, _ => by
      rw [List.append_nil]
      exact hd
  | v :: l, done, d, hd, h => by
      obtain ⟨⟨s, hs⟩, hpred⟩ := h [] v l rfl
      have hstep := hd.step hs (o := v.2) fun i q hq => by
        have hmem := hpred i q hq
        rwa [List.append_nil] at hmem
      have hrest := Declared.foldl l hstep fun l₁ w l₂ hl => by
        obtain ⟨hw, hwpred⟩ := h (v :: l₁) w l₂ (by rw [hl]; rfl)
        refine ⟨hw, fun i q hq => ?_⟩
        rw [List.append_assoc, List.singleton_append]
        exact hwpred i q hq
      rw [List.append_assoc, List.singleton_append] at hrest
      exact hrest

omit [DecidableEq H] in
theorem mem_visits {initialOffsets : List ℕ} {p : List ℕ} {o : ℕ} :
    (p, o) ∈ P.visits initialOffsets ↔
      (∃ s, P.targetOf p = some (.state s)) ∧ o ∈ initialOffsets := by
  rw [visits, List.mem_flatMap]
  constructor
  · rintro ⟨s, -, h⟩
    obtain ⟨p', hp', ho⟩ := List.mem_flatMap.mp h
    obtain ⟨o', ho', heq⟩ := List.mem_map.mp ho
    cases heq
    exact ⟨⟨s, P.mem_evaluatedInstances.mp hp'⟩, ho'⟩
  · rintro ⟨⟨s, hs⟩, ho⟩
    refine ⟨s, P.mem_sorted p s hs, List.mem_flatMap.mpr ⟨p, ?_, ?_⟩⟩
    · exact P.mem_evaluatedInstances.mpr hs
    · exact List.mem_map.mpr ⟨o, ho, rfl⟩

omit [DecidableEq H] in
theorem targetOf_of_mem {initialOffsets : List ℕ} {s : S} {v : List ℕ × ℕ}
    (hv : v ∈ (P.evaluatedInstances s).flatMap fun p => initialOffsets.map fun o => (p, o)) :
    P.targetOf v.1 = some (.state s) := by
  obtain ⟨p, hp, ho⟩ := List.mem_flatMap.mp hv
  obtain ⟨o, -, rfl⟩ := List.mem_map.mp ho
  exact P.mem_evaluatedInstances.mp hp

omit [DecidableEq S] [DecidableEq H] in
/-- A successor in the tree is a successor in the state graph. -/
theorem mem_targets {p : List ℕ} {i : ℕ} {s t : S} (hp : P.targetOf p = some (.state s))
    (ht : P.targetOf (i :: p) = some (.state t)) : .state t ∈ (P.transition s).targets := by
  obtain ⟨s', hs', hi⟩ := ParserDecl.targetOf_cons ht
  rw [hp] at hs'
  cases hs'
  exact List.mem_of_getElem? hi

omit [DecidableEq H] in
/-- No instance is visited in front of its predecessor. -/
theorem visits_pairwise (initialOffsets : List ℕ) :
    (P.visits initialOffsets).Pairwise fun v w => ∀ i, v.1 ≠ i :: w.1 := by
  rw [visits, List.pairwise_flatMap]
  constructor
  · intro s _
    refine List.pairwise_of_forall_mem_list fun v hv w hw i hi => ?_
    have hmem := mem_targets (targetOf_of_mem hw) (hi ▸ targetOf_of_mem hv)
    exact absurd (P.rank_lt s s hmem) (Nat.lt_irrefl _)
  · refine P.sorted_pairwise.imp fun hst v hv w hw i hi => ?_
    exact hst.2 (mem_targets (targetOf_of_mem hw) (hi ▸ targetOf_of_mem hv))

/-- The action declared for an instance and an initial offset. -/
theorem findAction_inst (initialOffsets : List ℕ) {p : List ℕ} {s : S}
    (hp : P.targetOf p = some (.state s)) {o : ℕ} (ho : o ∈ initialOffsets) :
    P.findAction initialOffsets (.inst o p) = some (P.asgnsOf p o ++ P.appended p o) := by
  have hstart : P.Declared [] ⟨[(.init, P.initAction initialOffsets),
      (.reject, ParserDecl.rejectAction)], []⟩ :=
    ⟨fun _ _ _ _ => rfl, fun _ => rfl, fun _ _ _ _ _ => rfl⟩
  have hend := hstart.foldl (P.visits initialOffsets) fun l₁ v l₂ hl => by
    have hv : v ∈ P.visits initialOffsets := by
      rw [hl]
      exact List.mem_append_right l₁ List.mem_cons_self
    obtain ⟨hs, ho'⟩ := mem_visits.mp hv
    refine ⟨hs, fun i q hq => ?_⟩
    obtain ⟨s', hs'⟩ := hs
    rw [hq] at hs'
    obtain ⟨t, ht, -⟩ := ParserDecl.targetOf_cons hs'
    have hmem : (q, v.2) ∈ P.visits initialOffsets := mem_visits.mpr ⟨⟨t, ht⟩, ho'⟩
    have hpw := visits_pairwise (P := P) initialOffsets
    rw [hl] at hmem hpw
    rw [List.nil_append]
    rcases List.mem_append.mp hmem with h | h
    · exact h
    rcases List.mem_cons.mp h with h | h
    · rw [← h] at hq
      exact absurd hq.symm (List.cons_ne_self i q)
    · have hrel := (List.pairwise_cons.mp (List.pairwise_append.mp hpw).2.1).1 _ h
      exact absurd hq (hrel i)
  rw [List.nil_append] at hend
  rw [findAction, decls, hend.actionDecls p s hp o, if_pos (mem_visits.mpr ⟨⟨s, hp⟩, ho⟩)]

end Parser
end Parsing
end MicroP4
