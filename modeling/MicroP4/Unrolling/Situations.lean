import Mathlib.Data.ZMod.Basic
import MicroP4.Foundations.Recurrence
import MicroP4.Unrolling.ExactCoverage

/-!
# What the loop test goes by

The instances that come from an instance of a state depend on the validity of the headers and on
the variables, and through the loop test on the nearest earlier instance of every state: on the
validity of the headers there and on how far the packet has moved since.  The position itself
does not matter.  This makes up the situation of an instance, and instances in the same
situation lead to instances in the same situations (`respects_situation`).

Positions are unsigned numbers of 32 bits, so a distance is a number modulo `2 ^ 32`.
-/

namespace MicroP4
namespace Unrolling

variable {S H K I C E : Type}

/-! ## Situations -/

/-- The situation of an instance of a state. -/
@[ext]
structure Situation (S H E : Type) where
  state : S
  valid : H → SymbolicBool
  scalars : E
  nearest : S → Option (ZMod (2 ^ 32) × (H → SymbolicBool))

/-- How far the packet has moved from one map to another. -/
def distance (m' m : ValueMap H E) : ZMod (2 ^ 32) := m.offset - m'.offset

/-- The situation at a state with this map before it and these states behind. -/
def situation [DecidableEq S] (s : S) (m : ValueMap H E) (l : List (S × ValueMap H E)) :
    Situation S H E where
  state := s
  valid := m.valid
  scalars := m.scalars
  nearest t := (l.find? fun q => q.1 = t).map fun q => (distance q.2 m, q.2.valid)

/-- The situation of an instance. -/
def ParserStateInfo.situation [DecidableEq S] (i : ParserStateInfo S H E) :
    Option (Situation S H E) :=
  match i.state with
  | .state s => some (Unrolling.situation s i.before i.predecessors)
  | _ => none

instance : Finite SymbolicBool :=
  Finite.of_injective
    (fun b => match b with
      | .uninitialized => (none : Option (Option Bool))
      | .unknown => some none
      | .constant b => some (some b))
    (by rintro (_ | _ | b) (_ | _ | c) h <;> simp_all)

instance [Finite S] [Finite H] [Finite E] : Finite (Situation S H E) :=
  Finite.of_injective
    (fun σ : Situation S H E => (σ.state, σ.valid, σ.scalars, σ.nearest))
    (by rintro ⟨s, v, e, n⟩ ⟨s', v', e', n'⟩ h; simpa using h)

theorem distance_eq_zero {m m' : ValueMap H E} (hm : m.offset < 2 ^ 32)
    (hm' : m'.offset < 2 ^ 32) : distance m' m = 0 ↔ m.offset = m'.offset := by
  rw [distance, sub_eq_zero, ZMod.natCast_eq_natCast_iff', Nat.mod_eq_of_lt hm,
    Nat.mod_eq_of_lt hm']

theorem distance_add (m m' m'' : ValueMap H E) :
    distance m m' + distance m' m'' = distance m m'' := by
  rw [distance, distance, distance]
  exact sub_add_sub_cancel' _ _ _

/-! ## Statements in the same situation -/

/-- Maps that differ in positions only. -/
structure Alike (m m' : ValueMap H E) : Prop where
  valid : m.valid = m'.valid
  scalars : m.scalars = m'.scalars

section Statements

variable [DecidableEq H] {P : ParserDecl S H K I C} {N : Scalars H K I C E P.elements}
  {m m' : ValueMap H E}

omit [DecidableEq H] in
theorem Alike.evaluate (h : Alike m m') (leftValue : Bool) (e : HeaderExpr H K I) :
    evaluate P N leftValue m e = evaluate P N leftValue m' e := by
  cases e <;> simp only [Unrolling.evaluate, h.valid, h.scalars]

omit [DecidableEq H] in
theorem Alike.hdrValid (h : Alike m m') (hdr : HeaderValue H K) : hdr.valid m = hdr.valid m' := by
  cases hdr with
  | header h' => exact congrFun h.valid h'
  | anyElement _ => rfl
  | collapsed _ => rfl

/-- The validity of the headers after one is set. -/
theorem Alike.setValidity (h : Alike m m') (b : SymbolicBool) (hdr : HeaderValue H K) (x : H) :
    (setValidity P m b hdr x).valid = (setValidity P m' b hdr x).valid := by
  have hx : (m.header x).valid = (m'.header x).valid := congrFun h.valid x
  cases hdr with
  | header y =>
      by_cases hxy : x = y
      · rw [hxy, Unrolling.setValidity, Unrolling.setValidity, Function.update_self,
          Function.update_self]
      · rw [Unrolling.setValidity, Unrolling.setValidity, Function.update_of_ne hxy,
          Function.update_of_ne hxy]
        exact hx
  | anyElement k =>
      simp only [Unrolling.setValidity]
      split
      · rfl
      · exact hx
  | collapsed _ => exact hx

theorem valid_setCoordinates (hdr : H → SymbolicHeader) (start stop : ℕ) (v : HeaderValue H K)
    (x : H) : (setCoordinates hdr start stop v x).valid = (hdr x).valid := by
  cases v with
  | header y =>
      by_cases hxy : x = y
      · rw [hxy, setCoordinates, Function.update_self]
      · rw [setCoordinates, Function.update_of_ne hxy]
  | anyElement _ => rfl
  | collapsed _ => rfl

/-- What a statement does from another map: the same, to a map as far away. -/
theorem Alike.executeStatement (h : Alike m m') {st : ParserStat H K I C} {m₁ : ValueMap H E}
    (hm₁ : executeStatement P N m st = .ok m₁) : ∃ m₁',
      executeStatement P N m' st = .ok m₁' ∧ Alike m₁ m₁' ∧ distance m m₁ = distance m' m₁' := by
  have hstay : ∀ {hdr hdr' : H → SymbolicHeader} {e : E},
      distance m { m with header := hdr, scalars := e } =
        distance m' { m' with header := hdr', scalars := e } := by
    intro hdr hdr' e
    rw [distance, distance, sub_self, sub_self]
  cases st with
  | extract e =>
      rw [Unrolling.executeStatement, extract, h.evaluate] at hm₁
      rw [Unrolling.executeStatement, extract]
      cases he : Unrolling.evaluate P N false m' e with
      | error err => simp [he] at hm₁
      | ok hdr =>
          simp only [he, h.hdrValid hdr] at hm₁ ⊢
          split at hm₁
          · cases hm₁
          · rename_i hfixed
            split at hm₁
            · cases hm₁
            · rename_i hvalid
              rw [if_neg hfixed, if_neg hvalid]
              cases hm₁
              refine ⟨_, rfl, ⟨funext fun x => ?_, ?_⟩, ?_⟩
              · rw [ValueMap.valid, ValueMap.valid, valid_setCoordinates, valid_setCoordinates]
                exact h.setValidity _ hdr x
              · dsimp only
                rw [h.valid, h.scalars]
              · simp only [distance, unsigned, ZMod.natCast_mod, Nat.cast_add, add_sub_cancel_left]
  | setValid e b =>
      rw [Unrolling.executeStatement, h.evaluate] at hm₁
      rw [Unrolling.executeStatement]
      cases he : Unrolling.evaluate P N false m' e with
      | error err => simp [he] at hm₁
      | ok hdr =>
          simp only [he, h.valid, h.scalars] at hm₁ ⊢
          cases hm₁
          exact ⟨_, rfl, ⟨funext (h.setValidity _ hdr), rfl⟩, hstay⟩
  | assign left right =>
      have hright : evaluateRight P N m right = evaluateRight P N m' right := by
        cases right with
        | none => rfl
        | some e =>
            have hvalid : HeaderValue.valid (K := K) m = HeaderValue.valid m' :=
              funext h.hdrValid
            rw [evaluateRight, evaluateRight, h.evaluate, hvalid]
      rw [Unrolling.executeStatement, h.evaluate, hright] at hm₁
      rw [Unrolling.executeStatement]
      cases hl : Unrolling.evaluate P N true m' left with
      | error err => simp [hl] at hm₁
      | ok hdr =>
          cases hr : evaluateRight P N m' right with
          | error err => simp [hl, hr] at hm₁
          | ok b =>
              simp only [hl, hr, h.valid, h.scalars] at hm₁ ⊢
              cases hm₁
              exact ⟨_, rfl, ⟨funext (h.setValidity _ hdr), rfl⟩, hstay⟩
  | other lasts nexts c =>
      rw [Unrolling.executeStatement, h.valid, h.scalars] at hm₁
      rw [Unrolling.executeStatement]
      cases hc : N.check lasts nexts c m'.valid m'.scalars with
      | some err => simp [hc] at hm₁
      | none =>
          simp only [hc] at hm₁ ⊢
          cases hm₁
          exact ⟨_, rfl, ⟨h.valid, rfl⟩, hstay⟩

theorem Alike.executeStatements {l : List (ParserStat H K I C)} (h : Alike m m')
    {m₁ : ValueMap H E} (hm₁ : executeStatements P N l m = .ok m₁) : ∃ m₁',
      executeStatements P N l m' = .ok m₁' ∧ Alike m₁ m₁' ∧ distance m m₁ = distance m' m₁' := by
  induction l generalizing m m' with
  | nil =>
      cases hm₁
      exact ⟨m', rfl, h, by rw [distance, distance, sub_self, sub_self]⟩
  | cons st l ih =>
      obtain ⟨m₂, hm₂, hrest⟩ := executeStatements_cons hm₁
      obtain ⟨m₂', hm₂', h₂, hd₂⟩ := h.executeStatement hm₂
      obtain ⟨m₁', hm₁', h₁, hd₁⟩ := ih h₂ hrest
      refine ⟨m₁', ?_, h₁, ?_⟩
      · rw [Unrolling.executeStatements, hm₂']
        exact hm₁'
      · rw [← distance_add m m₂ m₁, ← distance_add m' m₂' m₁', hd₂, hd₁]

end Statements

/-! ## Instances in the same situation -/

section Instances

variable [DecidableEq S] [DecidableEq H] {P : ParserDecl S H K I C}
  {N : Scalars H K I C E P.elements}

/-- The instance leads to this one. -/
def Next (P : ParserDecl S H K I C) (N : Scalars H K I C E P.elements)
    (i j : ParserStateInfo S H E) : Prop := j ∈ (visit P N i).next

theorem next_iff {i j : ParserStateInfo S H E} : Next P N i j ↔ checkLoops P i = none ∧
    ∃ s m t, i.state = .state s ∧ executeStatements P N (P.components s) i.before = .ok m ∧
      t ∈ P.selectCases s ∧ j = ⟨t, (s, i.before) :: i.predecessors, m⟩ := by
  constructor
  · intro hj
    rw [Next, visit] at hj
    cases hc : checkLoops P i with
    | some msg => simp [hc] at hj
    | none =>
        refine ⟨rfl, ?_⟩
        simp only [hc, evaluateState] at hj
        cases hs : i.state with
        | accept => simp [hs] at hj
        | reject => simp [hs] at hj
        | state s =>
            simp only [hs] at hj
            cases hexec : executeStatements P N (P.components s) i.before with
            | error err => simp [hexec] at hj
            | ok m =>
                simp only [hexec] at hj
                obtain ⟨t, ht, rfl⟩ := List.mem_map.mp hj
                exact ⟨s, m, t, rfl, hexec, ht, rfl⟩
  · rintro ⟨hc, s, m, t, hs, hexec, ht, rfl⟩
    rw [Next, visit, hc]
    simp only [evaluateState, hs, hexec]
    exact List.mem_map.mpr ⟨t, ht, rfl⟩

/-- Positions are unsigned numbers. -/
def Bounded (i : ParserStateInfo S H E) : Prop :=
  i.before.offset < 2 ^ 32 ∧ ∀ q ∈ i.predecessors, q.2.offset < 2 ^ 32

theorem Bounded.next {i j : ParserStateInfo S H E} (hi : Bounded i) (hj : Next P N i j) :
    Bounded j := by
  obtain ⟨-, s, m, t, -, hexec, -, rfl⟩ := next_iff.mp hj
  refine ⟨offset_executeStatements_lt hi.1 hexec, fun q hq => ?_⟩
  rcases List.mem_cons.mp hq with rfl | hq
  · exact hi.1
  · exact hi.2 q hq

omit [DecidableEq H] in
/-- The loop test does not stop at an instance of a state if the packet has moved and a header
has changed its validity since the nearest earlier one. -/
theorem checkLoops_eq_none_iff {s : S} {m : ValueMap H E} {l : List (S × ValueMap H E)} :
    checkLoops P ⟨.state s, l, m⟩ = none ↔ ∀ q ∈ l.find? fun q => q.1 = s,
      m.offset ≠ q.2.offset ∧ headerValidityChange P q.2 m = true := by
  simp only [checkLoops]
  cases l.find? fun q => q.1 = s with
  | none => simp
  | some q =>
      by_cases hoff : m.offset = q.2.offset
      · simp [hoff]
      · cases hchange : headerValidityChange P q.2 m <;> simp [hoff, hchange]

omit [DecidableEq S] [DecidableEq H] in
theorem headerValidityChange_congr {m m' n n' : ValueMap H E} (h : m.valid = m'.valid)
    (h' : n.valid = n'.valid) : headerValidityChange P m n = headerValidityChange P m' n' := by
  simp only [headerValidityChange, h, h']

omit [DecidableEq H] in
/-- The loop test goes by the situation. -/
theorem checkLoops_congr {s : S} {m m' : ValueMap H E} {l l' : List (S × ValueMap H E)}
    (hb : Bounded ⟨.state s, l, m⟩) (hb' : Bounded ⟨.state s, l', m'⟩)
    (h : situation s m l = situation s m' l') :
    checkLoops P ⟨.state s, l, m⟩ = checkLoops P ⟨.state s, l', m'⟩ := by
  have hvalid : m.valid = m'.valid := congrArg Situation.valid h
  have hnear := congrFun (congrArg Situation.nearest h) s
  simp only [situation] at hnear
  simp only [checkLoops]
  cases hq : l.find? fun q => q.1 = s with
  | none =>
      rw [hq, Option.map_none, eq_comm, Option.map_eq_none_iff] at hnear
      rw [hnear]
  | some q =>
      rw [hq, Option.map_some, eq_comm, Option.map_eq_some_iff] at hnear
      obtain ⟨q', hq', heq⟩ := hnear
      obtain ⟨hd, hv⟩ := Prod.mk.inj heq
      rw [hq']
      have hoff : m.offset = q.2.offset ↔ m'.offset = q'.2.offset := by
        rw [← distance_eq_zero hb.1 (hb.2 q (List.mem_of_find?_eq_some hq)),
          ← distance_eq_zero hb'.1 (hb'.2 q' (List.mem_of_find?_eq_some hq')), hd]
      simp only [hoff, headerValidityChange_congr (P := P) hv.symm hvalid]

omit [DecidableEq H] in
/-- The situation after a state, whose statements move the packet by a distance. -/
theorem situation_next {s t : S} {m m' m₁ m₁' : ValueMap H E} {l l' : List (S × ValueMap H E)}
    (h : situation s m l = situation s m' l') (h₁ : Alike m₁ m₁')
    (hd : distance m m₁ = distance m' m₁') :
    situation t m₁ ((s, m) :: l) = situation t m₁' ((s, m') :: l') := by
  have hvalid : m.valid = m'.valid := congrArg Situation.valid h
  have hfar : ∀ (n n₁ : ValueMap H E) (o : Option (S × ValueMap H E)),
      (o.map fun q => (distance q.2 n₁, q.2.valid)) =
        (o.map fun q => (distance q.2 n, q.2.valid)).map fun d => (d.1 + distance n n₁, d.2) := by
    intro n n₁ o
    rw [Option.map_map]
    refine congrArg (Option.map · o) (funext fun q => ?_)
    rw [Function.comp_apply, distance_add]
  have hnear : (situation t m₁ ((s, m) :: l)).nearest =
      (situation t m₁' ((s, m') :: l')).nearest := by
    funext u
    simp only [situation, List.find?_cons]
    cases decide (s = u) with
    | true => rw [Option.map_some, Option.map_some, hd, hvalid]
    | false =>
        have hu := congrFun (congrArg Situation.nearest h) u
        simp only [situation] at hu
        dsimp only
        rw [hfar m m₁, hfar m' m₁', hu, hd]
  simp only [situation] at hnear ⊢
  rw [h₁.valid, h₁.scalars, hnear]

/-- **The situation decides** which situations an instance leads to. -/
theorem respects_situation :
    Recurrence.Respects (Next P N) Bounded ParserStateInfo.situation where
  keeps hij hi := hi.next hij
  step := by
    rintro i i' j hi hi' heq hj
    obtain ⟨hc, s, m, t, hs, hexec, ht, rfl⟩ := next_iff.mp hj
    obtain ⟨state, l, m₀⟩ := i
    obtain ⟨state', l', m₀'⟩ := i'
    obtain rfl : state = .state s := hs
    -- the other instance is one of the same state
    cases state' with
    | accept => exact absurd heq (Option.some_ne_none _)
    | reject => exact absurd heq (Option.some_ne_none _)
    | state s' =>
        have heq := Option.some.inj heq
        obtain rfl : s = s' := congrArg Situation.state heq
        have halike : Alike m₀ m₀' := ⟨congrArg Situation.valid heq, congrArg Situation.scalars heq⟩
        obtain ⟨m', hexec', hm, hd⟩ := halike.executeStatements hexec
        refine ⟨_, next_iff.mpr ⟨(checkLoops_congr hi hi' heq).symm.trans hc, s, m', t, rfl, hexec',
          ht, rfl⟩, ?_⟩
        cases t with
        | accept => rfl
        | reject => rfl
        | state t =>
            exact congrArg some (situation_next heq hm hd)

end Instances

end Unrolling
end MicroP4
