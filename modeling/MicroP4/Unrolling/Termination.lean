import MicroP4.Unrolling.Situations

/-!
# When the unrolling of a parser ends

A way is a sequence of states that a parser can run through, with the maps before them.  The
interpreter follows a way as long as, between any visit of a state and the next one, the packet
has moved and a header has changed its validity.  Each of these tests looks back to the
nearest visit only; a validity that is set and cleared in a longer pattern passes all of them,
and the way goes on without end.  With finitely many states, headers and values of variables
this is the only reason: the worklist becomes empty unless a way that passes the tests comes
back to the situation it was in (`unrolls_iff`).

A way that comes to a state again without moving the packet is cut off, but the report is not
made.  To find out whether the position of the packet is exact, the loop test goes through all
values of the map and takes each one for a packet; the first one that is not is a null pointer.
-/

namespace MicroP4
namespace Unrolling

variable {S H K I C E : Type}

/-! ## The report of the loop test -/

/-- A value of the map, for a parameter or a variable of the parser: a packet, with the flag
`conservative`, or something else. -/
inductive MapValue where
  | pkt (conservative : Bool)
  | other
  deriving DecidableEq

/-- `clone`.  The one of a packet does not take over the flag. -/
def MapValue.clone : MapValue → MapValue
  | .pkt _ => .pkt false
  | .other => .other

/-- What is reported, an error or a warning. -/
inductive Severity where
  | warning
  | error

/-- The search for a conservative packet; `none` is `isConservative` of a null pointer. -/
def findConservative : List MapValue → Option Bool
  | [] => some false
  | .pkt conservative :: values => if conservative then some true else findConservative values
  | .other :: _ => none

/-- The report of a cycle without extracting, in a map that is a clone of these values. -/
def reportCycle (values : List MapValue) : Option Severity :=
  (findConservative (values.map MapValue.clone)).map fun conservative =>
    if conservative then .warning else .error

theorem isSome_reportCycle {values : List MapValue} :
    (reportCycle values).isSome ↔ ∀ v ∈ values, v ≠ .other := by
  rw [reportCycle, Option.isSome_map]
  induction values with
  | nil => simp [findConservative]
  | cons v values ih =>
      cases v with
      | pkt _ =>
          rw [List.map_cons, MapValue.clone, findConservative, if_neg Bool.false_ne_true, ih]
          simp
      | other => simp [MapValue.clone, findConservative]

section Interpreter

variable [DecidableEq S] [DecidableEq H] (P : ParserDecl S H K I C)
  (N : Scalars H K I C E P.elements)

/-- The worklist of `run` becomes empty, and at every instance that is visited the report of a
cycle without extracting is made. -/
structure Unrolls (values : List MapValue) : Prop where
  empties : ∃ fuel, (run P N fuel).isSome
  reports : ∀ initial, N.initial = some initial → ∀ i,
    Relation.ReflTransGen (Next P N) (startInfo P initial) i →
      checkLoops P i = some .cycleWithoutExtracting → (reportCycle values).isSome

/-! ## Ways -/

/-- The states that a parser can run through, with the maps before them, the last one first. -/
inductive Way : List (S × ValueMap H E) → Prop
  | start {initial : E} : N.initial = some initial →
      Way [(P.start, (startInfo P initial).before)]
  | step {s t : S} {m m' : ValueMap H E} {l : List (S × ValueMap H E)} : Way ((s, m) :: l) →
      executeStatements P N (P.components s) m = .ok m' → .state t ∈ P.selectCases s →
      Way ((t, m') :: (s, m) :: l)

/-- Between a visit of a state and the next one the packet has moved and a header has changed
its validity. -/
def Progresses : List (S × ValueMap H E) → Prop
  | [] => True
  | (s, m) :: l =>
      (∀ q ∈ l.find? fun q => q.1 = s, m.offset ≠ q.2.offset ∧
        headerValidityChange P q.2 m = true) ∧ Progresses l

omit [DecidableEq H] in
instance decidableProgresses : ∀ w : List (S × ValueMap H E), Decidable (Progresses P w)
  | [] => isTrue trivial
  | (s, m) :: l =>
      have := decidableProgresses l
      inferInstanceAs (Decidable ((∀ q ∈ l.find? fun q => q.1 = s, m.offset ≠ q.2.offset ∧
        headerValidityChange P q.2 m = true) ∧ Progresses P l))

/-- A way with this progress comes to a situation again. -/
def ComesBack : Prop :=
  ∃ s m m' l l', Way P N ((s, m') :: (l' ++ (s, m) :: l)) ∧
    Progresses P ((s, m') :: (l' ++ (s, m) :: l)) ∧
    situation s m' (l' ++ (s, m) :: l) = situation s m l

/-- A way comes to a state again with the packet where it was. -/
def StaysPut : Prop :=
  ∃ s m l, Way P N ((s, m) :: l) ∧ Progresses P l ∧
    ∃ q ∈ l.find? fun q => q.1 = s, m.offset = q.2.offset

variable {P N}

/-! ## Instances and ways -/

omit [DecidableEq S] in
theorem Way.exists_initial {w : List (S × ValueMap H E)} (h : Way P N w) :
    ∃ initial, N.initial = some initial := by
  induction h with
  | start hinit => exact ⟨_, hinit⟩
  | step _ _ _ ih => exact ih

omit [DecidableEq H] in
theorem progress_of_checkLoops {i : ParserStateInfo S H E} {s : S} (hs : i.state = .state s)
    (h : checkLoops P i = none) : ∀ q ∈ i.predecessors.find? fun q => q.1 = s,
      i.before.offset ≠ q.2.offset ∧ headerValidityChange P q.2 i.before = true := by
  obtain ⟨state, l, m⟩ := i
  obtain rfl : state = .state s := hs
  exact checkLoops_eq_none_iff.mp h

/-- An instance that is reached has gone a way. -/
theorem way_of_reach {initial : E} (hinit : N.initial = some initial) {i : ParserStateInfo S H E}
    (h : Relation.ReflTransGen (Next P N) (startInfo P initial) i) :
    (∀ s, i.state = .state s → Way P N ((s, i.before) :: i.predecessors)) ∧
      Progresses P i.predecessors := by
  induction h with
  | refl =>
      refine ⟨fun s hs => ?_, trivial⟩
      obtain rfl := Parsing.Target.state.inj hs
      exact .start hinit
  | tail _ hnext ih =>
      obtain ⟨hcheck, s, m, t, hs, hexec, ht, rfl⟩ := next_iff.mp hnext
      refine ⟨?_, ?_, ih.2⟩
      · rintro u rfl
        exact .step (ih.1 s hs) hexec ht
      · exact progress_of_checkLoops hs hcheck

theorem next_of_way {s t : S} {m m' : ValueMap H E} {l : List (S × ValueMap H E)}
    (h : Way P N ((t, m') :: (s, m) :: l)) (hprog : Progresses P ((s, m) :: l)) :
    Next P N ⟨.state s, l, m⟩ ⟨.state t, (s, m) :: l, m'⟩ := by
  cases h with
  | step _ hexec ht =>
      exact next_iff.mpr ⟨checkLoops_eq_none_iff.mpr hprog.1, s, m', .state t, rfl, hexec, ht, rfl⟩

omit [DecidableEq S] in
theorem Way.tail {p q : S × ValueMap H E} {l : List (S × ValueMap H E)}
    (h : Way P N (p :: q :: l)) : Way P N (q :: l) := by
  cases h with
  | step h _ _ => exact h

/-- The instances on a part of a way. -/
theorem transGen_of_way {s t : S} {m m' : ValueMap H E} {l l' : List (S × ValueMap H E)}
    (h : Way P N ((t, m') :: (l' ++ (s, m) :: l)))
    (hprog : Progresses P (l' ++ (s, m) :: l)) :
    Relation.TransGen (Next P N) ⟨.state s, l, m⟩ ⟨.state t, l' ++ (s, m) :: l, m'⟩ := by
  induction l' generalizing t m' with
  | nil => exact .single (next_of_way h hprog)
  | cons p l' ih => exact .tail (ih h.tail hprog.2) (next_of_way h hprog)

/-- The instance at the end of a way is reached. -/
theorem reach_of_way {initial : E} (hinit : N.initial = some initial) {s : S} {m : ValueMap H E}
    {l : List (S × ValueMap H E)} (h : Way P N ((s, m) :: l)) (hprog : Progresses P l) :
    Relation.ReflTransGen (Next P N) (startInfo P initial) ⟨.state s, l, m⟩ := by
  induction l generalizing s m with
  | nil =>
      cases h with
      | start hinit' =>
          rw [hinit, Option.some.injEq] at hinit'
          rw [hinit']
          exact .refl
  | cons p l ih => exact .tail (ih h.tail hprog.2) (next_of_way h hprog)

theorem predecessors_of_transGen {i j : ParserStateInfo S H E} {s : S} (hs : i.state = .state s)
    (h : Relation.TransGen (Next P N) i j) :
    ∃ l', j.predecessors = l' ++ (s, i.before) :: i.predecessors := by
  induction h with
  | single hnext =>
      obtain ⟨-, s', m, t, hs', -, -, rfl⟩ := next_iff.mp hnext
      obtain rfl := Parsing.Target.state.inj (hs.symm.trans hs')
      exact ⟨[], rfl⟩
  | tail _ hnext ih =>
      obtain ⟨l', hl'⟩ := ih
      obtain ⟨-, u, m, t, -, -, -, rfl⟩ := next_iff.mp hnext
      exact ⟨(u, _) :: l', by rw [hl', List.cons_append]⟩

omit [DecidableEq S] [DecidableEq H] in
theorem bounded_startInfo (initial : E) : Bounded (startInfo P initial) :=
  ⟨by show (0 : ℕ) < 2 ^ 32; decide, fun _ hq => absurd hq List.not_mem_nil⟩

/-! ## The worklist -/

theorem recurs_iff_comesBack {initial : E} (hinit : N.initial = some initial) :
    Recurrence.Recurs (Next P N) ParserStateInfo.situation (startInfo P initial) ↔
      ComesBack P N := by
  constructor
  · rintro ⟨i, j, hi, hij, heq⟩
    obtain ⟨k, hik, -⟩ := Relation.TransGen.head'_iff.mp hij
    obtain ⟨hcheck, s, -, -, hs, -⟩ := next_iff.mp hik
    obtain ⟨l', hl'⟩ := predecessors_of_transGen hs hij
    have hj := hi.trans hij.to_reflTransGen
    have hbi := respects_situation.keeps_reflTransGen hi (bounded_startInfo initial)
    have hbj := respects_situation.keeps_reflTransGen hj (bounded_startInfo initial)
    obtain ⟨hway, hprog⟩ := way_of_reach hinit hj
    obtain ⟨state, l, m⟩ := i
    obtain rfl : state = .state s := hs
    obtain ⟨state', l'', m'⟩ := j
    obtain rfl : l'' = l' ++ (s, m) :: l := hl'
    cases state' with
    | accept => exact absurd heq.symm (Option.some_ne_none _)
    | reject => exact absurd heq.symm (Option.some_ne_none _)
    | state s' =>
        have heq := Option.some.inj heq
        obtain rfl : s' = s := congrArg Situation.state heq
        exact ⟨s', m, m', l, l', hway s' rfl,
          ⟨checkLoops_eq_none_iff.mp ((checkLoops_congr hbj hbi heq).trans hcheck), hprog⟩, heq⟩
  · rintro ⟨s, m, m', l, l', hway, hprog, heq⟩
    have hpart : ∀ l' : List (S × ValueMap H E), Progresses P (l' ++ (s, m) :: l) →
        Progresses P l := by
      intro l' h
      induction l' with
      | nil => exact h.2
      | cons p l' ih => exact ih h.2
    have hpart' : ∀ {l' : List (S × ValueMap H E)} {p : S × ValueMap H E},
        Way P N (p :: (l' ++ (s, m) :: l)) → Way P N ((s, m) :: l) := by
      intro l'
      induction l' with
      | nil => exact fun h => h.tail
      | cons q l' ih => exact fun h => ih h.tail
    exact ⟨⟨.state s, l, m⟩, ⟨.state s, _, m'⟩, reach_of_way hinit (hpart' hway)
      (hpart l' hprog.2), transGen_of_way hway hprog.2, congrArg some heq⟩

/-- **The worklist becomes empty** unless a way comes back. -/
theorem empties_iff [Finite S] [Finite H] [Finite E] :
    (∃ fuel, (run P N fuel).isSome) ↔ ¬ ComesBack P N := by
  cases hinit : N.initial with
  | none =>
      have hrun : (run P N 0).isSome := by rw [run, hinit]; rfl
      refine iff_of_true ⟨0, hrun⟩ ?_
      rintro ⟨s, m, m', l, l', hway, -⟩
      obtain ⟨initial, hinit'⟩ := hway.exists_initial
      exact absurd (hinit.symm.trans hinit') (Option.some_ne_none initial).symm
  | some initial =>
      have hrun : ∀ fuel, (run P N fuel).isSome =
          (Worklist.exhaust (fun i => (visit P N i).next) fuel [startInfo P initial]).isSome := by
        intro fuel
        rw [run, hinit]
        exact Option.isSome_map
      simp only [hrun]
      rw [Worklist.exists_isSome_exhaust_iff, List.forall_mem_singleton,
        ← recurs_iff_comesBack hinit]
      exact respects_situation.acc_iff (bounded_startInfo initial)

/-! ## The report -/

omit [DecidableEq H] in
theorem checkLoops_eq_cycle_iff {i : ParserStateInfo S H E} :
    checkLoops P i = some .cycleWithoutExtracting ↔ ∃ s, i.state = .state s ∧
      ∃ q ∈ i.predecessors.find? fun q => q.1 = s, i.before.offset = q.2.offset := by
  obtain ⟨state, l, m⟩ := i
  cases state with
  | accept => simp [checkLoops]
  | reject => simp [checkLoops]
  | state s =>
      simp only [checkLoops, Parsing.Target.state.injEq, exists_eq_left']
      cases l.find? fun q => q.1 = s with
      | none => simp
      | some q =>
          by_cases hoff : m.offset = q.2.offset
          · simp [hoff]
          · cases hchange : headerValidityChange P q.2 m <;> simp [hoff, hchange]

/-- **Exactly when unrolling ends**, with a report of every cycle that does not move the
packet. -/
theorem unrolls_iff [Finite S] [Finite H] [Finite E] (values : List MapValue) :
    Unrolls P N values ↔
      ¬ ComesBack P N ∧ (StaysPut P N → ∀ v ∈ values, v ≠ .other) := by
  constructor
  · rintro ⟨hempties, hreports⟩
    refine ⟨empties_iff.mp hempties, ?_⟩
    rintro ⟨s, m, l, hway, hprog, q, hq, hoff⟩
    obtain ⟨initial, hinit⟩ := hway.exists_initial
    exact isSome_reportCycle.mp (hreports initial hinit _ (reach_of_way hinit hway hprog)
      (checkLoops_eq_cycle_iff.mpr ⟨s, rfl, q, hq, hoff⟩))
  · rintro ⟨hback, hstays⟩
    refine ⟨empties_iff.mpr hback, fun initial hinit i hi hcycle => ?_⟩
    obtain ⟨s, hs, q, hq, hoff⟩ := checkLoops_eq_cycle_iff.mp hcycle
    obtain ⟨hway, hprog⟩ := way_of_reach hinit hi
    exact isSome_reportCycle.mpr (hstays ⟨s, _, _, hway s hs, hprog, q, hq, hoff⟩)

end Interpreter

/-! ## A validity in a longer pattern -/

/-- Both states extract header `false` and drop it again; state `true` makes header `true` valid,
and state `false` makes it invalid. -/
def togglingParser : ParserDecl Bool Bool Empty Empty Empty where
  headers := [false, true]
  elements := nofun
  fields := fun _ => [.bits 8]
  elementFields := nofun
  fields_of_mem_elements := nofun
  start := true
  components := fun s =>
    [.extract (.header false), .setValid (.header false) false, .setValid (.header true) s]
  selectCases := fun _ => [.state true, .state false, .accept]

/-- The parser has no variables. -/
def togglingScalars : Scalars Bool Empty Empty Empty Unit togglingParser.elements where
  initial := some ()
  index := nofun
  collapse := nofun
  effect := fun _ _ m => m
  check := fun _ _ c => nomatch c
  exception_of_check := fun {_ _ c} => nomatch c

/-- The map after `n` states, the last of which was `b`. -/
def toggled (n : ℕ) (b : Bool) : ValueMap Bool Unit where
  offset := 8 * n
  header h := ⟨.constant (h && b), if h || n = 0 then none else some (8 * (n - 1), 8 * n)⟩
  scalars := ()

theorem distance_toggled (n k : ℕ) (b c : Bool) :
    distance (toggled n b) (toggled (n + k) c) = ((8 * k : ℕ) : ZMod (2 ^ 32)) := by
  rw [distance, toggled, toggled]
  dsimp only
  rw [Nat.mul_add, Nat.cast_add, add_sub_cancel_left]

theorem executeStatements_toggled (s b : Bool) {n : ℕ} (hn : 8 * (n + 1) < 2 ^ 32) :
    executeStatements togglingParser togglingScalars (togglingParser.components s) (toggled n b) =
      .ok (toggled (n + 1) s) := by
  have hoff : unsigned (8 * n + getWidth [.bits 8]) = 8 * (n + 1) := Nat.mod_eq_of_lt hn
  have hexec : executeStatements togglingParser togglingScalars (togglingParser.components s)
      (toggled n b) = .ok
        { offset := unsigned (8 * n + getWidth [.bits 8])
          header := fun h => ⟨.constant (h && s), if h then none else
            some (8 * n, unsigned (8 * n + getWidth [.bits 8]))⟩
          scalars := () } := by
    refine congrArg Except.ok (congr (congrArg (ValueMap.mk _) (funext fun h => ?_)) rfl)
    cases h <;> rfl
  rw [hexec, hoff, toggled]
  refine congrArg Except.ok (congr (congrArg (ValueMap.mk _) (funext fun h => ?_)) rfl)
  cases h <;> simp

theorem comesBack_togglingParser : ComesBack togglingParser togglingScalars := by
  have hstep : ∀ {s t b : Bool} {n : ℕ} {l : List (Bool × ValueMap Bool Unit)},
      Way togglingParser togglingScalars ((s, toggled n b) :: l) → 8 * (n + 1) < 2 ^ 32 →
      Way togglingParser togglingScalars ((t, toggled (n + 1) s) :: (s, toggled n b) :: l) := by
    intro s t b n l h hn
    refine .step h (executeStatements_toggled s b hn) ?_
    cases t <;> simp [togglingParser]
  have hstart : Way togglingParser togglingScalars [(true, toggled 0 false)] := by
    have hmap : toggled 0 false = (startInfo togglingParser ()).before :=
      congr (congrArg (ValueMap.mk 0) (funext fun h => by cases h <;> rfl)) rfl
    rw [hmap]
    exact .start rfl
  have hway : Way togglingParser togglingScalars ((true, toggled 8 false) ::
      ([(false, toggled 7 false), (false, toggled 6 true), (true, toggled 5 true)] ++
        (true, toggled 4 false) :: [(false, toggled 3 false), (false, toggled 2 true),
          (true, toggled 1 true), (true, toggled 0 false)])) := by
    iterate 8 refine hstep ?_ (by decide)
    exact hstart
  refine ⟨true, _, _, _, _, hway, by decide, ?_⟩
  refine Situation.ext rfl rfl rfl (funext fun t => ?_)
  cases t with
  | false =>
      exact congrArg some
        (Prod.ext ((distance_toggled 7 1 _ _).trans (distance_toggled 3 1 _ _).symm) rfl)
  | true =>
      exact congrArg some
        (Prod.ext ((distance_toggled 5 3 _ _).trans (distance_toggled 1 3 _ _).symm) rfl)

/-- The interpreter does not come to an end on this parser. -/
theorem not_unrolls_togglingParser :
    ¬ ∃ values : List MapValue, Unrolls togglingParser togglingScalars values := by
  rintro ⟨values, h⟩
  exact empties_iff.mp h.empties comesBack_togglingParser

/-! ## A loop that ends -/

/-- A label is extracted once, and in the clone of its state the extraction is an exception. -/
theorem way_mplsParser {w : List (Unit × ValueMap Unit Unit)} (h : Way mplsParser mplsScalars w) :
    w = [((), (startInfo mplsParser ()).before)] ∨
      ∃ m, w = [((), m), ((), (startInfo mplsParser ()).before)] ∧ m.offset = 32 ∧
        m.valid () = .constant true := by
  induction h with
  | start _ => exact Or.inl rfl
  | @step s t m₁ m₂ l _ hexec _ ih =>
      rcases ih with heq | ⟨m, heq, -, hvalid⟩
      · obtain ⟨hfirst, rfl⟩ := List.cons.inj heq
        obtain ⟨rfl, rfl⟩ := Prod.mk.inj hfirst
        obtain rfl := Except.ok.inj hexec
        exact Or.inr ⟨_, rfl, rfl, rfl⟩
      · obtain ⟨hfirst, rfl⟩ := List.cons.inj heq
        obtain ⟨rfl, rfl⟩ := Prod.mk.inj hfirst
        have herror : executeStatements mplsParser mplsScalars (mplsParser.components ()) m₁ =
            .error .exception := by
          simp [executeStatements, executeStatement, extract, evaluate, mplsParser,
            ParserDecl.typeOf, isFixedWidth, FieldType.isFixedWidth, HeaderValue.valid, hvalid]
        cases herror.symm.trans hexec

theorem unrolls_mplsParser :
    Unrolls mplsParser mplsScalars [.other, .pkt false, .other] := by
  refine (unrolls_iff _).mpr ⟨?_, ?_⟩
  · rintro ⟨s, m, m', l, l', hway, -, heq⟩
    have hsame : m'.valid () = m.valid () := congrFun (congrArg Situation.valid heq) ()
    rcases way_mplsParser hway with h | ⟨n, h, -, hvalid⟩
    · simp at h
    · cases l' with
      | nil =>
          obtain ⟨hfirst, hrest⟩ := List.cons.inj h
          obtain ⟨-, rfl⟩ := Prod.mk.inj hfirst
          obtain ⟨hsecond, -⟩ := List.cons.inj hrest
          obtain ⟨-, rfl⟩ := Prod.mk.inj hsecond
          rw [hvalid] at hsame
          exact absurd hsame (by decide)
      | cons p l' => simp at h
  · rintro ⟨s, m, l, hway, -, q, hq, hoff⟩
    rcases way_mplsParser hway with h | ⟨n, h, hn, -⟩
    · obtain ⟨-, rfl⟩ := List.cons.inj h
      exact absurd hq (by simp)
    · obtain ⟨hfirst, rfl⟩ := List.cons.inj h
      obtain ⟨-, rfl⟩ := Prod.mk.inj hfirst
      obtain rfl : q = ((), (startInfo mplsParser ()).before) := by
        simpa using (List.mem_of_find?_eq_some hq)
      rw [hn] at hoff
      exact absurd hoff (by decide)

end Unrolling
end MicroP4
