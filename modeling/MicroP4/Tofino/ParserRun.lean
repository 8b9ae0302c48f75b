import Mathlib.Algebra.BigOperators.Intervals
import Mathlib.Algebra.Order.BigOperators.Group.Finset
import Mathlib.Data.List.GetD
import Mathlib.Tactic.FinCases
import MicroP4.Tofino.ArchParser

/-!
# What a generated parser loads

The two generated parsers differ in how they reach `statesName[0]` and agree from
there on, so the loop over the stacks is treated once, for every list of states that
declares the shared ones (`HasBody`).

* `accepts_parseStack_iff`: the state of stack `i` is left after `k` rounds exactly
  when the counter first reads zero after `k` decrements; every round loads one header.
* `accepts_body`: if every counter counts the headers the analysis asks for and the
  input is long enough, the body accepts and header `x` of stack `i` is the pair of
  bytes number `stackSize * i + x`.
* `firesAt_of_accepts_body`: conversely a run that accepts has let every counter run
  down, and has read two bytes for each header it loaded.
-/

namespace MicroP4
namespace Tofino

open ExtractCounts

variable {K : ParserCounter} {S : StackShape} {L : HdrStacks} {T : Target}
variable {E : ExtractCounts} {P : List ParserState}

/-! ## Single steps -/

theorem accepts_accept_iff {c c' : ParserConfig K} :
    Accepts S L T P .accept c c' ↔ c' = c := by
  constructor
  · rintro ⟨fuel, h⟩
    cases fuel with
    | zero => simp [runParser] at h
    | succ n =>
      rw [runParser, if_pos rfl] at h
      exact (Option.some.inj h).symm
  · rintro rfl
    exact ⟨1, by rw [runParser, if_pos rfl]⟩

/-- A run from a declared state executes the state and goes on where its transition
leads. -/
theorem accepts_iff_of_find {s : StateName} {st : ParserState} (hs : s ≠ .accept)
    (hf : findState P s = some st) {c c' : ParserConfig K} :
    Accepts S L T P s c c' ↔ ∃ c₁, execAll S L T st.components c = some c₁ ∧
      Accepts S L T P (st.transition.next c₁) c₁ c' := by
  constructor
  · rintro ⟨fuel, h⟩
    cases fuel with
    | zero => simp [runParser] at h
    | succ n =>
      rw [runParser, if_neg hs, hf] at h
      simp only at h
      cases he : execAll S L T st.components c with
      | none => rw [he] at h; simp at h
      | some c₁ =>
        rw [he] at h
        exact ⟨c₁, rfl, n, h⟩
  · rintro ⟨c₁, he, n, h⟩
    refine ⟨n + 1, ?_⟩
    rw [runParser, if_neg hs, hf]
    simp only [he]
    exact h

theorem not_accepts_of_find_none {s : StateName} (hs : s ≠ .accept)
    (hf : findState P s = none) {c c' : ParserConfig K} : ¬ Accepts S L T P s c c' := by
  rintro ⟨fuel, h⟩
  cases fuel with
  | zero => simp [runParser] at h
  | succ n =>
    rw [runParser, if_neg hs, hf] at h
    simp at h

/-! ## Looking states up -/

theorem stateNameAt_of_lt {i : ℕ} (hi : i < E.nc) : E.stateNameAt i = .parseStack i := by
  rw [stateNameAt, statesName, List.getD_append _ _ _ _ (by simpa using hi)]
  rw [List.getD_eq_getElem _ _ (by simpa using hi)]
  simp

theorem stateNameAt_nc :
    E.stateNameAt E.nc = if E.extctResidualByteHdr > 0 then .parseResidual else .accept := by
  rw [stateNameAt, statesName, List.getD_append_right _ _ _ _ (by simp)]
  simp

/-- What the stack loop needs of a list of states: each stack's state is declared, and
the state of the trailing byte is declared under its name only if there is a stack. -/
structure HasBody (E : ExtractCounts) (P : List ParserState) : Prop where
  parseStack : ∀ i, i < E.nc → findState P (.parseStack i) = some (E.parseStackState i)
  parseResidual : findState P .parseResidual =
    if 0 < E.nc ∧ 0 < E.extctResidualByteHdr then some E.residualState else none

theorem findState_append_of_forall {P Q : List ParserState} {s : StateName}
    (h : ∀ st ∈ P, st.name ≠ s) : findState (P ++ Q) s = findState Q s := by
  rw [findState, findState, List.find?_append]
  have hn : P.find? (fun st => decide (st.name = s)) = none := by
    rw [List.find?_eq_none]
    intro st hst
    simpa using h st hst
  rw [hn, Option.none_or]

theorem findState_parseStackStates {i : ℕ} : ∀ {n a : ℕ}, a + n ≤ E.nc →
    findState ((List.range' a n).map E.parseStackState) (.parseStack i) =
      if a ≤ i ∧ i < a + n then some (E.parseStackState i) else none
  | 0, a, _ => by
      rw [if_neg (by omega)]
      rfl
  | n + 1, a, h => by
      have hname : (E.parseStackState a).name = .parseStack a := stateNameAt_of_lt (by omega)
      rw [List.range'_succ, List.map_cons, findState, List.find?_cons, hname]
      by_cases hi : i = a
      · subst hi
        rw [if_pos (by omega)]
        simp
      · have hb : decide (StateName.parseStack a = StateName.parseStack i) = false := by
          simpa using fun h => hi h.symm
        rw [hb]
        have ih := findState_parseStackStates (i := i) (n := n) (a := a + 1) (by omega)
        rw [findState] at ih
        rw [ih]
        have hc : (a + 1 ≤ i ∧ i < a + 1 + n) ↔ (a ≤ i ∧ i < a + (n + 1)) := by omega
        simp only [hc]

/-- The body declares the shared states. -/
theorem hasBody_append {Q : List ParserState}
    (hs : ∀ st ∈ Q, ∀ i, st.name ≠ .parseStack i) (hr : ∀ st ∈ Q, st.name ≠ .parseResidual) :
    HasBody E (Q ++ E.bodyStates) where
  parseStack i hi := by
    rw [findState_append_of_forall fun st hst => hs st hst i, bodyStates, List.range_eq_range']
    rw [findState, List.find?_append]
    have h := findState_parseStackStates (E := E) (i := i) (n := E.nc) (a := 0) (by omega)
    rw [if_pos (by omega), findState] at h
    rw [h]
    rfl
  parseResidual := by
    rw [findState_append_of_forall hr, bodyStates, findState_append_of_forall]
    · by_cases he : 0 < E.extctResidualByteHdr
      · rw [if_pos he, findState, List.find?_singleton]
        by_cases hn : E.nc = 0
        · have hc : ¬ (0 < E.nc ∧ 0 < E.extctResidualByteHdr) := by omega
          rw [if_neg hc]
          simp [residualState, hn]
        · have hc : 0 < E.nc ∧ 0 < E.extctResidualByteHdr := by omega
          rw [if_pos hc]
          have hname : E.residualState.name = .parseResidual := by
            simp only [residualState]
            rw [if_neg hn, stateNameAt_nc, if_pos he]
          simp [hname]
      · have hc : ¬ (0 < E.nc ∧ 0 < E.extctResidualByteHdr) := by omega
        rw [if_neg (by simpa using he), if_neg hc]
        rfl
    · intro st hst
      rw [List.mem_map] at hst
      obtain ⟨i, hi, rfl⟩ := hst
      have hname : (E.parseStackState i).name = .parseStack i :=
        stateNameAt_of_lt (by simpa using hi)
      rw [hname]
      simp

theorem hasBody_ingress : HasBody E E.createTofinoIngressParser := by
  refine hasBody_append ?_ ?_
  · intro st hst i
    fin_cases hst <;> simp
  · intro st hst
    fin_cases hst <;> simp

theorem hasBody_egress : HasBody E (E.createTofinoEgressParser S) := by
  refine hasBody_append ?_ ?_
  · intro st hst i
    fin_cases hst
    simp
  · intro st hst
    fin_cases hst
    simp

/-! ## Loading one stack -/

/-- Pair `k` of the bytes of `p`, first byte high. -/
def word (p : List Byte) (k : ℕ) : BitVec 16 := p.getD (2 * k) 0 ++ p.getD (2 * k + 1) 0

namespace ParserConfig

/-- One round of the state of stack `i`. -/
def loadOne (i : ℕ) (c : ParserConfig K) : ParserConfig K :=
  { c with
    pin := c.pin.drop 2
    counters := Function.update c.counters i (K.decrement 1 (c.counters i))
    hdrStack := Function.update c.hdrStack i (c.hdrStack i ++ [word c.pin 0]) }

/-- `k` rounds of the state of stack `i`. -/
def load (i k : ℕ) (c : ParserConfig K) : ParserConfig K := (loadOne i)^[k] c

variable {i j k : ℕ} {c : ParserConfig K}

@[simp] theorem pin_loadOne : (c.loadOne i).pin = c.pin.drop 2 := rfl

@[simp] theorem counters_loadOne :
    (c.loadOne i).counters i = K.decrement 1 (c.counters i) :=
  Function.update_self i _ _

@[simp] theorem hdrStack_loadOne :
    (c.loadOne i).hdrStack i = c.hdrStack i ++ [word c.pin 0] :=
  Function.update_self i _ _

theorem counters_loadOne_of_ne (h : j ≠ i) : (c.loadOne i).counters j = c.counters j :=
  Function.update_of_ne h _ _

theorem hdrStack_loadOne_of_ne (h : j ≠ i) : (c.loadOne i).hdrStack j = c.hdrStack j :=
  Function.update_of_ne h _ _

@[simp] theorem load_zero : c.load i 0 = c := rfl

theorem load_succ : c.load i (k + 1) = (c.loadOne i).load i k := rfl

theorem pin_load : (c.load i k).pin = c.pin.drop (2 * k) := by
  induction k generalizing c with
  | zero => simp
  | succ k ih =>
    rw [load_succ, ih, pin_loadOne, List.drop_drop]
    congr 1
    omega

theorem counters_load_of_ne (h : j ≠ i) : (c.load i k).counters j = c.counters j := by
  induction k generalizing c with
  | zero => rfl
  | succ k ih => rw [load_succ, ih, counters_loadOne_of_ne h]

theorem hdrStack_load_of_ne (h : j ≠ i) : (c.load i k).hdrStack j = c.hdrStack j := by
  induction k generalizing c with
  | zero => rfl
  | succ k ih => rw [load_succ, ih, hdrStack_loadOne_of_ne h]

theorem hdrStack_load :
    (c.load i k).hdrStack i = c.hdrStack i ++ (List.range k).map (word c.pin) := by
  induction k generalizing c with
  | zero => simp
  | succ k ih =>
    rw [load_succ, ih, List.range_succ_eq_map]
    simp only [hdrStack_loadOne, pin_loadOne, List.append_assoc, List.singleton_append,
      List.map_cons, List.map_map]
    congr 2
    apply List.map_congr_left
    intro x _
    simp only [word, Function.comp_apply, List.getD_eq_getElem?_getD, List.getElem?_drop]
    rw [show 2 + 2 * x = 2 * x.succ by omega, show 2 + (2 * x + 1) = 2 * x.succ + 1 by omega]

end ParserConfig

/-- One round of the state of a stack, as a statement about `execAll`. -/
theorem execAll_parseStackState {i : ℕ} {c c₁ : ParserConfig K} :
    execAll S L T (E.parseStackState i).components c = some c₁ ↔
      2 ≤ c.pin.length ∧ (c.hdrStack i).length < L.declaredSize S i ∧ c₁ = c.loadOne i := by
  simp only [parseStackState, execAll, List.foldlM_cons, List.foldlM_nil, ParserStat.exec,
    Option.bind_eq_bind, Option.bind_some, Option.pure_def]
  by_cases hl : (c.hdrStack i).length < L.declaredSize S i
  · rw [if_pos hl]
    rcases hp : c.pin with _ | ⟨b₀, _ | ⟨b₁, rest⟩⟩
    · simp
    · simp
    · simp only [Option.bind_some, Option.some.injEq, List.length_cons]
      have hw : word c.pin 0 = b₀ ++ b₁ := by simp [word, hp]
      constructor
      · rintro rfl
        refine ⟨by omega, hl, ?_⟩
        rw [ParserConfig.loadOne, hw, hp]
        rfl
      · rintro ⟨-, -, rfl⟩
        rw [ParserConfig.loadOne, hw, hp]
        rfl
  · rw [if_neg hl]
    simp [hl]

/-- **The state of stack `i` runs its counter down and loads a header each round.** -/
theorem accepts_parseStack_iff (hP : HasBody E P) {i : ℕ} (hi : i < E.nc)
    {c c' : ParserConfig K} :
    Accepts S L T P (.parseStack i) c c' ↔
      ∃ k, K.firesAt k (c.counters i) = true ∧ 2 * k ≤ c.pin.length ∧
        (c.hdrStack i).length + k ≤ L.declaredSize S i ∧
        Accepts S L T P (E.stateNameAt (i + 1)) (c.load i k) c' := by
  have hstep : ∀ {d d' : ParserConfig K}, Accepts S L T P (.parseStack i) d d' ↔
      ∃ d₁, execAll S L T (E.parseStackState i).components d = some d₁ ∧
        Accepts S L T P ((E.parseStackState i).transition.next d₁) d₁ d' :=
    fun {_ _} => accepts_iff_of_find (by simp) (hP.parseStack i hi)
  have hnext : ∀ d : ParserConfig K, (E.parseStackState i).transition.next d =
      if K.isZero (d.counters i) then E.stateNameAt (i + 1) else .parseStack i := by
    intro d
    rw [parseStackState, Transition.next, stateNameAt_of_lt hi]
  constructor
  · rintro ⟨fuel, h⟩
    induction fuel generalizing c with
    | zero => simp [runParser] at h
    | succ n ih =>
      rw [runParser, if_neg (by simp), hP.parseStack i hi] at h
      simp only at h
      cases he : execAll S L T (E.parseStackState i).components c with
      | none => rw [he] at h; simp at h
      | some c₁ =>
        rw [he] at h
        obtain ⟨hlen, hcap, rfl⟩ := execAll_parseStackState.1 he
        simp only [hnext, ParserConfig.counters_loadOne] at h
        by_cases hz : K.isZero (K.decrement 1 (c.counters i)) = true
        · rw [if_pos hz] at h
          refine ⟨1, ?_, by omega, by omega, n, h⟩
          simp [ParserCounter.firesAt, hz]
        · rw [if_neg hz] at h
          obtain ⟨k, hk, hlen', hcap', hacc⟩ := ih h
          rw [ParserConfig.counters_loadOne] at hk
          rw [ParserConfig.pin_loadOne, List.length_drop] at hlen'
          rw [ParserConfig.hdrStack_loadOne, List.length_append, List.length_singleton] at hcap'
          refine ⟨k + 1, ?_, by omega, by omega, ?_⟩
          · rw [ParserCounter.firesAt_succ, if_neg hz]
            exact hk
          · rw [ParserConfig.load_succ]
            exact hacc
  · rintro ⟨k, hk, hlen, hcap, hacc⟩
    induction k generalizing c with
    | zero => simp [ParserCounter.firesAt] at hk
    | succ k ih =>
      rw [hstep]
      refine ⟨c.loadOne i, execAll_parseStackState.2 ⟨by omega, by omega, rfl⟩, ?_⟩
      rw [hnext, ParserConfig.counters_loadOne]
      rw [ParserCounter.firesAt_succ] at hk
      by_cases hz : K.isZero (K.decrement 1 (c.counters i)) = true
      · rw [if_pos hz] at hk ⊢
        simp only [beq_iff_eq] at hk
        subst hk
        exact hacc
      · rw [if_neg hz] at hk ⊢
        refine ih ?_ ?_ ?_ ?_
        · rw [ParserConfig.counters_loadOne]
          exact hk
        · rw [ParserConfig.pin_loadOne, List.length_drop]
          omega
        · rw [ParserConfig.hdrStack_loadOne, List.length_append, List.length_singleton]
          omega
        · rw [ParserConfig.load_succ] at hacc
          exact hacc

/-! ## Loading all stacks -/

/-- **Enough input and the right counters load everything.**  Stack `j` receives
`count j` headers, starting behind what the stacks before it took. -/
theorem accepts_body (hP : HasBody E P) (hext : E.extctResidualByteHdr = 0) (count : ℕ → ℕ) :
    ∀ (d i : ℕ) (c : ParserConfig K), i + d = E.nc →
      (∀ j, i ≤ j → j < E.nc → K.firesAt (count j) (c.counters j) = true ∧
        c.hdrStack j = [] ∧ count j ≤ L.declaredSize S j) →
      2 * ∑ j ∈ Finset.Ico i E.nc, count j ≤ c.pin.length →
      ∃ c', Accepts S L T P (E.stateNameAt i) c c' ∧
        (∀ j, j < i → c'.hdrStack j = c.hdrStack j) ∧
        ∀ j, i ≤ j → j < E.nc → c'.hdrStack j =
          (List.range (count j)).map
            (word (c.pin.drop (2 * ∑ t ∈ Finset.Ico i j, count t)))
  | 0, i, c, hd, _, _ => by
      have hi : i = E.nc := hd
      subst hi
      refine ⟨c, ?_, fun j _ => rfl, fun j h₁ h₂ => absurd h₂ (by omega)⟩
      rw [stateNameAt_nc, if_neg (by omega)]
      exact accepts_accept_iff.2 rfl
  | d + 1, i, c, hd, hc, hlen => by
      have hi : i < E.nc := by omega
      have hsum : ∀ n, i < n → ∑ t ∈ Finset.Ico i n, count t =
          count i + ∑ t ∈ Finset.Ico (i + 1) n, count t :=
        fun n hn => Finset.sum_eq_sum_Ico_succ_bot hn count
      rw [hsum _ hi] at hlen
      obtain ⟨hfire, hnil, hcap⟩ := hc i le_rfl hi
      obtain ⟨c', hacc, hlow, hhigh⟩ := accepts_body hP hext count d (i + 1)
        (c.load i (count i)) (by omega)
        (by
          intro j h₁ h₂
          have hji : j ≠ i := by omega
          rw [ParserConfig.counters_load_of_ne hji, ParserConfig.hdrStack_load_of_ne hji]
          exact hc j (by omega) h₂)
        (by
          rw [ParserConfig.pin_load, List.length_drop]
          omega)
      refine ⟨c', ?_, ?_, ?_⟩
      · rw [stateNameAt_of_lt hi, accepts_parseStack_iff hP hi]
        refine ⟨count i, hfire, by omega, ?_, hacc⟩
        rw [hnil]
        simpa using hcap
      · intro j hj
        rw [hlow j (by omega), ParserConfig.hdrStack_load_of_ne (by omega)]
      · intro j h₁ h₂
        by_cases hji : j = i
        · subst hji
          rw [hlow j (by omega), ParserConfig.hdrStack_load, hnil]
          simp
        · rw [hhigh j (by omega) h₂, ParserConfig.pin_load, List.drop_drop,
            hsum j (by omega), ← Nat.mul_add]

/-- **An accepting run has run its counters down.**  The number of headers it left in
each stack is where that stack's counter first reads zero, and two bytes were read for
each of them. -/
theorem firesAt_of_accepts_body (hP : HasBody E P) :
    ∀ (d i : ℕ) (c c' : ParserConfig K), i + d = E.nc →
      (∀ j, i ≤ j → c.hdrStack j = []) → Accepts S L T P (E.stateNameAt i) c c' →
      (∀ j, i ≤ j → j < E.nc → K.firesAt (c'.hdrStack j).length (c.counters j) = true) ∧
      (∀ j, j < i ∨ E.nc ≤ j → c'.hdrStack j = c.hdrStack j) ∧
      2 * ∑ j ∈ Finset.Ico i E.nc, (c'.hdrStack j).length ≤ c.pin.length
  | 0, i, c, c', hd, _, hacc => by
      have hi : i = E.nc := hd
      subst hi
      refine ⟨fun j h₁ h₂ => absurd h₂ (by omega), ?_, by simp⟩
      rw [stateNameAt_nc] at hacc
      by_cases he : E.extctResidualByteHdr > 0
      · rw [if_pos he] at hacc
        by_cases hn : 0 < E.nc
        · have hf := hP.parseResidual
          rw [if_pos ⟨hn, he⟩] at hf
          obtain ⟨c₁, hexec, hacc⟩ := (accepts_iff_of_find (by simp) hf).1 hacc
          have hacc : Accepts S L T P .accept c₁ c' := hacc
          rw [accepts_accept_iff] at hacc
          subst hacc
          intro j _
          rcases hp : c.pin with _ | ⟨b, rest⟩
          · simp [residualState, execAll, ParserStat.exec, hp] at hexec
          · simp only [residualState, execAll, List.foldlM_cons, List.foldlM_nil,
              ParserStat.exec, hp, Option.bind_eq_bind, Option.bind_some, Option.pure_def,
              Option.some.injEq] at hexec
            rw [← hexec]
        · have hf := hP.parseResidual
          rw [if_neg (by omega)] at hf
          exact absurd hacc (not_accepts_of_find_none (by simp) hf)
      · rw [if_neg he, accepts_accept_iff] at hacc
        subst hacc
        exact fun j _ => rfl
  | d + 1, i, c, c', hd, hnil, hacc => by
      have hi : i < E.nc := by omega
      rw [stateNameAt_of_lt hi, accepts_parseStack_iff hP hi] at hacc
      obtain ⟨k, hfire, hlen, -, hacc⟩ := hacc
      obtain ⟨hfires, hsame, hread⟩ := firesAt_of_accepts_body hP d (i + 1) _ c' (by omega)
        (by
          intro j hj
          rw [ParserConfig.hdrStack_load_of_ne (by omega)]
          exact hnil j (by omega))
        hacc
      have hk : (c'.hdrStack i).length = k := by
        rw [hsame i (Or.inl (by omega)), ParserConfig.hdrStack_load, hnil i le_rfl]
        simp
      refine ⟨?_, ?_, ?_⟩
      · intro j h₁ h₂
        by_cases hji : j = i
        · subst hji
          rw [hk]
          exact hfire
        · rw [← ParserConfig.counters_load_of_ne (k := k) (c := c) hji]
          exact hfires j (by omega) h₂
      · intro j hj
        rw [hsame j (by omega), ParserConfig.hdrStack_load_of_ne (by omega)]
      · rw [ParserConfig.pin_load, List.length_drop] at hread
        rw [Finset.sum_eq_sum_Ico_succ_bot hi, hk]
        omega

end Tofino
end MicroP4
