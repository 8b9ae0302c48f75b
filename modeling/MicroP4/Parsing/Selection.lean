import MicroP4.Parsing.SelectKeys
import MicroP4.Parsing.TableRun

/-!
# Which action is selected

The parser follows the first case of each `select` that contains the value, and rejects where
none does.  The converted parser is right on a packet if every state it comes to leaves by a
case to a state or to `reject`, up to one with an unconditional transition to `accept`
(`Parser.Follows`).  A packet that is rejected because no case matches can also come out right:
if the trial of the remaining cases, of the states in front too, happens to reach `reject`
first.
-/

namespace MicroP4
namespace Parsing

open BitString Assignments

variable {S H F X : Type}

namespace Parser

variable (P : Parser S H F X) [DecidableEq H] [DecidableEq F] [DecidableEq X]

/-! ## What the parser does -/

section Choice

variable (st : ℕ → Word) (σ : Store H F X) (o : ℕ)

/-- The values of the `select` of an instance, where the parser evaluates it. -/
def selectValue (p : List ℕ) : List Value :=
  match P.targetOf p with
  | some (.state s) =>
      (P.transition s).selectExprs.map fun e => e.toExpr.eval (P.storeAt st σ o p)
  | _ => []

/-- The transition the parser takes. -/
def chosen (p : List ℕ) : Option ℕ :=
  match P.targetOf p with
  | some (.state s) =>
      match P.transition s with
      | .goto _ => some 0
      | .select _ cases => cases.findIdx? fun c => c.1.contains (P.selectValue st σ o p)
  | _ => none

/-- The action of the last instance on the path of the packet, from an instance on. -/
def lastAction : ℕ → List ℕ → ActName
  | 0, p => .inst o p
  | fuel + 1, p =>
      match P.chosen st σ o p with
      | none => .reject
      | some i =>
          match P.targetOf (i :: p) with
          | some .reject => .reject
          | some (.state _) => lastAction fuel (i :: p)
          | _ => .inst o p

/-- The last action rejects, or belongs to an instance further on the path. -/
theorem lastAction_eq (fuel : ℕ) (p : List ℕ) : P.lastAction st σ o fuel p = .reject ∨
    ∃ q, P.lastAction st σ o fuel p = .inst o q ∧ p <:+ q := by
  induction fuel generalizing p with
  | zero => exact Or.inr ⟨p, rfl, List.suffix_rfl⟩
  | succ fuel ih =>
      rw [lastAction]
      split
      · exact Or.inl rfl
      · rename_i i _
        split
        · exact Or.inl rfl
        · exact (ih (i :: p)).imp_right fun ⟨q, hq, hsuffix⟩ =>
            ⟨q, hq, (List.suffix_cons i p).trans hsuffix⟩
        · exact Or.inr ⟨p, rfl, List.suffix_rfl⟩

/-- A path all of whose states leave by a case to a state or to `reject`, with a key that
fits, up to one with an unconditional transition to `accept`. -/
inductive Follows : List ℕ → Prop
  | accept {p : List ℕ} {s : S} (hp : P.targetOf p = some (.state s))
      (ht : P.transition s = .goto .accept) : Follows p
  | reject {p : List ℕ} {s : S} {e : SelectExpr H F X} {cases : List (Keyset × Target S)} {i : ℕ}
      (hp : P.targetOf p = some (.state s)) (ht : P.transition s = .select [e] cases)
      (hkey : P.KeyFits p o e) (hi : P.chosen st σ o p = some i)
      (hnext : P.targetOf (i :: p) = some .reject) : Follows p
  | next {p : List ℕ} {s t : S} {e : SelectExpr H F X} {cases : List (Keyset × Target S)} {i : ℕ}
      (hp : P.targetOf p = some (.state s)) (ht : P.transition s = .select [e] cases)
      (hkey : P.KeyFits p o e) (hi : P.chosen st σ o p = some i)
      (hnext : P.targetOf (i :: p) = some (.state t)) (h : Follows (i :: p)) : Follows p

/-- Every key fits. -/
def KeysFit : Prop :=
  ∀ p s e cases, P.targetOf p = some (.state s) → P.transition s = .select [e] cases →
    P.KeyFits p o e

end Choice

/-! ## The path in the trial of the cases -/

section Trial

variable {P} {st : ℕ → Word} {σ : Store H F X} {o : ℕ}

/-- The case that is taken, and those in front of it. -/
theorem exists_case_of_chosen {p : List ℕ} {s : S} {es : List (SelectExpr H F X)}
    {cases : List (Keyset × Target S)} (hp : P.targetOf p = some (.state s))
    (ht : P.transition s = .select es cases) {i : ℕ} (hi : P.chosen st σ o p = some i) :
    ∃ c₁ c c₂, cases = c₁ ++ c :: c₂ ∧ c₁.length = i ∧
      c.1.contains (P.selectValue st σ o p) = true ∧
      ∀ c' ∈ c₁, c'.1.contains (P.selectValue st σ o p) = false := by
  have hfind : cases.findIdx? (fun c => c.1.contains (P.selectValue st σ o p)) = some i := by
    simpa [chosen, hp, ht] using hi
  obtain ⟨hlt, hc, hbefore⟩ := List.findIdx?_eq_some_iff_getElem.mp hfind
  refine ⟨cases.take i, cases[i], cases.drop (i + 1), ?_, ?_, hc, fun c' hc' => ?_⟩
  · rw [List.cons_getElem_drop_succ, List.take_append_drop]
  · rw [List.length_take]
    omega
  · obtain ⟨j, hj, rfl⟩ := List.mem_take_iff_getElem.mp hc'
    simpa using hbefore j (by omega)

theorem targetOf_of_chosen {p : List ℕ} {s : S} {es : List (SelectExpr H F X)}
    {cases : List (Keyset × Target S)} (hp : P.targetOf p = some (.state s))
    (ht : P.transition s = .select es cases) {i : ℕ} (hi : P.chosen st σ o p = some i) :
    ∃ t, P.targetOf (i :: p) = some t := by
  obtain ⟨c₁, c, c₂, rfl, rfl, -⟩ := exists_case_of_chosen hp ht hi
  refine ⟨c.2, ?_⟩
  rw [ParserDecl.targetOf, hp]
  simp [ht, Transition.targets]

/-- If the trial has the value of the parser, it starts with the case the parser takes, and
then only comes to names below other cases. -/
theorem stops_select {val : List ℕ → List Value} {p : List ℕ} {s : S}
    {es : List (SelectExpr H F X)} {cases : List (Keyset × Target S)}
    (hp : P.targetOf p = some (.state s)) (ht : P.transition s = .select es cases)
    (hval : val p = P.selectValue st σ o p) {i : ℕ} (hi : P.chosen st σ o p = some i)
    (fuel : ℕ) : ∃ rest, P.stops val o (fuel + 1) p = P.stops val o fuel (i :: p) ++ rest ∧
      ∀ a ∈ rest, a = .reject ∨ ∃ j q, a = .inst o q ∧ j ≠ i ∧ j :: p <:+ q := by
  obtain ⟨c₁, c, c₂, rfl, rfl, hc, hbefore⟩ := exists_case_of_chosen hp ht hi
  have hfront : ((c₁.zipIdx.map fun c => (c.1.1, c.2 :: p)).flatMap fun n =>
      if n.1.contains (val p) then P.stops val o fuel n.2 else []) = [] := by
    refine List.flatMap_eq_nil_iff.mpr fun n hn => ?_
    obtain ⟨c', hc', rfl⟩ := List.mem_map.mp hn
    rw [hval, if_neg]
    rw [hbefore c'.1 (List.fst_mem_of_mem_zipIdx hc')]
    exact Bool.false_ne_true
  refine ⟨((c₂.zipIdx (c₁.length + 1)).map fun c => (c.1.1, c.2 :: p)).flatMap fun n =>
    if n.1.contains (val p) then P.stops val o fuel n.2 else [], ?_, fun a ha => ?_⟩
  · rw [ParserDecl.stops, hp]
    simp only [ht, Transition.hasSelectExpression, if_true, Transition.nextParserStateInfo]
    rw [List.zipIdx_append, List.map_append, List.flatMap_append, hfront, List.nil_append,
      List.zipIdx_cons, List.map_cons, List.flatMap_cons, hval, if_pos hc, Nat.zero_add]
  · obtain ⟨n, hn, ha⟩ := List.mem_flatMap.mp ha
    obtain ⟨c', hc', rfl⟩ := List.mem_map.mp hn
    split at ha
    · rcases P.mem_stops ha with hreject | ⟨q, hq, hsuffix⟩
      · exact Or.inl hreject
      · refine Or.inr ⟨c'.2, q, hq, ?_, hsuffix⟩
        have hle := List.le_snd_of_mem_zipIdx hc'
        omega
    · exact absurd ha List.not_mem_nil

/-- With the values of keys that fit, the trial has the value of the parser. -/
theorem keyValue_eq {p : List ℕ} {s : S} {e : SelectExpr H F X} {cases : List (Keyset × Target S)}
    (hp : P.targetOf p = some (.state s)) (ht : P.transition s = .select [e] cases)
    (hkey : P.KeyFits p o e) :
    P.keyValue st (P.startStore σ o) o p = P.selectValue st σ o p := by
  rw [keyValue, selectValue, hp]
  simp only [ht, Transition.selectExprs, List.map_cons, List.map_nil]
  rw [P.eval_keyRhs st σ hkey]

/-- Along such a path the trial finds the action of the parser first. -/
theorem Follows.head?_stops {p : List ℕ} (h : P.Follows st σ o p) : ∀ {s : S} {fuel : ℕ},
    P.targetOf p = some (.state s) → P.rank s + 1 < fuel →
      (P.stops (P.keyValue st (P.startStore σ o) o) o fuel p).head? =
        some (P.lastAction st σ o fuel p) := by
  induction h with
  | @accept p s hp ht =>
      intro s' fuel hp' hfuel
      obtain ⟨fuel, rfl⟩ : ∃ m, fuel = m + 1 := ⟨fuel - 1, by omega⟩
      have hnext : P.targetOf (0 :: p) = some .accept := by
        rw [ParserDecl.targetOf, hp]
        simp [ht, Transition.targets]
      simp [ParserDecl.stops, hp, ht, Transition.hasSelectExpression, lastAction, chosen, hnext]
  | @reject p s e cases i hp ht hkey hi hnext =>
      intro s' fuel hp' hfuel
      obtain ⟨fuel, rfl⟩ : ∃ m, fuel = m + 1 + 1 := ⟨fuel - 2, by omega⟩
      obtain ⟨rest, hstops, -⟩ := stops_select hp ht (keyValue_eq hp ht hkey) hi (fuel + 1)
      rw [hstops, ParserDecl.stops, hnext, lastAction, hi]
      simp [hnext]
  | @next p s t e cases i hp ht hkey hi hnext h ih =>
      intro s' fuel hp' hfuel
      obtain ⟨fuel, rfl⟩ : ∃ m, fuel = m + 1 := ⟨fuel - 1, by omega⟩
      obtain ⟨rest, hstops, -⟩ := stops_select hp ht (keyValue_eq hp ht hkey) hi fuel
      have hrank : P.rank t < P.rank s' := P.rank_lt s' t (mem_targets hp' hnext)
      have hhead := ih hnext (show P.rank t + 1 < fuel by omega)
      rw [hstops, List.head?_append, hhead, lastAction, hi, Option.some_or]
      simp [hnext]

theorem cons_suffix_inj {p q : List ℕ} {i j : ℕ} (hi : i :: p <:+ q) (hj : j :: p <:+ q) :
    i = j := by
  have hsuffix := (List.suffix_of_suffix_length_le hi hj (by simp)).eq_of_length (by simp)
  exact (List.cons.inj hsuffix).1

theorem not_cons_suffix_self {p : List ℕ} {i : ℕ} : ¬ i :: p <:+ p := fun h =>
  Nat.not_succ_le_self _ h.length_le

/-- If every key fits and the trial finds the action of a state the parser accepts in first,
the path is of this kind. -/
theorem follows_of_head?_stops (hplain : P.Plain) (hkeys : P.KeysFit o) {q : List ℕ} {fuel : ℕ} :
    ∀ {p : List ℕ} {s : S}, P.targetOf p = some (.state s) → P.rank s + 1 < fuel →
      P.lastAction st σ o fuel p = .inst o q →
      (P.stops (P.keyValue st (P.startStore σ o) o) o fuel p).head? = some (.inst o q) →
      P.Follows st σ o p := by
  induction fuel with
  | zero => exact fun _ h => absurd h (Nat.not_lt_zero _)
  | succ fuel ih =>
      intro p s hp hfuel hlast hhead
      cases ht : P.transition s with
      | goto t =>
          have hq : q = p := by
            simpa [ParserDecl.stops, hp, ht, Transition.hasSelectExpression, eq_comm] using hhead
          have hnext : P.targetOf (0 :: p) = some t := by
            rw [ParserDecl.targetOf, hp]
            simp [ht, Transition.targets]
          have hchosen : P.chosen st σ o p = some 0 := by simp [chosen, hp, ht]
          rw [lastAction, hchosen] at hlast
          cases t with
          | accept => exact .accept hp ht
          | reject => simp [hnext] at hlast
          | state t =>
              -- the path goes on, but the trial has stopped
              simp only [hnext, hq] at hlast
              rcases P.lastAction_eq st σ o fuel (0 :: p) with h | ⟨q', h, hsuffix⟩
              · rw [h] at hlast
                cases hlast
              · rw [h] at hlast
                cases hlast
                exact absurd hsuffix not_cons_suffix_self
      | select es cases =>
          obtain ⟨⟨e, rfl⟩, -⟩ := hplain p s es cases hp ht
          have hkey := hkeys p s e cases hp ht
          cases hi : P.chosen st σ o p with
          | none =>
              rw [lastAction, hi] at hlast
              cases hlast
          | some i =>
              obtain ⟨t, hnext⟩ := targetOf_of_chosen hp ht hi
              obtain ⟨rest, hstops, hrest⟩ := stops_select hp ht (keyValue_eq hp ht hkey) hi fuel
              obtain ⟨fuel, rfl⟩ : ∃ m, fuel = m + 1 := ⟨fuel - 1, by omega⟩
              rw [hstops, List.head?_append] at hhead
              rw [lastAction, hi] at hlast
              simp only [hnext] at hlast
              -- the first stop below another case is not on the path
              have hother : ∀ {r : List ℕ}, rest.head? = some (.inst o r) →
                  ¬ i :: p <:+ r ∧ r ≠ p := by
                intro r hr
                obtain h | ⟨j, r', h, hne, hsuffix⟩ := hrest _ (List.mem_of_head? hr)
                · cases h
                · cases h
                  refine ⟨fun h => hne (cons_suffix_inj hsuffix h), ?_⟩
                  rintro rfl
                  exact not_cons_suffix_self hsuffix
              cases t with
              | accept =>
                  cases hlast
                  rw [ParserDecl.stops, hnext, List.head?_nil, Option.none_or] at hhead
                  exact absurd rfl (hother hhead).2
              | reject => cases hlast
              | state t =>
                  have hrank : P.rank t < P.rank s := P.rank_lt s t (mem_targets hp hnext)
                  refine .next hp ht hkey hi hnext (ih hnext (by omega) hlast ?_)
                  cases hstop : (P.stops (P.keyValue st (P.startStore σ o) o) o (fuel + 1)
                      (i :: p)).head? with
                  | some a => rwa [hstop, Option.some_or] at hhead
                  | none =>
                      rw [hstop, Option.none_or] at hhead
                      rcases P.lastAction_eq st σ o (fuel + 1) (i :: p) with h | ⟨q', h, hsuffix⟩
                      · rw [h] at hlast
                        cases hlast
                      · rw [h] at hlast
                        cases hlast
                        exact absurd hsuffix (hother hhead).1

end Trial

end Parser
end Parsing
end MicroP4
