import MicroP4.Parsing.Selection

/-!
# When the selected action is right

The entries of the table start from the start state, or at offset 0 from the first state with
a `select`, to which only unconditional transitions lead.
-/

namespace MicroP4
namespace Parsing

open BitString Assignments

variable {S H F X : Type}

namespace Parser

variable (P : Parser S H F X) [DecidableEq H] [DecidableEq F] [DecidableEq X]

/-! ## The first select -/

section Root

variable {P} {st : ℕ → Word} {σ : Store H F X} {o : ℕ}

omit [DecidableEq H] [DecidableEq F] [DecidableEq X] in
/-- Unconditional transitions lead from a state to one with a `select`, or out of the parser. -/
theorem exists_leads {fuel : ℕ} : ∀ {p : List ℕ} {s : S}, P.targetOf p = some (.state s) →
    P.rank s < fuel → P.Leads p → ∃ r t, P.Leads r ∧ P.targetOf r = some (.state t) ∧
      ((P.transition t).hasSelectExpression = true ∨
        ∃ g, P.transition t = .goto g ∧ ∀ t', g ≠ .state t') := by
  induction fuel with
  | zero => exact fun _ h => absurd h (Nat.not_lt_zero _)
  | succ fuel ih =>
      intro p s hp hfuel hleads
      cases ht : P.transition s with
      | select es cases => exact ⟨p, s, hleads, hp, Or.inl (by rw [ht]; rfl)⟩
      | goto g =>
          by_cases hg : ∃ t, g = .state t
          · obtain ⟨t, rfl⟩ := hg
            have hnext : P.targetOf (0 :: p) = some (.state t) := by
              rw [ParserDecl.targetOf, hp]
              simp [ht, Transition.targets]
            have hrank : P.rank t < P.rank s := P.rank_lt s t (mem_targets hp hnext)
            refine ih hnext (by omega) fun q hq hne => ?_
            by_cases hqp : q = p
            · exact ⟨s, _, hqp ▸ hp, ht⟩
            · exact hleads q ((List.suffix_cons_iff.mp hq).resolve_left hne) hqp
          · exact ⟨p, s, hleads, hp, Or.inr ⟨g, ht, fun t' h => hg ⟨t', h⟩⟩⟩

theorem lastAction_congr {m n : ℕ} : ∀ {p : List ℕ} {s : S}, P.targetOf p = some (.state s) →
    P.rank s < m → P.rank s < n → P.lastAction st σ o m p = P.lastAction st σ o n p := by
  induction m generalizing n with
  | zero => exact fun _ h => absurd h (Nat.not_lt_zero _)
  | succ m ih =>
      intro p s hp hm hn
      obtain ⟨n, rfl⟩ : ∃ k, n = k + 1 := ⟨n - 1, by omega⟩
      rw [lastAction, lastAction]
      cases P.chosen st σ o p with
      | none => rfl
      | some i =>
          dsimp only
          split
          · rfl
          · rename_i t hnext
            have hrank : P.rank t < P.rank s := P.rank_lt s t (mem_targets hp hnext)
            exact ih hnext (by omega) (by omega)
          · rfl

/-- The states in front of the root do not matter. -/
theorem lastAction_of_leads {root : List ℕ} {s₀ : S} (hleads : P.Leads root)
    (hroot : P.targetOf root = some (.state s₀)) {n : ℕ} (hn : P.rank s₀ < n) {m : ℕ} :
    ∀ {p : List ℕ} {s : S}, P.targetOf p = some (.state s) → P.rank s < m → p <:+ root →
      P.lastAction st σ o m p = P.lastAction st σ o n root := by
  induction m with
  | zero => exact fun _ h => absurd h (Nat.not_lt_zero _)
  | succ m ih =>
      intro p s hp hm hsuffix
      by_cases hne : p = root
      · rw [hne] at hp ⊢
        rw [hp] at hroot
        cases hroot
        exact lastAction_congr hp hm hn
      · obtain ⟨s', g, hs', hg⟩ := hleads p hsuffix hne
        obtain ⟨i, hi⟩ := exists_cons_suffix hsuffix hne
        obtain ⟨t, ht⟩ := P.exists_state_of_suffix hroot hi
        obtain rfl : s = s' := by
          rw [hp] at hs'
          cases hs'
          rfl
        obtain ⟨s₁, hs₁, hget⟩ := ParserDecl.targetOf_cons ht
        obtain rfl : s = s₁ := by
          rw [hp] at hs₁
          cases hs₁
          rfl
        rw [hg, Transition.targets] at hget
        obtain rfl : i = 0 := by
          have hlt := (List.getElem?_eq_some_iff.mp hget).1
          rw [List.length_singleton] at hlt
          omega
        have hrank : P.rank t < P.rank s := P.rank_lt s t (mem_targets hp ht)
        have hchosen : P.chosen st σ o p = some 0 := by simp [chosen, hp, hg]
        rw [lastAction, hchosen]
        simp only [ht]
        exact ih ht (by omega) hi

end Root

/-! ## The selected action -/

section Selection

variable [DecidableEq S]

/-- What the converted parser calls on a packet, at an initial offset, is the action of the
last instance on the path of the parser, and nothing else. -/
def Selects (initialOffsets : List ℕ) (o : ℕ) (st : ℕ → Word) (σ : Store H F X) : Prop :=
  ∃ c, P.convert initialOffsets = some c ∧
    c.called st (run ((P.initAction initialOffsets).map (Asgn.on st)) σ) =
      [P.lastAction st σ o (P.rank P.start + 2) []]

/-- The condition: the initial offsets are distinct, every `select` has one expression and a
case, and from the start state, or at offset 0 from the first `select`, the packet follows a
path of selects, or is rejected and the trial of the cases finds `reject` first. -/
structure MeetsSelection (initialOffsets : List ℕ) (o : ℕ) (st : ℕ → Word) (σ : Store H F X) :
    Prop where
  nodup : initialOffsets.Nodup
  plain : P.Plain
  follows : ∃ root s, P.targetOf root = some (.state s) ∧ P.Leads root ∧
    (root ≠ [] → initialOffsets = [0] ∧ (P.transition s).hasSelectExpression = true) ∧
    (initialOffsets = [0] → (P.transition s).hasSelectExpression = true ∨
      P.transition s = .goto .accept) ∧
    (P.Follows st σ o root ∨
      (P.KeysFit o ∧ P.lastAction st σ o (P.rank P.start + 2) [] = .reject ∧
        (P.stops (P.selectValue st σ o) o (P.rank P.start + 2) root).head? = some .reject))

variable {P} {initialOffsets : List ℕ} {o : ℕ} {st : ℕ → Word} {σ : Store H F X}

omit [DecidableEq H] [DecidableEq F] [DecidableEq X] [DecidableEq S] in
/-- The trial is the same for values that agree on the instances with a `select`. -/
theorem stops_congr {val val' : List ℕ → List Value} (hval : ∀ p s, P.targetOf p = some (.state s) →
    (P.transition s).hasSelectExpression = true → val p = val' p) (fuel : ℕ) :
    ∀ p, P.stops val o fuel p = P.stops val' o fuel p := by
  induction fuel with
  | zero => exact fun _ => rfl
  | succ fuel ih =>
      intro p
      rw [ParserDecl.stops, ParserDecl.stops]
      split
      · rename_i s hp
        by_cases hsel : (P.transition s).hasSelectExpression = true
        · rw [if_pos hsel, if_pos hsel, hval p s hp hsel]
          simp only [ih]
        · rw [if_neg hsel, if_neg hsel]
      · rfl
      · rfl

omit [DecidableEq S] in
theorem stops_selectValue (hplain : P.Plain) (hkeys : P.KeysFit o) (fuel : ℕ) (p : List ℕ) :
    P.stops (P.keyValue st (P.startStore σ o) o) o fuel p =
      P.stops (P.selectValue st σ o) o fuel p := by
  refine stops_congr (fun p s hp hsel => ?_) fuel p
  cases ht : P.transition s with
  | goto g =>
      rw [ht] at hsel
      cases hsel
  | select es cases =>
      obtain ⟨⟨e, rfl⟩, -⟩ := hplain p s es cases hp ht
      exact keyValue_eq hp ht (hkeys p s e cases hp ht)

omit [DecidableEq H] [DecidableEq F] [DecidableEq X] [DecidableEq S] in
theorem rank_le_start {p : List ℕ} {s : S} (hp : P.targetOf p = some (.state s)) :
    P.rank s ≤ P.rank P.start := by
  cases p with
  | nil =>
      cases hp
      exact Nat.le_refl _
  | cons i p => exact Nat.le_of_lt (P.rank_lt_start hp)

omit [DecidableEq H] [DecidableEq F] [DecidableEq X] [DecidableEq S] in
/-- Below a start state that leaves the parser there is nothing. -/
theorem order_eq_of_goto_accept (ht : P.transition P.start = .goto .accept) :
    ∀ p s, P.targetOf p = some (.state s) → p = [] := by
  intro p
  induction p with
  | nil => exact fun _ _ => rfl
  | cons i p ih =>
      intro s hp
      obtain ⟨s', hs', hget⟩ := ParserDecl.targetOf_cons hp
      obtain rfl := ih s' hs'
      cases hs'
      rw [ht] at hget
      have hmem := List.mem_of_getElem? hget
      cases List.mem_singleton.mp hmem

omit [DecidableEq H] [DecidableEq F] [DecidableEq X] in
theorem order_eq_nil (hnil : ∀ p s, P.targetOf p = some (.state s) → p = []) : P.order = [[]] := by
  have hall : ∀ p ∈ P.order, p = [] := fun p hp => by
    obtain ⟨s, hs⟩ := P.mem_order.mp hp
    exact hnil p s hs
  have hmem : [] ∈ P.order := P.mem_order.mpr ⟨P.start, rfl⟩
  have hnodup := P.nodup_order
  cases horder : P.order with
  | nil =>
      rw [horder] at hmem
      exact absurd hmem List.not_mem_nil
  | cons p l =>
      rw [horder] at hall hnodup
      obtain rfl := hall p List.mem_cons_self
      cases l with
      | nil => rfl
      | cons q l =>
          obtain rfl := hall q (List.mem_cons_of_mem _ List.mem_cons_self)
          exact absurd List.mem_cons_self (List.nodup_cons.mp hnodup).1

/-- Where the root has a `select`, or is the start state at other offsets than 0, the table
calls the first stop of the trial. -/
theorem selects_iff_stops (ho : o ∈ initialOffsets)
    (hσ : initialOffsets ≠ [0] → σ .currOffset = .num o) (hnodup : initialOffsets.Nodup)
    (hplain : P.Plain) {root : List ℕ} {s : S} (hs : P.targetOf root = some (.state s))
    (hroot : P.IsRoot initialOffsets root) :
    P.Selects initialOffsets o st σ ↔
      (P.stops (P.keyValue st (P.startStore σ o) o) o (P.rank P.start + 2) root).head? =
        some (P.lastAction st σ o (P.rank P.start + 2) []) := by
  have hrank := P.rank_le_start hs
  obtain ⟨c, hc, hcalled⟩ := P.convert_called st (P.startStore σ o) hnodup hplain hroot hs ho
    (fun _ => rfl) (show P.rank s + 1 < P.rank P.start + 2 by omega)
  have htoList : ∀ (x : Option ActName) (a : ActName), x.toList = [a] ↔ x = some a := by
    intro x a
    cases x <;> simp
  rw [Selects, run_initAction P st ho hσ, ← htoList, ← hcalled]
  constructor
  · rintro ⟨c', hc', h⟩
    rw [hc] at hc'
    cases hc'
    exact h
  · exact fun h => ⟨c, hc, h⟩

theorem selects_of_goto_accept (ho : o ∈ initialOffsets) (hzero : initialOffsets = [0])
    (ht : P.transition P.start = .goto .accept) : P.Selects initialOffsets o st σ := by
  subst hzero
  obtain rfl := List.mem_singleton.mp ho
  have hnil := order_eq_of_goto_accept ht
  obtain ⟨c, hc, hcalled⟩ := P.convert_called_of_no_select st
    (run ((P.initAction [0]).map (Asgn.on st)) σ) fun p s hp => by
      obtain rfl := hnil p s hp
      cases hp
      exact ⟨_, ht⟩
  refine ⟨c, hc, ?_⟩
  have hnext : P.targetOf [0] = some .accept := by
    rw [ParserDecl.targetOf, ParserDecl.targetOf]
    simp [ht, Transition.targets]
  have hchosen : P.chosen st σ 0 [] = some 0 := by simp [chosen, ParserDecl.targetOf, ht]
  rw [hcalled, order_eq_nil hnil, lastAction, hchosen]
  simp [hnext]

/-- The condition is enough. -/
theorem selects_of_meets (ho : o ∈ initialOffsets)
    (hσ : initialOffsets ≠ [0] → σ .currOffset = .num o)
    (h : P.MeetsSelection initialOffsets o st σ) : P.Selects initialOffsets o st σ := by
  obtain ⟨root, s, hs, hleads, hroot, hzero, hfollows⟩ := h.follows
  have hrank := P.rank_le_start hs
  by_cases hsel : initialOffsets = [0] → (P.transition s).hasSelectExpression = true
  · have hisRoot : P.IsRoot initialOffsets root :=
      ⟨fun hne => by_contra fun hnil => hne (hroot hnil).1, fun h => ⟨s, hs, hsel h⟩, hleads⟩
    rw [selects_iff_stops ho hσ h.nodup h.plain hs hisRoot]
    rcases hfollows with hfollows | ⟨hkeys, hreject, hstops⟩
    · have hfuel : P.rank s + 1 < P.rank P.start + 2 := by omega
      rw [hfollows.head?_stops hs hfuel, lastAction_of_leads hleads hs (Nat.lt_of_succ_lt hfuel) rfl
        (by omega) List.nil_suffix]
    · rw [stops_selectValue h.plain hkeys, hreject, hstops]
  · push Not at hsel
    obtain ⟨hoff, hnot⟩ := hsel
    have hnil : root = [] := by_contra fun hne => hnot (hroot hne).2
    subst hnil
    cases hs
    exact selects_of_goto_accept ho hoff ((hzero hoff).resolve_left hnot)

/-- Where the table is used and every key fits, the packet follows such a path, or both the
parser and the trial reject it. -/
theorem follows_or_of_selects (ho : o ∈ initialOffsets)
    (hσ : initialOffsets ≠ [0] → σ .currOffset = .num o) (hnodup : initialOffsets.Nodup)
    (hplain : P.Plain) (hkeys : P.KeysFit o) {root : List ℕ} {s : S}
    (hs : P.targetOf root = some (.state s)) (hroot : P.IsRoot initialOffsets root)
    (h : P.Selects initialOffsets o st σ) :
    P.Follows st σ o root ∨
      (P.KeysFit o ∧ P.lastAction st σ o (P.rank P.start + 2) [] = .reject ∧
        (P.stops (P.selectValue st σ o) o (P.rank P.start + 2) root).head? = some .reject) := by
  have hrank := P.rank_le_start hs
  have hfuel : P.rank s + 1 < P.rank P.start + 2 := by omega
  rw [selects_iff_stops ho hσ hnodup hplain hs hroot] at h
  rcases P.lastAction_eq st σ o (P.rank P.start + 2) [] with hlast | ⟨q, hlast, -⟩
  · refine Or.inr ⟨hkeys, hlast, ?_⟩
    rw [← stops_selectValue hplain hkeys, h, hlast]
  · refine Or.inl (follows_of_head?_stops (q := q) hplain hkeys hs hfuel ?_ ?_)
    · rw [← hlast]
      exact (lastAction_of_leads hroot.leads hs (Nat.lt_of_succ_lt hfuel) rfl (by omega)
        List.nil_suffix).symm
    · rw [h, hlast]

omit [DecidableEq H] [DecidableEq F] [DecidableEq X] [DecidableEq S] in
/-- Where unconditional transitions lead out of the parser, there is no other instance. -/
theorem eq_or_suffix_of_goto {root : List ℕ} {t : S} {g : Target S} (hleads : P.Leads root)
    (hroot : P.targetOf root = some (.state t)) (hg : P.transition t = .goto g)
    (hout : ∀ t', g ≠ .state t') {p : List ℕ} {s : S} (hp : P.targetOf p = some (.state s)) :
    p = root ∨ (p <:+ root ∧ p ≠ root) := by
  rcases hleads.suffix_or hroot hp with hbelow | hfront
  · by_cases hne : root = p
    · exact Or.inl hne.symm
    · obtain ⟨i, hi⟩ := exists_cons_suffix hbelow hne
      obtain ⟨t', ht'⟩ := P.exists_state_of_suffix hp hi
      obtain ⟨s₁, hs₁, hget⟩ := ParserDecl.targetOf_cons ht'
      rw [hroot] at hs₁
      cases hs₁
      rw [hg] at hget
      have hmem := List.mem_of_getElem? hget
      exact absurd (List.mem_singleton.mp hmem).symm (hout t')
  · exact Or.inr hfront

/-- Without a `select`, only a start state that accepts is translated to a single call. -/
theorem goto_accept_of_selects {root : List ℕ} {t : S} {g : Target S} (hleads : P.Leads root)
    (hroot : P.targetOf root = some (.state t)) (hg : P.transition t = .goto g)
    (hout : ∀ t', g ≠ .state t') (h : P.Selects [0] o st σ) :
    P.transition P.start = .goto .accept := by
  obtain ⟨c, hc, hcalled⟩ := P.convert_called_of_no_select st
    (run ((P.initAction [0]).map (Asgn.on st)) σ) fun p s hp => by
      rcases eq_or_suffix_of_goto hleads hroot hg hout hp with rfl | ⟨hfront, hne⟩
      · rw [hp] at hroot
        cases hroot
        exact ⟨g, hg⟩
      · obtain ⟨s', g', hs', hg'⟩ := hleads p hfront hne
        rw [hp] at hs'
        cases hs'
        exact ⟨g', hg'⟩
  obtain ⟨c', hc', hselects⟩ := h
  rw [hc] at hc'
  cases hc'
  rw [hcalled] at hselects
  -- there is one instance, and it is the start state
  have hone : ∀ p ∈ P.order, ActName.inst 0 p = P.lastAction st σ o (P.rank P.start + 2) [] := by
    intro p hp
    have hmem : ActName.inst 0 p ∈ P.order.map (.inst 0) := List.mem_map_of_mem hp
    rw [hselects] at hmem
    exact List.mem_singleton.mp hmem
  have hnil := hone [] (P.mem_order.mpr ⟨P.start, rfl⟩)
  obtain rfl : root = [] := by
    have hr := hone root (P.mem_order.mpr ⟨t, hroot⟩)
    rw [← hnil] at hr
    cases hr
    rfl
  cases hroot
  cases g with
  | accept => exact hg
  | state t' => exact absurd rfl (hout t')
  | reject =>
      have hnext : P.targetOf [0] = some .reject := by
        rw [ParserDecl.targetOf, ParserDecl.targetOf]
        simp [hg, Transition.targets]
      have hchosen : P.chosen st σ o [] = some 0 := by simp [chosen, ParserDecl.targetOf, hg]
      rw [lastAction, hchosen] at hnil
      simp [hnext] at hnil

/-- If every key fits, the condition is needed. -/
theorem meets_of_selects (ho : o ∈ initialOffsets)
    (hσ : initialOffsets ≠ [0] → σ .currOffset = .num o) (hnodup : initialOffsets.Nodup)
    (hplain : P.Plain) (hkeys : P.KeysFit o) (h : P.Selects initialOffsets o st σ) :
    P.MeetsSelection initialOffsets o st σ := by
  have hnone : P.Leads [] := fun q hq hne => absurd (List.suffix_nil.mp hq) hne
  refine ⟨hnodup, hplain, ?_⟩
  by_cases hzero : initialOffsets = [0]
  · obtain ⟨r, t, hleads, hr, hsel | ⟨g, hg, hout⟩⟩ :=
      exists_leads (P := P) (p := []) rfl (Nat.lt_succ_self _) hnone
    · have hroot : P.IsRoot initialOffsets r :=
        ⟨fun hne => absurd hzero hne, fun _ => ⟨t, hr, hsel⟩, hleads⟩
      exact ⟨r, t, hr, hleads, fun _ => ⟨hzero, hsel⟩, fun _ => Or.inl hsel,
        follows_or_of_selects ho hσ hnodup hplain hkeys hr hroot h⟩
    · rw [hzero] at h
      have haccept := goto_accept_of_selects hleads hr hg hout h
      exact ⟨[], P.start, rfl, hnone, fun hne => absurd rfl hne, fun _ => Or.inr haccept,
        Or.inl (.accept rfl haccept)⟩
  · have hroot : P.IsRoot initialOffsets [] :=
      ⟨fun _ => rfl, fun heq => absurd heq hzero, hnone⟩
    exact ⟨[], P.start, rfl, hnone, fun hne => absurd rfl hne, fun heq => absurd heq hzero,
      follows_or_of_selects ho hσ hnodup hplain hkeys rfl hroot h⟩

/-- **The selected action.**  Under the condition the converted parser calls the action of the
last instance on the path of the packet, and nothing else; if every key fits it does so only
then. -/
theorem selection_correct (P : Parser S H F X) (ho : o ∈ initialOffsets)
    (hσ : initialOffsets ≠ [0] → σ .currOffset = .num o) :
    (P.MeetsSelection initialOffsets o st σ → P.Selects initialOffsets o st σ) ∧
      (initialOffsets.Nodup → P.Plain → P.KeysFit o → P.Selects initialOffsets o st σ →
        P.MeetsSelection initialOffsets o st σ) :=
  ⟨selects_of_meets ho hσ, meets_of_selects ho hσ⟩

end Selection

end Parser

/-! ## A case that accepts -/

/-- A parser that extracts a byte and accepts on 0, rejects on 255 and else goes on to a state
that accepts. -/
def acceptZero : Parser Bool Unit Unit Unit where
  headers := [()]
  fields _ := [((), 8)]
  start := false
  components
    | false => [.extract ()]
    | true => []
  transition
    | false => .select [.loc (.field () ())]
        [(.constant (.bits (List.replicate 8 false)), .accept),
          (.constant (.bits (List.replicate 8 true)), .reject), (.default, .state true)]
    | true => .goto .accept
  fields_nodup _ := List.nodup_singleton _
  extract_mem _ h _ := List.mem_singleton_self h
  extracted_nodup := ParserDecl.extracted_nodup_of_owner _ (fun s => 1 - s.toNat) (by decide)
    (fun _ => false) (fun s h hh => match s, hh with
      | false, _ => rfl
      | true, hh => absurd hh List.not_mem_nil) (by decide)
  rank s := 1 - s.toNat
  rank_lt := by decide
  sorted := [false, true]
  sorted_head := rfl
  mem_sorted _ s _ := by cases s <;> decide
  sorted_pairwise := by decide

theorem plain_acceptZero : acceptZero.Plain := fun p s es cases _ ht => match s, ht with
  | false, ht => by
      cases ht
      exact ⟨⟨_, rfl⟩, List.cons_ne_nil _ _⟩
  | true, ht => by cases ht

theorem keyFits_acceptZero (o : ℕ) (ho : o % 8 = 0) :
    acceptZero.KeyFits [] o (.loc (.field () ())) := by
  have hstats : acceptZero.statsOf [] = [] ++ .extract () :: [] := rfl
  have hfields : acceptZero.fields () = [] ++ ((), 8) :: [] := rfl
  exact .extracted hstats hfields (Or.inl ho)

/-- A packet whose first bit only is set follows the path to the last state. -/
theorem selection_correct_acceptZero :
    acceptZero.Selects [0] 0 (fun i j => i = 0 ∧ j = 7) fun _ => .num 0 := by
  refine (Parser.selection_correct acceptZero List.mem_cons_self (fun h => absurd rfl h)).1
    ⟨by decide, plain_acceptZero, [], false, rfl, ?_, fun h => absurd rfl h, fun _ => Or.inl rfl,
      Or.inl ?_⟩
  · exact fun q hq hne => absurd (List.suffix_nil.mp hq) hne
  · exact .next (i := 2) rfl rfl (keyFits_acceptZero 0 rfl) (by decide) rfl (.accept rfl rfl)

/-- For a packet that starts with 0 there is no entry. -/
theorem not_selects_acceptZero :
    ¬ acceptZero.Selects [0] 0 (fun _ _ => false) fun _ => .num 0 := by
  have hroot : acceptZero.IsRoot [0] [] := ⟨fun _ => rfl, fun _ => ⟨false, rfl, rfl⟩,
    fun q hq hne => absurd (List.suffix_nil.mp hq) hne⟩
  rw [Parser.selects_iff_stops List.mem_cons_self (fun h => absurd rfl h) (by decide)
    plain_acceptZero rfl hroot]
  decide

end Parsing
end MicroP4
