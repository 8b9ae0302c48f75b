import MicroP4.Unrolling.ParserRuns

/-!
# Parsers without header stacks

In a parser without header stacks an expression always stands for its header, and the
interpreter covers no more runs than those whose steps are plain.  A header that is overwritten in
a clone leaves the instance without a map after it, and a header whose width is not known has
coordinates of the wrong width.
-/

namespace MicroP4
namespace Unrolling

variable {S H K I C E D : Type} [DecidableEq H] {P : ParserDecl S H K I C}
  {N : Scalars H K I C E P.elements} {M : Machine S H K I C D}

/-! ## Offsets of the interpreter -/

theorem offset_executeStatement_lt {m m' : ValueMap H E} {st : ParserStat H K I C}
    (hm : m.offset < 2 ^ 32) (h : executeStatement P N m st = .ok m') : m'.offset < 2 ^ 32 := by
  cases st with
  | extract e =>
      rw [executeStatement, extract] at h
      cases he : evaluate P N false m e with
      | error err => simp [he] at h
      | ok hdr =>
          simp only [he] at h
          split at h
          · cases h
          · split at h
            · cases h
            · cases h
              exact Nat.mod_lt _ (by decide)
  | setValid e b =>
      rw [executeStatement] at h
      cases he : evaluate P N false m e with
      | error err => simp [he] at h
      | ok hdr =>
          simp only [he] at h
          cases h
          exact hm
  | assign left right =>
      rw [executeStatement] at h
      cases hl : evaluate P N true m left with
      | error err => simp [hl] at h
      | ok hdr =>
          cases hr : evaluateRight P N m right with
          | error err => simp [hl, hr] at h
          | ok b =>
              simp only [hl, hr] at h
              cases h
              exact hm
  | other lasts nexts c =>
      rw [executeStatement] at h
      cases hc : N.check lasts nexts c m.valid m.scalars with
      | some err => simp [hc] at h
      | none =>
          simp only [hc] at h
          cases h
          exact hm

theorem executeStatements_cons {l : List (ParserStat H K I C)} {st : ParserStat H K I C}
    {m m' : ValueMap H E} (h : executeStatements P N (st :: l) m = .ok m') :
    ∃ m₁, executeStatement P N m st = .ok m₁ ∧ executeStatements P N l m₁ = .ok m' := by
  rw [executeStatements] at h
  cases hst : executeStatement P N m st with
  | error err => simp [hst] at h
  | ok m₁ => exact ⟨m₁, rfl, by simpa [hst] using h⟩

theorem offset_executeStatements_lt {l : List (ParserStat H K I C)} {m m' : ValueMap H E}
    (hm : m.offset < 2 ^ 32) (h : executeStatements P N l m = .ok m') : m'.offset < 2 ^ 32 := by
  induction l generalizing m with
  | nil =>
      cases h
      exact hm
  | cons st l ih =>
      obtain ⟨m₁, hm₁, hrest⟩ := executeStatements_cons h
      exact ih (offset_executeStatement_lt hm hm₁) hrest

/-- The instances that a visit creates. -/
theorem exists_of_mem_next [DecidableEq S] {i j : ParserStateInfo S H E}
    (hj : j ∈ (visit P N i).next) :
    ∃ s m t, executeStatements P N (P.components s) i.before = .ok m ∧
      j = ⟨t, (s, i.before) :: i.predecessors, m⟩ := by
  rw [visit] at hj
  cases hc : checkLoops P i with
  | some msg => simp [hc] at hj
  | none =>
      simp only [hc, evaluateState] at hj
      cases hs : i.state with
      | accept => simp [hs] at hj
      | reject => simp [hs] at hj
      | state s =>
          simp only [hs] at hj
          cases hexec : executeStatements P N (P.components s) i.before with
          | error err => simp [hexec] at hj
          | ok m =>
              simp only [hexec] at hj
              obtain ⟨t, -, rfl⟩ := List.mem_map.mp hj
              exact ⟨s, m, t, hexec, rfl⟩

theorem offset_lt_of_mem_next [DecidableEq S] {i j : ParserStateInfo S H E}
    (hi : i.before.offset < 2 ^ 32) (hj : j ∈ (visit P N i).next) : j.before.offset < 2 ^ 32 := by
  obtain ⟨s, m, t, hexec, rfl⟩ := exists_of_mem_next hj
  exact offset_executeStatements_lt hi hexec

/-- An instance without a predecessor is the one of the start state. -/
theorem predecessors_ne_nil_of_mem_next [DecidableEq S] {i j : ParserStateInfo S H E}
    (hj : j ∈ (visit P N i).next) : j.predecessors ≠ [] := by
  obtain ⟨s, m, t, -, rfl⟩ := exists_of_mem_next hj
  exact List.cons_ne_nil _ _

/-! ## Steps that are not plain -/

section StackFree

variable [IsEmpty K]

omit [DecidableEq H] in
/-- An expression is a header. -/
theorem exists_header (e : HeaderExpr H K I) : ∃ h, e = .header h := by
  cases e with
  | header h => exact ⟨h, rfl⟩
  | next k => exact isEmptyElim k
  | last k => exact isEmptyElim k
  | index k i => exact isEmptyElim k

omit [IsEmpty K] [DecidableEq H] in
theorem evaluate_header (leftValue : Bool) (m : ValueMap H E) (h : H) :
    evaluate P N leftValue m (.header h) = .ok (.header h) := rfl

omit [IsEmpty K] in
/-- An extraction that ends did not overwrite the header. -/
theorem extract_header {m m' : ValueMap H E} {h : H} (hm' : extract P N m (.header h) = .ok m') :
    m.valid h ≠ .constant true ∧ ∀ x, (m'.header x).coordinates =
      if h = x then some (m.offset, unsigned (m.offset + getWidth (P.fields h)))
      else (m.header x).coordinates := by
  rw [extract, evaluate_header] at hm'
  simp only at hm'
  split at hm'
  · cases hm'
  · split at hm'
    · cases hm'
    · rename_i hvalid
      cases hm'
      refine ⟨hvalid, fun x => ?_⟩
      show (Function.update (setValidity P m (.constant true) (.header h : HeaderValue H K)) h
        _ x).coordinates = _
      by_cases hx : h = x
      · subst hx
        rw [Function.update_self, if_pos rfl]
        rfl
      · rw [Function.update_of_ne (Ne.symm hx), if_neg hx]
        exact coordinates_withValidity (N := N) m (.extract (.header h)) h _ x

/-- The coordinates that the interpreter can record for a header. -/
def HasWidth (P : ParserDecl S H K I C) (h : H) (c : ℕ × ℕ) : Prop :=
  c.2 = unsigned (c.1 + getWidth (P.fields h))

/-- Of a header that a statement extracts the interpreter records the width it knows; it leaves
the coordinates of the others. -/
theorem coordinates_executeStatement {m m' : ValueMap H E} {σ τ : Store H D}
    {st : ParserStat H K I C} {ev : Event H K I} (hexec : Exec P M st σ ev τ)
    (hm' : executeStatement P N m st = .ok m') (x : H) :
    (ev.coordinates x = none → (m'.header x).coordinates = (m.header x).coordinates) ∧
      ((ev.coordinates x).isSome → ∃ c, (m'.header x).coordinates = some c ∧ HasWidth P x c) := by
  have hkeep : (m'.header x).coordinates = (m.header x).coordinates → ev.coordinates x = none →
      (ev.coordinates x = none → (m'.header x).coordinates = (m.header x).coordinates) ∧
      ((ev.coordinates x).isSome → ∃ c, (m'.header x).coordinates = some c ∧ HasWidth P x c) := by
    intro hcoord hev
    refine ⟨fun _ => hcoord, fun hsome => ?_⟩
    rw [hev] at hsome
    exact absurd hsome Bool.false_ne_true
  cases hexec with
  | @extract _ e h w d hres _ _ _ =>
      obtain ⟨h', rfl⟩ := exists_header e
      obtain rfl : h' = h := Option.some.inj hres
      obtain ⟨-, hcoord⟩ := extract_header (N := N) hm'
      by_cases hx : h' = x
      · subst hx
        refine ⟨fun hnone => ?_, fun _ => ⟨_, (hcoord h').trans (if_pos rfl), rfl⟩⟩
        rw [Event.coordinates, if_pos rfl] at hnone
        exact absurd hnone (Option.some_ne_none _)
      · exact hkeep ((hcoord x).trans (if_neg hx)) (if_neg hx)
  | @setValid _ e h b d hres _ =>
      obtain ⟨h', rfl⟩ := exists_header e
      cases hm'
      exact hkeep (coordinates_withValidity (N := N) m (.setValid (.header h') b) h' _ x) rfl
  | @assign _ left right h h' d hleft hright _ =>
      obtain ⟨l, rfl⟩ := exists_header left
      obtain ⟨r, rfl⟩ := exists_header right
      cases hm'
      exact hkeep (coordinates_withValidity (N := N) m (.assign (.header l) (some (.header r)))
        l _ x) rfl
  | @assignResult _ left h d hleft _ =>
      obtain ⟨l, rfl⟩ := exists_header left
      cases hm'
      exact hkeep (coordinates_withValidity (N := N) m (.assign (.header l) none) l _ x) rfl
  | @other _ lasts nexts c d _ =>
      rw [executeStatement] at hm'
      cases hc : N.check lasts nexts c m.valid m.scalars with
      | some err => simp [hc] at hm'
      | none =>
          simp only [hc] at hm'
          cases hm'
          exact hkeep rfl rfl

theorem coordinates_executeStatements {l : List (ParserStat H K I C)} {m m' : ValueMap H E}
    {σ τ : Store H D} {steps : List (Step H K I)} (hexec : ExecAll P M l σ steps τ)
    (hm' : executeStatements P N l m = .ok m') (x : H) :
    (lastExtract x steps = none → (m'.header x).coordinates = (m.header x).coordinates) ∧
      ((lastExtract x steps).isSome →
        ∃ c, (m'.header x).coordinates = some c ∧ HasWidth P x c) := by
  induction hexec generalizing m with
  | nil =>
      cases hm'
      exact ⟨fun _ => rfl, fun hsome => absurd hsome Bool.false_ne_true⟩
  | @cons st l σ τ υ ev steps hst _ ih =>
      obtain ⟨m₁, hm₁, hrest⟩ := executeStatements_cons hm'
      obtain ⟨hnone, hsome⟩ := ih hrest
      obtain ⟨hnone₁, hsome₁⟩ := coordinates_executeStatement hst hm₁ x
      rw [lastExtract]
      cases hlast : lastExtract x steps with
      | some c =>
          rw [hlast] at hsome
          exact ⟨fun h => absurd h (Option.some_ne_none _), fun _ => hsome rfl⟩
      | none =>
          rw [Option.none_or, hnone hlast]
          exact ⟨hnone₁, hsome₁⟩

omit [IsEmpty K] in
/-- The last extraction of a header in a run moves by its width. -/
theorem width_of_lastExtract {l : List (ParserStat H K I C)} {σ τ : Store H D}
    {steps : List (Step H K I)} (hexec : ExecAll P M l σ steps τ) {x : H} {c : ℕ × ℕ}
    (hc : lastExtract x steps = some c) :
    ∃ w, width (P.fields x) = some w ∧ c.2 = c.1 + w ∧ c.2 ≤ τ.position := by
  induction hexec with
  | nil => cases hc
  | @cons st l σ τ υ ev steps hst htail ih =>
      rw [lastExtract, Option.or_eq_some_iff] at hc
      rcases hc with hc | ⟨-, hc⟩
      · exact ih hc
      · cases hst with
        | @extract _ e h w d hres hw _ _ =>
            rw [Event.coordinates] at hc
            split at hc
            · rename_i hx
              subst hx
              cases hc
              exact ⟨w, hw, rfl, htail.position_le⟩
            · cases hc
        | _ => cases hc

/-- If the map after a state has the coordinates of its last extractions, its steps are plain. -/
theorem plain_of_coordinates {l : List (ParserStat H K I C)} {m m' : ValueMap H E}
    {σ τ : Store H D} {steps : List (Step H K I)} (hagrees : Agrees m σ)
    (hexec : ExecAll P M l σ steps τ) (hlt : τ.position < 2 ^ 32)
    (hm' : executeStatements P N l m = .ok m')
    (hcoord : ∀ x c, lastExtract x steps = some c → (m'.header x).coordinates = some c)
    (again : Prop) : (∀ x ∈ steps, Plain P again x.made x.event) ∧ Agrees m' τ := by
  -- the width is known of every header that is extracted
  have hwidth : ∀ x, (lastExtract x steps).isSome →
      width (P.fields x) = some (getWidth (P.fields x)) := by
    intro x hx
    obtain ⟨c, hc⟩ := Option.isSome_iff_exists.mp hx
    obtain ⟨w, hw, hstop, hle⟩ := width_of_lastExtract hexec hc
    obtain ⟨c', hc', hknown⟩ := (coordinates_executeStatements hexec hm' x).2 hx
    obtain rfl : c = c' := Option.some.inj ((hcoord x c hc).symm.trans hc')
    have hbound : getWidth (P.fields x) < 2 ^ 32 := Nat.mod_lt _ (Nat.two_pow_pos 32)
    rw [HasWidth, unsigned] at hknown
    rw [hw]
    congr 1
    omega
  clear hcoord
  induction hexec generalizing m with
  | nil =>
      cases hm'
      exact ⟨fun x hx => absurd hx List.not_mem_nil, hagrees⟩
  | @cons st l σ τ υ ev steps hst htail ih =>
      obtain ⟨m₁, hm₁, hrest⟩ := executeStatements_cons hm'
      have hτ : τ.position < 2 ^ 32 := Nat.lt_of_le_of_lt htail.position_le hlt
      have hplain : Plain P again σ.made ev := by
        cases hst with
        | @extract _ e h w d hres _ _ _ =>
            obtain ⟨h', rfl⟩ := exists_header e
            obtain rfl : h' = h := Option.some.inj hres
            refine ⟨rfl, hwidth h' ?_, fun _ => ?_⟩
            · rw [lastExtract, Option.isSome_or, Event.coordinates, if_pos rfl]
              exact Bool.or_true _
            · have hvalid := (extract_header (N := N) hm₁).1
              rw [hagrees.valid] at hvalid
              exact Bool.eq_false_iff.mpr fun hmade => hvalid (congrArg _ hmade)
        | @setValid _ e h b d hres _ =>
            obtain ⟨h', rfl⟩ := exists_header e
            exact Option.some.inj hres
        | @assign _ left right h h' d hleft hright _ =>
            obtain ⟨l, rfl⟩ := exists_header left
            obtain ⟨r, rfl⟩ := exists_header right
            exact ⟨Option.some.inj hleft, Option.some.inj hright⟩
        | @assignResult _ left h d hleft _ =>
            obtain ⟨l, rfl⟩ := exists_header left
            exact Option.some.inj hleft
        | @other _ lasts nexts c d _ =>
            exact fun _ => ⟨fun k => isEmptyElim k, fun k => isEmptyElim k⟩
      have hagrees₁ : Agrees m₁ τ := by
        rcases executeStatement_of_plain (N := N) hagrees hst hτ hplain with
          ⟨m₂, hm₂, hagrees₂, -⟩ | herr | ⟨herr, -⟩
        · obtain rfl : m₁ = m₂ := Except.ok.inj (hm₁.symm.trans hm₂)
          exact hagrees₂
        · exact absurd (hm₁.symm.trans herr) (by simp)
        · exact absurd (hm₁.symm.trans herr) (by simp)
      obtain ⟨hplains, hagrees'⟩ := ih hagrees₁ hlt hrest fun x hx => hwidth x (by
        rw [lastExtract, Option.isSome_or, hx]
        rfl)
      refine ⟨fun x hx => ?_, hagrees'⟩
      rcases List.mem_cons.mp hx with rfl | hx
      · exact hplain
      · exact hplains x hx

/-! ## Runs that are covered -/

omit [IsEmpty K] in
/-- The first instance is one of the first state. -/
theorem state_of_follows {info : ParserInfo S H E} {s : S} {σ τ : Store H D}
    {passes : List (Pass S H K I)} (hacc : Accepts P M s σ passes τ) {i : ParserStateInfo S H E}
    (hfollows : Follows info i passes) : i.state = .state s := by
  cases hacc with
  | accept _ _ _ =>
      cases hfollows with
      | accept _ hs _ _ _ _ _ => exact hs
      | next _ hs _ _ _ _ => exact hs
  | next _ _ _ _ =>
      cases hfollows with
      | accept _ hs _ _ _ _ _ => exact hs
      | next _ hs _ _ _ _ => exact hs

omit [IsEmpty K] in
theorem mem_of_follows [DecidableEq S] {instances : List (ParserStateInfo S H E)}
    {i : ParserStateInfo S H E} {passes : List (Pass S H K I)}
    (hfollows : Follows (synthesizedParser P N instances) i passes) : i ∈ instances := by
  have hmem : ∃ v, (i, v) ∈ (synthesizedParser P N instances).states := by
    cases hfollows with
    | accept hmem _ _ _ _ _ _ => exact ⟨_, hmem⟩
    | next hmem _ _ _ _ _ => exact ⟨_, hmem⟩
  obtain ⟨v, hv⟩ := hmem
  obtain ⟨i', hi', heq⟩ := List.mem_map.mp hv
  obtain ⟨rfl, -⟩ := Prod.mk.inj heq
  exact hi'

/-- Instances that follow a run show that its steps are plain. -/
theorem plainFrom_of_follows [DecidableEq S] {instances : List (ParserStateInfo S H E)}
    (hmsg : (synthesizedParser P N instances).messages = []) {s : S} {σ τ : Store H D}
    {passes : List (Pass S H K I)} (hacc : Accepts P M s σ passes τ)
    (hlt : τ.position < 2 ^ 32) :
    ∀ {i : ParserStateInfo S H E}, i.state = .state s → Agrees i.before σ →
      Follows (synthesizedParser P N instances) i passes →
      PlainFrom P (i.predecessors.map Prod.fst) passes := by
  -- visiting an instance that has a map after it
  have hvisit : ∀ {i : ParserStateInfo S H E} {v : Visit S H E} {s : S} {m : ValueMap H E},
      (i, v) ∈ (synthesizedParser P N instances).states → i.state = .state s →
      v.after = some m → executeStatements P N (P.components s) i.before = .ok m ∧
        v.next = evaluateSelect P i s m := by
    intro i v s m hmem hs hafter
    obtain ⟨i', hi', heq⟩ := List.mem_map.mp hmem
    obtain ⟨rfl, rfl⟩ := Prod.mk.inj heq
    rcases visit_of_messages hs (messages_eq_nil hmsg hi') with ⟨m', hm', hv⟩ | ⟨-, -, hv⟩
    · rw [hv] at hafter ⊢
      obtain rfl : m' = m := Option.some.inj hafter
      exact ⟨hm', rfl⟩
    · exact absurd (hafter.symm.trans hv) (Option.some_ne_none _)
  induction hacc with
  | @accept s σ τ steps n hexec hsel ht =>
      intro i hs hagrees hfollows
      cases hfollows with
      | @accept _ j v w r m hmem hstate hafter hcoord _ _ _ =>
          obtain ⟨hm, -⟩ := hvisit hmem hs hafter
          exact ⟨(plain_of_coordinates hagrees hexec hlt hm hcoord _).1, trivial⟩
      | @next _ j v r rs m hmem hstate hafter hcoord _ hrest => cases hrest
  | @next s t σ τ υ steps n passes hexec hsel ht hrest ih =>
      intro i hs hagrees hfollows
      cases hfollows with
      | accept _ _ _ _ _ _ _ => cases hrest
      | @next _ j v r rs m hmem hstate hafter hcoord hj hfollows' =>
          obtain ⟨hm, hnext⟩ := hvisit hmem hs hafter
          have hτ : τ.position < 2 ^ 32 := Nat.lt_of_le_of_lt hrest.position_le hlt
          obtain ⟨hplain, hagrees'⟩ := plain_of_coordinates hagrees hexec hτ hm hcoord
            (s ∈ i.predecessors.map Prod.fst)
          rw [hnext] at hj
          obtain ⟨t', -, rfl⟩ := List.mem_map.mp hj
          exact ⟨hplain, ih hlt (state_of_follows hrest hfollows') hagrees' hfollows'⟩

/-- In a parser without header stacks the runs that are covered are those whose bits an
`unsigned` can count and whose steps are plain. -/
theorem covers_iff [DecidableEq S] {fuel : ℕ} {info : ParserInfo S H E}
    (hrun : run P N fuel = some info) (hmsg : info.messages = []) {d : D} {τ : Store H D}
    {passes : List (Pass S H K I)}
    (hacc : Accepts P M P.start ⟨0, fun _ => false, d⟩ passes τ) :
    Covers info passes τ.position ↔ τ.position < 2 ^ 32 ∧ PlainFrom P [] passes := by
  constructor
  · intro hcovers
    obtain ⟨initial, instances, rfl, hinst⟩ := exists_instances_of_run hrun hmsg
    have hlt : τ.position < 2 ^ 32 := by
      obtain ⟨i, hi, hoffset⟩ := exists_of_mem_acceptedPktOffsets hcovers.mem_acceptedPktOffsets
      have hall := Worklist.forall_of_exhaust (p := fun i => i.before.offset < 2 ^ 32)
        (fun _ hi _ => offset_lt_of_mem_next hi) hinst fun i hi => by
          rw [List.mem_singleton.mp hi]
          exact Nat.two_pow_pos 32
      exact hoffset ▸ hall i hi
    refine ⟨hlt, ?_⟩
    obtain ⟨i, hpred, hfollows⟩ := hcovers.follows
    have hstart := Worklist.forall_of_exhaust
      (p := fun i => i.predecessors = [] → i = startInfo P initial)
      (fun _ _ _ hj hnil => absurd hnil (predecessors_ne_nil_of_mem_next hj)) hinst
      fun i hi _ => List.mem_singleton.mp hi
    obtain rfl := hstart i (mem_of_follows hfollows) hpred
    exact plainFrom_of_follows hmsg hacc hlt rfl ⟨rfl, fun _ => rfl⟩ hfollows
  · rintro ⟨hlt, hplain⟩
    exact covers_of_plain hrun hmsg hacc hlt hplain

end StackFree

end Unrolling
end MicroP4
