import MicroP4.Parsing.SavedOffset
import MicroP4.Parsing.SelectionCorrect

/-!
# The parser as a state machine

`Parser.parse` runs a parser the way the language has it: the statements of a state, and then
its transition on the values they leave, until the packet is accepted or rejected.  The control
that `ParserConverter` makes of the parser knows no states.  It runs the init action, looks the
packet up in one table, and runs the action of the row.

`run_convert` says when the control ends with the store of the parser, or with its reject status
set if the parser rejects.  The states of the machine are followed along the path of instances
(`parseFrom_eq`).
-/

namespace MicroP4
namespace Parsing

open BitString Assignments

variable {S H F X : Type}

/-! ## The machine -/

/-- How a parser ends. -/
inductive Outcome (H F X : Type) where
  | accepted (σ : Store H F X)
  | rejected

/-- Where a transition leads.  A `select` without a case that matches is an error. -/
def Transition.next (σ : Store H F X) : Transition S H F X → Target S
  | .goto t => t
  | .select es cases =>
      match cases.find? fun c => c.1.contains (es.map fun e => e.toExpr.eval σ) with
      | some c => c.2
      | none => .reject

section Machine

variable [DecidableEq H] [DecidableEq F] [DecidableEq X]

/-- The parser from a state on. -/
def ParserDecl.parseFrom (P : ParserDecl S H F X) (pkt : Bits) :
    ℕ → S → Store H F X → Option (Outcome H F X)
  | 0, _, _ => none
  | fuel + 1, s, σ =>
      match (P.transition s).next (P.execAll pkt (P.components s) σ) with
      | .accept => some (.accepted (P.execAll pkt (P.components s) σ))
      | .reject => some .rejected
      | .state t => P.parseFrom pkt fuel t (P.execAll pkt (P.components s) σ)

/-- The parser from its start state on. -/
def Parser.parse (P : Parser S H F X) (pkt : Bits) (σ : Store H F X) : Option (Outcome H F X) :=
  P.parseFrom pkt (P.rank P.start + 1) P.start σ

/-- What the control has to leave, if this is how the parser ends. -/
def Outcome.leaves (start : Store H F X) : Outcome H F X → Store H F X
  | .accepted σ => σ
  | .rejected => Function.update start .rejectStatus (.num 1)

end Machine

namespace Parser

/-! ## The states on a path -/

section Path

variable (P : Parser S H F X) [DecidableEq H] [DecidableEq F] [DecidableEq X]
variable (st : ℕ → Word) (σ : Store H F X) (o : ℕ)

/-- The end of the parser that an action stands for. -/
def outcome : ActName → Outcome H F X
  | .inst _ p => .accepted (P.storeAt st σ o p)
  | _ => .rejected

variable {P st σ o}

theorem storeAt_cons (i : ℕ) (p : List ℕ) :
    P.storeAt st σ o (i :: p) = P.execAll (bitAt st) (P.statsOf (i :: p)) (P.storeAt st σ o p) :=
  List.foldl_append

/-- The transition of the last state on a path leads where the path goes on. -/
theorem next_storeAt {p : List ℕ} {s : S} (hp : P.targetOf p = some (.state s)) :
    some ((P.transition s).next (P.storeAt st σ o p)) =
      match P.chosen st σ o p with
      | none => some .reject
      | some i => P.targetOf (i :: p) := by
  cases ht : P.transition s with
  | goto t => simp [chosen, ParserDecl.targetOf, hp, ht, Transition.next, Transition.targets]
  | select es cases =>
      have hvals : (es.map fun e => e.toExpr.eval (P.storeAt st σ o p)) =
          P.selectValue st σ o p := by
        simp [selectValue, hp, ht, Transition.selectExprs]
      rw [Transition.next, hvals]
      cases hi : P.chosen st σ o p with
      | none =>
          have hnone : cases.findIdx? (fun c => c.1.contains (P.selectValue st σ o p)) = none := by
            simpa [chosen, hp, ht] using hi
          have hfind : cases.find? (fun c => c.1.contains (P.selectValue st σ o p)) = none :=
            List.find?_eq_none.mpr fun c hc => by
              rw [List.findIdx?_eq_none_iff.mp hnone c hc]
              exact Bool.false_ne_true
          rw [hfind]
      | some i =>
          obtain ⟨c₁, c, c₂, rfl, rfl, hc, hbefore⟩ := exists_case_of_chosen hp ht hi
          have hfront : c₁.find? (fun c => c.1.contains (P.selectValue st σ o p)) = none :=
            List.find?_eq_none.mpr fun c' hc' => by
              rw [hbefore c' hc']
              exact Bool.false_ne_true
          have hfind : (c :: c₂).find? (fun c => c.1.contains (P.selectValue st σ o p)) = some c :=
            List.find?_cons_of_pos hc
          rw [List.find?_append, hfront, Option.none_or, hfind]
          simp [ParserDecl.targetOf, hp, ht, Transition.targets]

/-- **The machine follows the path.**  In a state that a path leads to, behind the statements of
the states in front, it ends as the last action on the path says. -/
theorem parseFrom_eq {fuel : ℕ} : ∀ {p : List ℕ} {s : S} {τ : Store H F X},
    P.targetOf p = some (.state s) → P.rank s < fuel →
    P.execAll (bitAt st) (P.components s) τ = P.storeAt st σ o p →
    P.parseFrom (bitAt st) fuel s τ =
      some (P.outcome st σ o (P.lastAction st σ o fuel p)) := by
  induction fuel with
  | zero => exact fun _ h => absurd h (Nat.not_lt_zero _)
  | succ fuel ih =>
      intro p s τ hp hfuel hτ
      have hnext : some ((P.transition s).next (P.storeAt st σ o p)) =
          match P.chosen st σ o p with
          | none => some .reject
          | some i => P.targetOf (i :: p) := next_storeAt hp
      rw [ParserDecl.parseFrom, hτ, lastAction]
      cases hi : P.chosen st σ o p with
      | none =>
          rw [hi, Option.some.injEq] at hnext
          rw [hnext]
          rfl
      | some i =>
          rw [hi] at hnext
          dsimp only at hnext ⊢
          rw [← hnext]
          cases htarget : (P.transition s).next (P.storeAt st σ o p) with
          | accept => rfl
          | reject => rfl
          | state t =>
              rw [htarget] at hnext
              have hrank : P.rank t < P.rank s := P.rank_lt s t (mem_targets hp hnext.symm)
              refine ih hnext.symm (by omega) ?_
              rw [storeAt_cons, ParserDecl.statsOf, ← hnext]

/-- The parser ends, and the path says how. -/
theorem parse_eq : P.parse (bitAt st) (P.startStore σ o) =
    some (P.outcome st σ o (P.lastAction st σ o (P.rank P.start + 2) [])) := by
  rw [parse, parseFrom_eq (p := []) rfl (Nat.lt_succ_self _) rfl,
    lastAction_congr (p := []) rfl (Nat.lt_succ_self _) (Nat.lt_add_of_pos_right Nat.two_pos)]

end Path

/-! ## What the control declares -/

section Declared

variable {P : Parser S H F X} [DecidableEq S] [DecidableEq H]
variable {initialOffsets : List ℕ}

/-- What is declared stays. -/
theorem lookup_declareAction {d : Decls H F X} {n : ActName} {a : List (Asgn H F X)}
    (h : lookup d.actionDecls n = some a) (v : List ℕ × ℕ) :
    lookup (P.declareAction d v).actionDecls n = some a := by
  unfold ParserDecl.declareAction
  by_cases hname : (lookup d.actionDecls (P.getActionName v.1 v.2)).isSome = true
  · rw [if_pos hname]
    exact h
  · rw [if_neg hname]
    exact (lookup_append_singleton _ _ _ _).trans (by rw [h, Option.some_or])

theorem lookup_foldl_declareAction {n : ActName} {a : List (Asgn H F X)} (vs : List (List ℕ × ℕ)) :
    ∀ {d : Decls H F X}, lookup d.actionDecls n = some a →
      lookup (vs.foldl P.declareAction d).actionDecls n = some a := by
  induction vs with
  | nil => exact fun h => h
  | cons v vs ih => exact fun h => ih (lookup_declareAction h v)

variable [DecidableEq F] [DecidableEq X]

theorem fst_foldl_synthesize {p : List ℕ} {s : S} (os : List ℕ)
    (c : Decls H F X × NewKeys H F X) : (os.foldl (P.synthesize p s) c).1 =
      (os.map fun o => (p, o)).foldl P.declareAction c.1 := by
  induction os generalizing c with
  | nil => rfl
  | cons o os ih =>
      have hstep : (P.synthesize p s c o).1 = P.declareAction c.1 (p, o) := by
        rw [synthesize, ParserDecl.declareAction]
        split
        · rfl
        · rfl
      rw [List.foldl_cons, ih, hstep, List.map_cons, List.foldl_cons]

omit [DecidableEq F] [DecidableEq X] in
theorem decls_foldlM {α : Type} {f : Tables H F X → α → Option (Tables H F X)}
    {g : α → List (List ℕ × ℕ)}
    (hf : ∀ t a t', f t a = some t' → t'.decls = (g a).foldl P.declareAction t.decls) :
    ∀ {l : List α} {t t' : Tables H F X}, l.foldlM f t = some t' →
      t'.decls = (l.flatMap g).foldl P.declareAction t.decls
  | [], t, t', h => by
      cases h
      rfl
  | a :: l, t, t', h => by
      rw [List.foldlM_cons] at h
      obtain ⟨t₁, hstep, hrest⟩ := Option.bind_eq_some_iff.mp h
      rw [decls_foldlM hf hrest, hf t a t₁ hstep, List.flatMap_cons, List.foldl_append]

/-- The control has the actions that were declared along the way. -/
theorem actionDecls_of_convert {c : Control H F X} (h : P.convert initialOffsets = some c) :
    c.actionDecls = (P.decls initialOffsets).actionDecls := by
  unfold convert at h
  obtain ⟨t, ht, rfl⟩ := Option.map_eq_some_iff.mp h
  have hvisit : ∀ s (t : Tables H F X) p t', P.visitInstance initialOffsets s t p = some t' →
      t'.decls = (initialOffsets.map fun o => (p, o)).foldl P.declareAction t.decls := by
    intro s t p t' h
    unfold visitInstance at h
    dsimp only at h
    split at h
    · cases h
      exact fst_foldl_synthesize initialOffsets _
    · cases h
  exact congrArg Decls.actionDecls (decls_foldlM (fun t s t' h => decls_foldlM (hvisit s) h) ht)

variable {c : Control H F X} (hc : P.convert initialOffsets = some c)
include hc

theorem call_init (st : ℕ → Word) (σ : Store H F X) :
    c.call st σ [.init] = run ((P.initAction initialOffsets).map (Asgn.on st)) σ := by
  have hinit : lookup c.actionDecls .init = some (P.initAction initialOffsets) := by
    rw [actionDecls_of_convert hc]
    exact lookup_foldl_declareAction _ rfl
  rw [Control.call, List.foldl_cons, List.foldl_nil, hinit, Option.getD_some]

theorem call_reject (st : ℕ → Word) (σ : Store H F X) :
    c.call st σ [.reject] = Function.update σ .rejectStatus (.num 1) := by
  have hreject : lookup c.actionDecls .reject = some ParserDecl.rejectAction := by
    rw [actionDecls_of_convert hc]
    exact lookup_foldl_declareAction _ rfl
  rw [Control.call, List.foldl_cons, List.foldl_nil, hreject, Option.getD_some]
  rfl

theorem call_inst {p : List ℕ} {s : S} (hp : P.targetOf p = some (.state s)) {o : ℕ}
    (ho : o ∈ initialOffsets) (st : ℕ → Word) (σ : Store H F X) :
    c.call st σ [.inst o p] = run ((P.asgnsOf p o ++ P.appended p o).map (Asgn.on st)) σ := by
  have hinst : lookup c.actionDecls (.inst o p) = some (P.asgnsOf p o ++ P.appended p o) := by
    rw [actionDecls_of_convert hc]
    exact findAction_inst initialOffsets hp ho
  rw [Control.call, List.foldl_cons, List.foldl_nil, hinst, Option.getD_some]

end Declared

/-! ## The control -/

section Control

variable {P : Parser S H F X} [DecidableEq S] [DecidableEq H] [DecidableEq F] [DecidableEq X]
variable {initialOffsets : List ℕ} {o : ℕ} {st : ℕ → Word} {σ : Store H F X}

omit [DecidableEq S] in
/-- The path of the packet leads to states. -/
theorem targetOf_of_lastAction {fuel : ℕ} {q : List ℕ} : ∀ {p : List ℕ} {s : S},
    P.targetOf p = some (.state s) → P.lastAction st σ o fuel p = .inst o q →
      ∃ t, P.targetOf q = some (.state t) := by
  induction fuel with
  | zero =>
      intro p s hp h
      cases h
      exact ⟨s, hp⟩
  | succ fuel ih =>
      intro p s hp h
      rw [lastAction] at h
      split at h
      · cases h
      · split at h
        · cases h
        · rename_i t hnext
          exact ih hnext h
        · cases h
          exact ⟨s, hp⟩

/-- The control leaves what the last action on the path stands for. -/
theorem run_eq_leaves (ho : o ∈ initialOffsets)
    (hσ : initialOffsets ≠ [0] → σ .currOffset = .num o)
    (h : P.MeetsSelection initialOffsets o st σ)
    (hmeets : ∀ q, P.lastAction st σ o (P.rank P.start + 2) [] = .inst o q → P.Meets q o) :
    ∃ c, P.convert initialOffsets = some c ∧ c.run st σ =
      (P.outcome st σ o (P.lastAction st σ o (P.rank P.start + 2) [])).leaves
        (P.startStore σ o) := by
  obtain ⟨c, hc, hcalled⟩ := selects_of_meets ho hσ h
  refine ⟨c, hc, ?_⟩
  have hstart : c.call st σ [.init] = P.startStore σ o := by
    rw [call_init hc, run_initAction P st ho hσ]
  rw [run_initAction P st ho hσ] at hcalled
  rw [Control.run, hstart, hcalled]
  rcases P.lastAction_eq st σ o (P.rank P.start + 2) [] with hlast | ⟨q, hlast, -⟩
  · rw [hlast, call_reject hc]
    rfl
  · obtain ⟨t, ht⟩ := targetOf_of_lastAction (p := []) rfl hlast
    have hq := hmeets q hlast
    rw [hlast, call_inst hc ht ho, run_action P hq.2, statAssigns_readSlices _ st hq.1,
      ← execAll_statsTo]
    rfl

/-- **The converted parser does what the parser does.**  If the packet is selected by the
table, and the action of its last instance does what the states on its path do, the control
leaves the store with which the parser accepts, or sets the reject status where the parser
rejects. -/
theorem run_convert (ho : o ∈ initialOffsets) (hσ : initialOffsets ≠ [0] → σ .currOffset = .num o)
    (h : P.MeetsSelection initialOffsets o st σ)
    (hmeets : ∀ q, P.lastAction st σ o (P.rank P.start + 2) [] = .inst o q → P.Meets q o) :
    ∃ c r, P.convert initialOffsets = some c ∧
      P.parse (bitAt st) (P.startStore σ o) = some r ∧
      c.run st σ = r.leaves (P.startStore σ o) := by
  obtain ⟨c, hc, hrun⟩ := run_eq_leaves ho hσ h hmeets
  exact ⟨c, _, hc, parse_eq, hrun⟩

end Control

end Parser

/-! ## Two headers in a row -/

/-- Two bytes, and the states that extract them. -/
inductive BytePair where
  | first
  | second
  deriving DecidableEq

/-- The number of bytes that follow. -/
def BytePair.following : BytePair → ℕ
  | first => 1
  | second => 0

/-- A parser that extracts a byte and goes on to another one if it is zero. -/
def twoBytes : Parser BytePair BytePair Unit Unit where
  headers := [.first, .second]
  fields _ := [((), 8)]
  start := .first
  components s := [.extract s]
  transition
    | .first => .select [.loc (.field .first ())]
        [(.constant (.bits (List.replicate 8 false)), .state .second), (.default, .reject)]
    | .second => .goto .accept
  fields_nodup _ := List.nodup_singleton _
  extract_mem _ h _ := by cases h <;> decide
  extracted_nodup := ParserDecl.extracted_nodup_of_owner _ BytePair.following
    (fun s t => by cases s <;> cases t <;> decide) id
    (fun s h hh => by cases List.mem_singleton.mp hh; rfl) (fun s => by cases s <;> decide)
  rank := BytePair.following
  rank_lt s t := by cases s <;> cases t <;> decide
  sorted := [.first, .second]
  sorted_head := rfl
  mem_sorted _ s _ := by cases s <;> decide
  sorted_pairwise := by decide

theorem plain_twoBytes : twoBytes.Plain := fun p s es cases _ ht => match s, ht with
  | .first, ht => by
      cases ht
      exact ⟨⟨_, rfl⟩, List.cons_ne_nil _ _⟩
  | .second, ht => by cases ht

theorem keyFits_twoBytes : twoBytes.KeyFits [] 0 (.loc (.field .first ())) := by
  have hstats : twoBytes.statsOf [] = [] ++ .extract .first :: [] := rfl
  have hfields : twoBytes.fields .first = [] ++ ((), 8) :: [] := rfl
  exact .extracted hstats hfields (Or.inl rfl)

/-- A first byte of zeroes leads to the second state. -/
theorem meetsSelection_twoBytes {st : ℕ → Word} {σ : Store BytePair Unit Unit}
    (hzero : twoBytes.chosen st σ 0 [] = some 0) :
    twoBytes.MeetsSelection [0] 0 st σ := by
  refine ⟨by decide, plain_twoBytes, [], .first, rfl, ?_, fun h => absurd rfl h,
    fun _ => Or.inl rfl, Or.inl ?_⟩
  · exact fun q hq hne => absurd (List.suffix_nil.mp hq) hne
  · exact .next (i := 0) rfl rfl keyFits_twoBytes hzero rfl (.accept rfl rfl)

theorem meets_twoBytes : twoBytes.Meets [0] 0 := by
  refine ⟨⟨⟨Or.inl rfl, trivial⟩, ⟨Or.inl rfl, trivial⟩, trivial⟩, ?_⟩
  rintro i q ⟨⟩
  exact ⟨rfl, Parser.exchangeable_of_extract rfl (List.cons_ne_nil _ _)
    (fun s hs => ⟨.second, List.mem_singleton.mp hs⟩) (by decide)⟩

/-- On a packet of zeroes both headers are extracted. -/
theorem run_convert_twoBytes : ∃ c r, twoBytes.convert [0] = some c ∧
    twoBytes.parse (bitAt fun _ _ => false) (twoBytes.startStore (fun _ => .num 0) 0) = some r ∧
    c.run (fun _ _ => false) (fun _ => .num 0) =
      r.leaves (twoBytes.startStore (fun _ => .num 0) 0) := by
  refine Parser.run_convert List.mem_cons_self (fun h => absurd rfl h)
    (meetsSelection_twoBytes (by decide)) fun q hq => ?_
  have hlast : ActName.inst 0 [0] = .inst 0 q := hq
  cases hlast
  exact meets_twoBytes

end Parsing
end MicroP4
