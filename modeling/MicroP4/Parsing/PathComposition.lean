import MicroP4.Parsing.ActionEffect

/-!
# The action of an instance and its path

The action of an instance runs the statements of its state first and then those of its
predecessor, without the last one.  `Parser.Meets` is the condition on the statements of a
path under which this has the effect of all of them in program order
(`actionCorrect_of_meets`).
-/

namespace MicroP4
namespace Parsing

open BitString Assignments

variable {S H F X : Type}

/-! ## When the action is right -/

/-- The locations a generated assignment reads. -/
def Asgn.Reads (a : Asgn H F X) (x : Loc H F X) : Prop :=
  match a.rhs with
  | .expr e => e.reads x
  | _ => False

/-- Neither of two generated assignments touches what the other writes. -/
def Asgn.Independent (a b : Asgn H F X) : Prop :=
  a.target ≠ b.target ∧ ¬ a.Reads b.target ∧ ¬ b.Reads a.target

theorem Asgn.on_reads {st : ℕ → Word} {a : Asgn H F X} {x : Loc H F X} :
    (a.on st).rhs.reads x ↔ a.Reads x := by
  obtain ⟨l, r⟩ := a
  cases r with
  | const v => exact Iff.rfl
  | slices s => exact Iff.rfl
  | expr e => exact Iff.rfl

theorem Asgn.Independent.on {a b : Asgn H F X} (h : a.Independent b) (st : ℕ → Word) :
    Assignments.Independent (a.on st) (b.on st) :=
  ⟨h.1, mt Asgn.on_reads.mp h.2.1, mt Asgn.on_reads.mp h.2.2⟩

/-- The statements of a state, `own`, can run in front of those of its predecessor, `pred`,
of which the last one is left out if there are several: it would be overwritten unread. -/
structure Exchangeable (pred own : List (Asgn H F X)) : Prop where
  last : ∀ l a, pred = l ++ [a] → l ≠ [] →
    (∃ b ∈ own, b.target = a.target) ∧ ∀ b ∈ own, ¬ b.Reads a.target
  independent : ∀ a ∈ popBack pred, ∀ b ∈ own, a.Independent b

namespace Parser

variable [DecidableEq H] (P : Parser S H F X)

/-- The condition on a path: its fields are aligned, only its last two states have
statements, and these can be exchanged. -/
def Meets (p : List ℕ) (o : ℕ) : Prop :=
  AlignedStats P.toParserDecl o (P.statsTo p) ∧
    ∀ i q, p = i :: q → P.statsBefore q = [] ∧ Exchangeable (P.asgnsOf q o) (P.asgnsOf p o)

/-- The store at the start of the parser: the headers are invalid and the cursor is at the
initial offset. -/
def startStore (σ : Store H F X) (o : ℕ) : Store H F X
  | .valid h => if h ∈ P.headers then .flag false else σ (.valid h)
  | .field h f => σ (.field h f)
  | .currOffset => .num o
  | .localOffset => .num o
  | .rejectStatus => .num 0
  | .var x => σ (.var x)

variable [DecidableEq S] [DecidableEq F] [DecidableEq X]

/-- The action that is declared for an instance, run after the initial action, does what the
parser does along the path. -/
def ActionCorrect (initialOffsets : List ℕ) (p : List ℕ) (o : ℕ) : Prop :=
  ∃ a, P.findAction initialOffsets (.inst o p) = some a ∧
    ∀ (st : ℕ → Word) (σ : Store H F X), (initialOffsets ≠ [0] → σ .currOffset = .num o) →
      run (a.map (Asgn.on st)) (run ((P.initAction initialOffsets).map (Asgn.on st)) σ) =
        P.execAll (bitAt st) (P.statsTo p) (P.startStore σ o)

/-! ## The initial action -/

theorem run_invalidate (st : ℕ → Word) {h : H} : ∀ {hs : List H} {σ : Store H F X}, h ∈ hs →
    run ((hs.map fun h => (⟨.valid h, .const (.flag false)⟩ : Asgn H F X)).map (Asgn.on st)) σ
      (.valid h) = .flag false
  | [], _, hmem => absurd hmem List.not_mem_nil
  | h' :: hs, σ, hmem => by
      rw [List.map_cons, List.map_cons, run_cons]
      by_cases hhs : h ∈ hs
      · exact run_invalidate st hhs
      · obtain rfl : h = h' := (List.mem_cons.mp hmem).resolve_right hhs
        rw [run_of_ne]
        · exact exec_target
        · intro a ha heq
          obtain ⟨b, hb, rfl⟩ := List.mem_map.mp ha
          obtain ⟨h', hh', rfl⟩ := List.mem_map.mp hb
          cases heq
          exact hhs hh'

theorem run_invalidate_of_ne (st : ℕ → Word) {hs : List H} {σ : Store H F X} {x : Loc H F X}
    (hx : ∀ h ∈ hs, Loc.valid h ≠ x) :
    run ((hs.map fun h => (⟨.valid h, .const (.flag false)⟩ : Asgn H F X)).map (Asgn.on st)) σ
      x = σ x := by
  refine run_of_ne fun a ha => ?_
  obtain ⟨b, hb, rfl⟩ := List.mem_map.mp ha
  obtain ⟨h, hh, rfl⟩ := List.mem_map.mp hb
  exact hx h hh

omit [DecidableEq S] in
/-- The initial action makes the store at the start of the parser. -/
theorem run_initAction (st : ℕ → Word) {initialOffsets : List ℕ} {o : ℕ} (ho : o ∈ initialOffsets)
    {σ : Store H F X} (hσ : initialOffsets ≠ [0] → σ .currOffset = .num o) :
    run ((P.initAction initialOffsets).map (Asgn.on st)) σ = P.startStore σ o := by
  rw [ParserDecl.initAction, List.map_append, List.map_append, run_append, run_append]
  have hvalid : ∀ h, run ((P.headers.map fun h => (⟨.valid h, .const (.flag false)⟩ :
      Asgn H F X)).map (Asgn.on st)) σ (.valid h) =
        if h ∈ P.headers then .flag false else σ (.valid h) := by
    intro h
    by_cases hh : h ∈ P.headers
    · rw [if_pos hh, run_invalidate st hh]
    · rw [if_neg hh]
      exact run_invalidate_of_ne st fun h' hh' heq => by
        cases heq
        exact hh hh'
  have hother : ∀ x, (∀ h, Loc.valid h ≠ x) → run ((P.headers.map fun h =>
      (⟨.valid h, .const (.flag false)⟩ : Asgn H F X)).map (Asgn.on st)) σ x = σ x :=
    fun x hx => run_invalidate_of_ne st fun h _ => hx h
  generalize run ((P.headers.map fun h => (⟨.valid h, .const (.flag false)⟩ :
      Asgn H F X)).map (Asgn.on st)) σ = τ at hvalid hother
  by_cases h0 : initialOffsets = [0]
  · obtain rfl : o = 0 := List.mem_singleton.mp (h0 ▸ ho)
    rw [if_pos h0]
    funext x
    cases x <;>
      simp [startStore, hvalid, hother, Asgn.on, Rhs.toExpr, Assignment.exec, Expr.const]
  · rw [if_neg h0]
    funext x
    cases x <;>
      simp [startStore, hvalid, hother, Asgn.on, Rhs.toExpr, Assignment.exec, Expr.const,
        Expr.loc, hσ h0]

/-! ## Program order -/

omit [DecidableEq S] [DecidableEq F] [DecidableEq X] in
/-- The statements of an instance, at the offset in front of it. -/
theorem map_on_asgnsOf (st : ℕ → Word) (p : List ℕ) (o : ℕ) :
    (P.asgnsOf p o).map (Asgn.on st) = statAssigns P.toParserDecl (readSlices st)
      (advance P.toParserDecl (P.statsBefore p) + o) (P.statsOf p) := by
  have hnodup := P.extracted_nodup p
  rw [P.statsTo_eq, ParserDecl.extracted, List.filterMap_append] at hnodup
  have hafter : (P.statsOf p).foldl P.executeStatement
      ((P.statsBefore p).foldl P.executeStatement (0, fun _ => 0)) = P.after p := by
    rw [ParserDecl.after, P.statsTo_eq, List.foldl_append]
  have hmap := map_on_substitute P.toParserDecl st o (P.after p) (P.statsOf p) _ hafter
    (List.nodup_append.mp hnodup).2.1
  rw [foldl_executeStatement_fst, Nat.zero_add] at hmap
  exact hmap

omit [DecidableEq S] in
/-- The parser's own run along a path. -/
theorem execAll_statsTo (st : ℕ → Word) (σ : Store H F X) (p : List ℕ) (o : ℕ) :
    P.execAll (bitAt st) (P.statsTo p) (P.startStore σ o) =
      run (statAssigns P.toParserDecl (readBits (bitAt st)) o (P.statsTo p)) (P.startStore σ o) :=
  execAll_eq_run P.toParserDecl (bitAt st) (P.statsTo p) rfl

theorem run_popBack_append {own pred : List (Asgn H F X)} (h : Exchangeable pred own)
    (st : ℕ → Word) (σ : Store H F X) :
    run ((own ++ popBack pred).map (Asgn.on st)) σ = run ((pred ++ own).map (Asgn.on st)) σ := by
  have hcomm : run ((own ++ popBack pred).map (Asgn.on st)) σ =
      run ((popBack pred ++ own).map (Asgn.on st)) σ := by
    rw [List.map_append, List.map_append]
    refine (run_append_comm fun a ha b hb => ?_).symm
    obtain ⟨a', ha', rfl⟩ := List.mem_map.mp ha
    obtain ⟨b', hb', rfl⟩ := List.mem_map.mp hb
    exact (h.independent a' ha' b' hb').on st
  rw [hcomm]
  unfold popBack
  by_cases hlen : pred.length > 1
  · rw [if_pos hlen]
    obtain ⟨l, a, rfl⟩ := (List.eq_nil_or_concat pred).resolve_left fun hnil => by
      rw [hnil] at hlen
      exact absurd hlen (Nat.not_lt_zero 1)
    rw [List.concat_eq_append] at h hlen ⊢
    have hl : l ≠ [] := by
      rintro rfl
      exact absurd hlen (Nat.lt_irrefl 1)
    obtain ⟨⟨b, hb, htarget⟩, hreads⟩ := h.last l a rfl hl
    rw [List.dropLast_concat, List.append_assoc, List.map_append, List.map_append, run_append,
      run_append]
    have hdead := run_cons_of_dead (a := a.on st) (σ := run (l.map (Asgn.on st)) σ)
      ⟨b.on st, List.mem_map_of_mem hb, htarget⟩ fun c hc => by
        obtain ⟨c', hc', rfl⟩ := List.mem_map.mp hc
        exact mt Asgn.on_reads.mp (hreads c' hc')
    exact hdead.symm
  · rw [if_neg hlen]

omit [DecidableEq S] in
/-- If the statements can be exchanged, the action runs them in program order. -/
theorem run_action {p : List ℕ} {o : ℕ}
    (h : ∀ i q, p = i :: q → P.statsBefore q = [] ∧ Exchangeable (P.asgnsOf q o) (P.asgnsOf p o))
    (st : ℕ → Word) (σ : Store H F X) :
    run ((P.asgnsOf p o ++ P.appended p o).map (Asgn.on st)) σ =
      run (statAssigns P.toParserDecl (readSlices st) o (P.statsTo p)) σ := by
  cases p with
  | nil =>
      rw [appended, List.append_nil, map_on_asgnsOf]
      show run (statAssigns P.toParserDecl (readSlices st) (0 + o) _) _ = _
      rw [Nat.zero_add]
      rfl
  | cons i q =>
      obtain ⟨hbefore, hex⟩ := h i q rfl
      have hstats : P.statsTo (i :: q) = P.statsOf q ++ P.statsOf (i :: q) := by
        rw [P.statsTo_eq, ParserDecl.statsBefore, P.statsTo_eq, hbefore, List.nil_append]
      have hown : P.statsBefore (i :: q) = P.statsOf q := by
        rw [ParserDecl.statsBefore, P.statsTo_eq, hbefore, List.nil_append]
      rw [appended, run_popBack_append hex, List.map_append, map_on_asgnsOf, map_on_asgnsOf,
        hbefore, hown, hstats, statAssigns_append, advance, Nat.zero_add, Nat.add_comm o]

/-- Under the condition the action does what the parser does. -/
theorem actionCorrect_of_meets {initialOffsets : List ℕ} {p : List ℕ} {s : S}
    (hp : P.targetOf p = some (.state s)) {o : ℕ} (ho : o ∈ initialOffsets)
    (h : P.Meets p o) : P.ActionCorrect initialOffsets p o := by
  refine ⟨_, findAction_inst initialOffsets hp ho, fun st σ hσ => ?_⟩
  rw [run_initAction P st ho hσ, execAll_statsTo, ← statAssigns_readSlices _ st h.1,
    run_action P h.2]

end Parser

end Parsing
end MicroP4
