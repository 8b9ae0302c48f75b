import MicroP4.Foundations.Assignments
import MicroP4.Foundations.BitString

/-!
# Parsers and their unrolling

`ParserSymbolicInterpreter` evaluates the states of a parser along every path from the
start state.  A state reached along several paths has several instances; an instance is
known by its path, the list of the transitions taken, last one first.  For each instance
the interpreter records how far the packet was read and where the headers extracted so far
lie in it.

The parser itself moves a cursor over the packet; `ParserDecl.exec` is what its statements
do to the headers, to their validity flags, to its locals and to the cursor, which is kept
in `indices.curr_offset`.
-/

namespace MicroP4
namespace Parsing

open BitString Assignments

/-! ## Stores -/

/-- What the parser and its translation assign to: the validity flag and the fields of a
header, the offset of the packet, its copy, the reject status, and a local or a field of the
metadata. -/
inductive Loc (H F X : Type) where
  | valid (h : H)
  | field (h : H) (f : F)
  | currOffset
  | localOffset
  | rejectStatus
  | var (x : X)
  deriving DecidableEq

/-- A value: bits in network order, a flag or an offset. -/
inductive Value where
  | bits (l : List Bool)
  | flag (b : Bool)
  | num (n : ℕ)
  deriving DecidableEq, Repr

/-- The values of all locations. -/
abbrev Store (H F X : Type) := Loc H F X → Value

/-! ## Syntax -/

/-- A statement of a parser state. -/
inductive ParserStat (H F X : Type) where
  | extract (h : H)
  | assign (x : X) (e : Expr (Loc H F X) Value)

/-- Where a transition leads. -/
inductive Target (S : Type) where
  | accept
  | reject
  | state (s : S)
  deriving DecidableEq

/-- The keyset of a select case: `default`, a constant, the values that match a mask or lie in
a range, or a list of such sets, one for each expression of the `select`. -/
inductive Keyset where
  | default
  | constant (v : Value)
  | mask (p : Value → Bool)
  | range (p : Value → Bool)
  | list (ps : List (Value → Bool))

/-- Whether a list of values is in a keyset. -/
def Keyset.contains : Keyset → List Value → Bool
  | .default, _ => true
  | .constant v, [v'] => v' = v
  | .mask p, [v] => p v
  | .range p, [v] => p v
  | .list ps, vs => ps.length = vs.length && (List.zipWith (fun p v => p v) ps vs).all id
  | _, _ => false

/-- An expression of a `select`.  A location is told apart, since the converter compares
the text of the expression with the left-hand sides of assignments. -/
inductive SelectExpr (H F X : Type) where
  | loc (l : Loc H F X)
  | expr (e : Expr (Loc H F X) Value)

/-- A transition, unconditional or by the cases of a `select`. -/
inductive Transition (S H F X : Type) where
  | goto (t : Target S)
  | select (es : List (SelectExpr H F X)) (cases : List (Keyset × Target S))

/-- The targets of a transition, in order. -/
def Transition.targets {S H F X : Type} : Transition S H F X → List (Target S)
  | .goto t => [t]
  | .select _ cases => cases.map Prod.snd

/-- The declarations of a parser.  `headers` are the fields of its header struct. -/
structure ParserDecl (S H F X : Type) where
  headers : List H
  fields : H → List (F × ℕ)
  start : S
  components : S → List (ParserStat H F X)
  transition : S → Transition S H F X

variable {S H F X : Type}

namespace ParserDecl

variable (P : ParserDecl S H F X)

/-! ## What the parser does -/

/-- The width of a header. -/
def width (h : H) : ℕ := ((P.fields h).map Prod.snd).sum

section Exec

variable [DecidableEq H] [DecidableEq F] [DecidableEq X]

/-- Filling the fields of a header from the packet. -/
def fillFields (pkt : Bits) (h : H) (start : ℕ) : List (F × ℕ) → Store H F X → Store H F X
  | [], σ => σ
  | (f, w) :: fs, σ =>
      fillFields pkt h (start + w) fs
        (Function.update σ (.field h f) (.bits (readBits pkt start w)))

/-- The cursor of a store. -/
def cursor (σ : Store H F X) : ℕ :=
  match σ .currOffset with
  | .num n => n
  | _ => 0

/-- A statement of the parser. -/
def exec (pkt : Bits) (σ : Store H F X) : ParserStat H F X → Store H F X
  | .extract h =>
      Function.update
        (fillFields pkt h (cursor σ) (P.fields h) (Function.update σ (.valid h) (.flag true)))
        .currOffset (.num (cursor σ + P.width h))
  | .assign x e => Function.update σ (.var x) (e.eval σ)

/-- Statements in order. -/
def execAll (pkt : Bits) (l : List (ParserStat H F X)) (σ : Store H F X) : Store H F X :=
  l.foldl (P.exec pkt) σ

end Exec

/-! ## Instances of states -/

/-- The target a path leads to. -/
def targetOf : List ℕ → Option (Target S)
  | [] => some (.state P.start)
  | i :: p =>
      match targetOf p with
      | some (.state s) => (P.transition s).targets[i]?
      | _ => none

/-- The statements of the state a path leads to. -/
def statsOf (p : List ℕ) : List (ParserStat H F X) :=
  match P.targetOf p with
  | some (.state s) => P.components s
  | _ => []

/-- The statements of all states on a path, in program order. -/
def statsTo : List ℕ → List (ParserStat H F X)
  | [] => P.statsOf []
  | i :: p => statsTo p ++ P.statsOf (i :: p)

/-- The statements of the states in front of the one a path leads to. -/
def statsBefore : List ℕ → List (ParserStat H F X)
  | [] => []
  | _ :: p => P.statsTo p

theorem statsTo_eq (p : List ℕ) : P.statsTo p = P.statsBefore p ++ P.statsOf p := by
  cases p with
  | nil => rfl
  | cons i p => rfl

/-- The headers a list of statements extracts. -/
def extracted (l : List (ParserStat H F X)) : List H :=
  l.filterMap fun s => match s with
    | .extract h => some h
    | .assign _ _ => none

/-- The instances a state transition creates. -/
def children (p : List ℕ) : List (List ℕ) :=
  match P.targetOf p with
  | some (.state s) => (List.range (P.transition s).targets.length).map fun i => i :: p
  | _ => []

/-- The instances created below one, in the order of the worklist of `run`: the children of
an instance are created together and evaluated last one first. -/
def created : ℕ → List ℕ → List (List ℕ)
  | 0, _ => []
  | fuel + 1, p => P.children p ++ (P.children p).reverse.flatMap (created fuel)

variable {P} in
theorem targetOf_cons {p : List ℕ} {i : ℕ} {t : Target S} (h : P.targetOf (i :: p) = some t) :
    ∃ s, P.targetOf p = some (.state s) ∧ (P.transition s).targets[i]? = some t := by
  rw [ParserDecl.targetOf] at h
  cases hp : P.targetOf p with
  | none => simp [hp] at h
  | some t' =>
      cases t' with
      | accept => simp [hp] at h
      | reject => simp [hp] at h
      | state s => exact ⟨s, rfl, by simpa [hp] using h⟩

theorem mem_extracted {l : List (ParserStat H F X)} {h : H} :
    h ∈ extracted l ↔ .extract h ∈ l := by
  rw [extracted, List.mem_filterMap]
  constructor
  · rintro ⟨s, hs, heq⟩
    cases s with
    | extract h' =>
        cases heq
        exact hs
    | assign x e => exact absurd heq (by simp)
  · exact fun hh => ⟨_, hh, rfl⟩

theorem extracted_append (l₁ l₂ : List (ParserStat H F X)) :
    extracted (l₁ ++ l₂) = extracted l₁ ++ extracted l₂ := List.filterMap_append

/-- No header is extracted twice along a path if each is extracted in one state only, and
there once. -/
theorem extracted_nodup_of_owner (rank : S → ℕ)
    (rank_lt : ∀ s t, .state t ∈ (P.transition s).targets → rank t < rank s) (owner : H → S)
    (howner : ∀ s h, .extract h ∈ P.components s → owner h = s)
    (hnodup : ∀ s, (extracted (P.components s)).Nodup) (p : List ℕ) :
    (extracted (P.statsTo p)).Nodup := by
  have hof : ∀ p s, P.targetOf p = some (.state s) → P.statsOf p = P.components s := by
    intro p s hp
    rw [statsOf, hp]
  -- the headers extracted so far belong to states of no smaller rank
  suffices hinv : (extracted (P.statsTo p)).Nodup ∧ ∀ s, P.targetOf p = some (.state s) →
      ∀ h ∈ extracted (P.statsTo p), rank s ≤ rank (owner h) from hinv.1
  induction p with
  | nil =>
      rw [statsTo, hof [] P.start rfl]
      refine ⟨hnodup P.start, fun s hs h hh => ?_⟩
      cases hs
      exact Nat.le_of_eq (congrArg rank (howner _ h (mem_extracted.mp hh)).symm)
  | cons i p ih =>
      obtain ⟨ihn, ihr⟩ := ih
      have hsplit : extracted (P.statsTo (i :: p)) =
          extracted (P.statsTo p) ++ extracted (P.statsOf (i :: p)) := extracted_append _ _
      rw [hsplit]
      by_cases ht : ∃ t, P.targetOf (i :: p) = some (.state t)
      · obtain ⟨t, ht⟩ := ht
        obtain ⟨s, hs, hi⟩ := targetOf_cons ht
        have hlt : rank t < rank s := rank_lt s t (List.mem_of_getElem? hi)
        rw [hof _ t ht]
        refine ⟨List.nodup_append.mpr ⟨ihn, hnodup t, fun h hh h' hh' heq => ?_⟩,
          fun t' ht' h hh => ?_⟩
        · have hle := ihr s hs h hh
          rw [heq, howner t h' (mem_extracted.mp hh')] at hle
          omega
        · rw [ht] at ht'
          cases ht'
          rcases List.mem_append.mp hh with hh | hh
          · exact Nat.le_trans (Nat.le_of_lt hlt) (ihr s hs h hh)
          · exact Nat.le_of_eq (congrArg rank (howner t h (mem_extracted.mp hh)).symm)
      · have hnil : P.statsOf (i :: p) = [] := by
          rw [statsOf]
          split
          · exact absurd ⟨_, ‹_›⟩ ht
          · rfl
        rw [hnil]
        refine ⟨?_, fun t htt => absurd ⟨t, htt⟩ ht⟩
        rw [extracted, extracted, List.filterMap_nil, List.append_nil]
        exact ihn

/-! ## Coordinates -/

section Coordinates

variable [DecidableEq H]

/-- What the interpreter knows of the packet and the headers: the offset of the packet and
where in it each header starts. -/
abbrev ValueMap (H : Type) := ℕ × (H → ℕ)

/-- `executeStatement`, on what it knows of the packet and the headers. -/
def executeStatement (m : ValueMap H) : ParserStat H F X → ValueMap H
  | .extract h => (m.1 + P.width h, Function.update m.2 h m.1)
  | .assign _ _ => m

/-- The map after an instance is evaluated. -/
def after (p : List ℕ) : ValueMap H := (P.statsTo p).foldl P.executeStatement (0, fun _ => 0)

end Coordinates

end ParserDecl

/-- A parser that passes the front end: a header struct with distinct fields of which the
states extract, no header extracted twice along a path (the interpreter reports
`OverwritingHeader`), and no loops.  `sorted` are the states in the topological order of
`sccSort`. -/
structure Parser (S H F X : Type) extends ParserDecl S H F X where
  fields_nodup : ∀ h, ((fields h).map Prod.fst).Nodup
  extract_mem : ∀ s h, .extract h ∈ components s → h ∈ headers
  extracted_nodup : ∀ p, (ParserDecl.extracted (toParserDecl.statsTo p)).Nodup
  rank : S → ℕ
  rank_lt : ∀ s t, .state t ∈ (transition s).targets → rank t < rank s
  sorted : List S
  sorted_head : sorted.head? = some start
  mem_sorted : ∀ p s, toParserDecl.targetOf p = some (.state s) → s ∈ sorted
  sorted_pairwise : sorted.Pairwise fun s t => s ≠ t ∧ .state s ∉ (transition t).targets

namespace Parser

variable (P : Parser S H F X)

/-- All instances that are created. -/
def instances : List (List ℕ) := [] :: P.created (P.rank P.start + 1) []

/-- `result->get(state->name)`: the instances of a state. -/
def evaluatedInstances [DecidableEq S] (s : S) : List (List ℕ) :=
  P.instances.filter fun p => P.targetOf p = some (.state s)

theorem mem_children {p : List ℕ} {i : ℕ} {t : Target S} (h : P.targetOf (i :: p) = some t) :
    i :: p ∈ P.children p := by
  obtain ⟨s, hs, ht⟩ := ParserDecl.targetOf_cons h
  rw [ParserDecl.children, hs]
  exact List.mem_map.mpr ⟨i, List.mem_range.mpr (List.getElem?_eq_some_iff.mp ht).1, rfl⟩

/-- A path that goes on leads to a state. -/
theorem targetOf_of_append {p : List ℕ} :
    ∀ {q : List ℕ} {t : Target S}, P.targetOf (q ++ p) = some t → q ≠ [] →
      ∃ s, P.targetOf p = some (.state s)
  | [], _, _, h => absurd rfl h
  | [i], _, ht, _ => by
      obtain ⟨s, hs, -⟩ := ParserDecl.targetOf_cons ht
      exact ⟨s, hs⟩
  | _ :: j :: q, _, ht, _ => by
      obtain ⟨s, hs, -⟩ := ParserDecl.targetOf_cons ht
      exact targetOf_of_append hs (List.cons_ne_nil j q)

/-- The paths that go on from a state are created below it. -/
theorem mem_created {fuel : ℕ} : ∀ {p : List ℕ} {s : S}, P.targetOf p = some (.state s) →
    P.rank s < fuel → ∀ {q : List ℕ} {t : Target S}, P.targetOf (q ++ p) = some t → q ≠ [] →
      q ++ p ∈ P.created fuel p := by
  induction fuel with
  | zero => exact fun _ h => absurd h (Nat.not_lt_zero _)
  | succ fuel ih =>
      intro p s hp hs q t hq hne
      obtain ⟨q', i, rfl⟩ := List.eq_nil_or_concat q |>.resolve_left hne
      rw [List.concat_eq_append, List.append_assoc, List.singleton_append] at hq ⊢
      rw [ParserDecl.created, List.mem_append]
      by_cases hq' : q' = []
      · subst hq'
        exact Or.inl (P.mem_children hq)
      · obtain ⟨s', hs'⟩ := P.targetOf_of_append hq hq'
        obtain ⟨s'', hs'', hi⟩ := ParserDecl.targetOf_cons hs'
        obtain rfl : s = s'' := by
          rw [hp] at hs''
          cases hs''
          rfl
        have hrank : P.rank s' < P.rank s := P.rank_lt s s' (List.mem_of_getElem? hi)
        refine Or.inr (List.mem_flatMap.mpr ⟨i :: p, ?_, ?_⟩)
        · exact List.mem_reverse.mpr (P.mem_children hs')
        · exact ih hs' (by omega) hq hq'

/-- Every path has its instance. -/
theorem mem_instances {p : List ℕ} {t : Target S} (h : P.targetOf p = some t) :
    p ∈ P.instances := by
  by_cases hp : p = []
  · rw [hp]
    exact List.mem_cons_self
  · have hmem := P.mem_created (p := []) rfl (Nat.lt_succ_self _)
      (by rw [List.append_nil]; exact h) hp
    rw [List.append_nil] at hmem
    exact List.mem_cons_of_mem _ hmem

theorem mem_evaluatedInstances [DecidableEq S] {p : List ℕ} {s : S} :
    p ∈ P.evaluatedInstances s ↔ P.targetOf p = some (.state s) := by
  rw [evaluatedInstances, List.mem_filter, decide_eq_true_iff]
  exact and_iff_right_of_imp P.mem_instances

end Parser

end Parsing
end MicroP4
