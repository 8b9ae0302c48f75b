import MicroP4.Graphs.SccSort
import MicroP4.Parsing.Unroll
import MicroP4.Pruning.XoredHeaderSets

/-!
# The order in which a parser is converted

`ParserConverter` sorts the call graph of the states by components, stops if there was a cycle,
and visits the states from the end of the list.  Every state comes before those it names, so the
instances of a state are there when it is visited.
-/

namespace MicroP4
namespace Pruning

open Foundations Relation

variable {S : Type} [DecidableEq S]

namespace ParserStructure

variable (P : ParserStructure S)

/-- The states in the order of the visit in `ParserConverter::preorder(P4Parser)`; a parser that
still has loops does not pass `BUG_CHECK`. -/
def visitOrder : Option (List S) :=
  match P.callGraph.sccSort (P.callGraph.nodes.length + 1) P.start with
  | some (false, sorted) => some sorted.reverse
  | _ => none

variable {P}

theorem callGraph_edge_iff {a b : S} : P.callGraph.Edge a b ↔ P.Edge a b := by
  have h := P.callGraph_represents
  rw [CallGraph.Edge, h.outEdges, callees, List.mem_map]
  constructor
  · rintro ⟨e, he, rfl⟩
    obtain ⟨he, ha⟩ := List.mem_filter.mp he
    exact of_decide_eq_true ha ▸ he
  · exact fun h => ⟨(a, b), List.mem_filter.mpr ⟨h, decide_eq_true rfl⟩, rfl⟩

variable (P) in
theorem exists_sccSort : ∃ hasLoop out,
    P.callGraph.sccSort (P.callGraph.nodes.length + 1) P.start = some (hasLoop, out) ∧
      Sorted P.Edge [P.start] hasLoop out := by
  have h := P.callGraph_represents
  have hedge : P.callGraph.Edge = P.Edge := by
    ext a b
    exact callGraph_edge_iff
  rw [CallGraph.sccSort_eq_sortFrom, ← hedge]
  exact CallGraph.sortFrom_spec h _ le_rfl

omit [DecidableEq S] in
/-- The start state is sorted last. -/
theorem getLast?_of_sorted {hasLoop : Bool} {out : List S}
    (h : Sorted P.Edge [P.start] hasLoop out) (hacyclic : ∀ s ∈ out, ¬ TransGen P.Edge s s) :
    out.getLast? = some P.start := by
  have hmem : ∀ v, v ∈ out ↔ ReflTransGen P.Edge P.start v := fun v => by
    rw [h.mem_iff v]
    exact ⟨fun ⟨n, hn, hreach⟩ => List.mem_singleton.mp hn ▸ hreach,
      fun hreach => ⟨P.start, List.mem_singleton_self _, hreach⟩⟩
  rcases List.eq_nil_or_concat' out with rfl | ⟨l, s, rfl⟩
  · exact absurd ((hmem P.start).mpr .refl) List.not_mem_nil
  · rw [List.getLast?_concat]
    rcases reflTransGen_iff_eq_or_transGen.mp
      ((hmem s).mp (List.mem_append_right _ (List.mem_singleton_self s))) with heq | hreach
    · rw [heq]
    · -- a state that names the last one would stand behind it
      obtain ⟨t, ht, hts⟩ := TransGen.tail'_iff.mp hreach
      rcases List.mem_append.mp ((hmem t).mpr ht) with ht' | ht'
      · have hpair := h.order.pairwise_not_edge hacyclic
        exact absurd hts ((List.pairwise_append.mp hpair).2.2 t ht' s
          (List.mem_singleton_self s)).2
      · obtain rfl := List.mem_singleton.mp ht'
        exact absurd (.single hts) (hacyclic t (List.mem_append_right _ ht'))

variable (P) in
/-- There is one exactly if no state that can be reached lies on a
loop.  It starts with the start state, has every state that can be reached once, and every state
before those it names. -/
theorem visitOrder_cases :
    (P.visitOrder ≠ none ↔ ∀ s, ReflTransGen P.Edge P.start s → ¬ TransGen P.Edge s s) ∧
    ∀ l, P.visitOrder = some l → l.head? = some P.start ∧ l.Nodup ∧
      (∀ s, s ∈ l ↔ ReflTransGen P.Edge P.start s) ∧ l.Pairwise fun s t => ¬ P.Edge t s := by
  obtain ⟨hasLoop, out, heq, hsorted⟩ := P.exists_sccSort
  have hmem : ∀ v, v ∈ out ↔ ReflTransGen P.Edge P.start v := fun v => by
    rw [hsorted.mem_iff v]
    exact ⟨fun ⟨n, hn, hreach⟩ => List.mem_singleton.mp hn ▸ hreach,
      fun hreach => ⟨P.start, List.mem_singleton_self _, hreach⟩⟩
  rw [visitOrder, heq]
  cases hasLoop with
  | true =>
      obtain ⟨s, hs, hcycle⟩ := hsorted.hasLoop_iff.mp rfl
      refine ⟨iff_of_false (fun h => h rfl) fun h => h s ((hmem s).mp hs) hcycle, fun l hl => ?_⟩
      exact absurd hl.symm (Option.some_ne_none l)
  | false =>
      have hacyclic : ∀ s ∈ out, ¬ TransGen P.Edge s s := fun s hs hcycle =>
        Bool.false_ne_true (hsorted.hasLoop_iff.mpr ⟨s, hs, hcycle⟩)
      refine ⟨iff_of_true (Option.some_ne_none _) fun s hs => hacyclic s ((hmem s).mpr hs), ?_⟩
      rintro l ⟨⟩
      refine ⟨?_, List.nodup_reverse.mpr hsorted.order.nodup, fun s => ?_, ?_⟩
      · rw [List.head?_reverse, getLast?_of_sorted hsorted hacyclic]
      · rw [List.mem_reverse, hmem]
      · exact List.pairwise_reverse.mpr
          ((hsorted.order.pairwise_not_edge hacyclic).imp fun h => h.2)

/-- **The order of the visit.**  There is one exactly if no state that can be reached lies on a
loop, and then it is one that the conversion of the parser relies on: it starts with the start
state, has every state that can be reached, each one once, and before those it names. -/
theorem visitOrder_spec {H F X : Type} {D : Parsing.ParserDecl S H F X} (hstart : D.start = P.start)
    (hedge : ∀ s t, P.Edge s t ↔ .state t ∈ (D.transition s).targets) :
    (P.visitOrder ≠ none ↔ ∀ s, ReflTransGen P.Edge P.start s → ¬ TransGen P.Edge s s) ∧
    ∀ l, P.visitOrder = some l → l.head? = some D.start ∧
      (∀ s, s ∈ l ↔ ∃ p, D.targetOf p = some (.state s)) ∧
      l.Pairwise fun s t => s ≠ t ∧ .state s ∉ (D.transition t).targets := by
  refine ⟨P.visitOrder_cases.1, fun l hl => ?_⟩
  obtain ⟨hhead, hnodup, hmem, hpair⟩ := P.visitOrder_cases.2 l hl
  have hreach : ∀ p s, D.targetOf p = some (.state s) → ReflTransGen P.Edge P.start s := by
    intro p
    induction p with
    | nil => exact fun s hp => by cases hp; rw [hstart]
    | cons i p ih =>
        intro s hp
        obtain ⟨s', hs', hi⟩ := Parsing.ParserDecl.targetOf_cons hp
        exact (ih s' hs').tail ((hedge s' s).mpr (List.mem_of_getElem? hi))
  refine ⟨hstart ▸ hhead, fun s => (hmem s).trans ⟨fun hs => ?_, fun ⟨p, hp⟩ => hreach p s hp⟩, ?_⟩
  · induction hs with
    | refl => exact ⟨[], by rw [← hstart]; rfl⟩
    | tail _ hE ih =>
        obtain ⟨p, hp⟩ := ih
        obtain ⟨i, hi⟩ := List.mem_iff_getElem?.mp ((hedge _ _).mp hE)
        exact ⟨i :: p, by rw [Parsing.ParserDecl.targetOf, hp]; exact hi⟩
  · refine (List.pairwise_and_iff.mpr ⟨List.nodup_iff_pairwise_ne.mp hnodup, hpair⟩).imp ?_
    exact fun hst => ⟨hst.1, fun hmem => hst.2 ((hedge _ _).mpr hmem)⟩

end ParserStructure

/-! ## A branch and a join -/

inductive DiamondState where
  | start
  | left
  | right
  | join
  deriving DecidableEq

/-- The start state selects one of two states, which both go on to the last one. -/
def diamond : Parsing.ParserDecl DiamondState Unit Unit Unit where
  headers := [()]
  fields _ := [((), 8)]
  start := .start
  components
    | .start => [.extract ()]
    | _ => []
  transition
    | .start => .select [.loc (.field () ())]
        [(.constant (.bits (List.replicate 8 false)), .state .left), (.default, .state .right)]
    | .left => .goto (.state .join)
    | .right => .goto (.state .join)
    | .join => .goto .accept

/-- Its states, the last one named first. -/
def diamondStates : ParserStructure DiamondState where
  states := [.join, .right, .left, .start]
  transitions
    | .start => [.left, .right]
    | .left => [.join]
    | .right => [.join]
    | .join => []
  extracts _ := []
  start := .start
  accept := .join

theorem edge_diamondStates (s t : DiamondState) :
    diamondStates.Edge s t ↔ .state t ∈ (diamond.transition s).targets := by
  rw [ParserStructure.Edge]
  cases s <;> cases t <;> decide

/-- The diamond is visited from its start on, and its last state after both branches. -/
theorem ParserStructure.visitOrder_spec_diamond : diamondStates.visitOrder ≠ none ∧
    ∀ l, diamondStates.visitOrder = some l → l.head? = some diamond.start ∧
      (∀ s, s ∈ l ↔ ∃ p, diamond.targetOf p = some (.state s)) ∧
      l.Pairwise fun s t => s ≠ t ∧ .state s ∉ (diamond.transition t).targets :=
  ⟨by decide, (ParserStructure.visitOrder_spec rfl edge_diamondStates).2⟩

end Pruning
end MicroP4
