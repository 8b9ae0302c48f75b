import MicroP4.Pruning.XoredHeaderSets

/-!
# When the loop over the call graph ends

`ParserRewriter` runs `CreateXoredHeaderSets` in front of the unroller, on parsers that may still
have loops.  A state of a loop keeps an incoming edge through all rounds, so the graph does not
become empty.  Without a loop a round takes at least the states away that are left at its depth,
and there are no more rounds than states.
-/

namespace MicroP4
namespace Pruning

open Foundations Relation

variable {S : Type} [DecidableEq S]

namespace ParserStructure

variable (P : ParserStructure S)

/-- The outer loop of `preorder(P4Parser)` ends: after some number of rounds the call graph is
empty, and no header on the way was read through a null pointer. -/
def LoopEnds : Prop := ∃ rounds r, P.loop rounds P.callGraph ⟨[], []⟩ = some r

variable {P}

/-- Where the loop ends, some number of steps is more than any chain has. -/
theorem exists_not_hasChain (fuel : ℕ) {k : ℕ} {g : CallGraph S} {ns : List S}
    {es : List (S × S)} (h : P.AtRound k g ns es) {r r' : XoredHeaders}
    (hloop : P.loop fuel g r = some r') :
    ∃ j, ∀ s ∈ P.callGraph.nodes, ¬ HasChain P.Edge s j := by
  by_cases hnil : g.nodes = []
  · exact ⟨k, h.eq_nil_iff.mp hnil⟩
  · cases fuel with
    | zero =>
        unfold loop at hloop
        rw [if_neg hnil] at hloop
        cases hloop
    | succ fuel =>
        obtain ⟨-, g', ns', es', r₁, hnext, hrest⟩ := h.of_loop_eq hnil hloop
        exact exists_not_hasChain fuel hnext hrest

theorem mem_nodes_of_transGen {a b : S} (h : TransGen P.Edge a b) : b ∈ P.callGraph.nodes := by
  cases h with
  | single hE => exact hE.target_mem
  | tail _ hE => exact hE.target_mem

/-- A loop of the states keeps the pass from ending. -/
theorem LoopEnds.acyclic (h : P.LoopEnds) (s : S) : ¬ TransGen P.Edge s s := by
  obtain ⟨rounds, r, hloop⟩ := h
  obtain ⟨j, hj⟩ := exists_not_hasChain rounds P.atRound_zero hloop
  exact fun hs => hj s (mem_nodes_of_transGen hs) (hasChain_of_transGen_self hs j)

theorem LoopEnds.members (h : P.LoopEnds) : ∀ s ∈ P.callGraph.nodes, P.Members s := by
  obtain ⟨rounds, r, hloop⟩ := h
  exact fun s hs => members_of_loop rounds P.atRound_zero hloop s hs (HasChain.zero s)

variable (P) in
/-- **Exactly when the loop ends.**  No state can be reached from itself, and every header that
is extracted is a field. -/
theorem loopEnds_iff :
    P.LoopEnds ↔ (∀ s, ¬ TransGen P.Edge s s) ∧ ∀ s ∈ P.callGraph.nodes, P.Members s := by
  constructor
  · exact fun h => ⟨h.acyclic, h.members⟩
  · rintro ⟨hacyclic, hmembers⟩
    obtain ⟨r, hloop, -⟩ := exists_loop_eq hacyclic P.callGraph.nodes.length P.atRound_zero
      (Nat.le_of_eq (Nat.zero_add _).symm) hmembers ⟨[], []⟩
    exact ⟨_, r, hloop⟩

end ParserStructure

/-! ## A loop that extracts labels -/

/-- The states of a parser for labels. -/
inductive LabelState where
  | start
  | parseEthernet
  | parseMpls
  | parseIpv4
  | accept
  deriving DecidableEq

/-- `TopParser` of `mpls-loop-parser.p4`. -/
def topParser : ParserStructure LabelState where
  states := [.start, .parseEthernet, .parseMpls, .parseIpv4, .accept]
  transitions
    | .start => [.parseEthernet]
    | .parseEthernet => [.parseIpv4, .parseMpls]
    | .parseMpls => [.parseMpls, .parseIpv4]
    | .parseIpv4 => [.accept]
    | .accept => []
  extracts
    | .parseEthernet => [.member (.path "ph") "ethernet"]
    | .parseMpls => [.next (.member (.path "ph") "mpls_lbls")]
    | .parseIpv4 => [.member (.path "ph") "ip"]
    | _ => []
  start := .start
  accept := .accept

theorem not_loopEnds_topParser : ¬ topParser.LoopEnds := fun h =>
  h.acyclic .parseMpls (.single (ParserStructure.edge_iff.mpr ⟨by decide, by decide⟩))

end Pruning
end MicroP4
