import Mathlib.Data.List.Nodup
import Mathlib.Logic.Function.Iterate

/-!
# The call graph of a parser

`CallGraph` keeps the edges between the states of a parser twice, at the caller and at the
callee, once for every call.  `remove` takes one edge away at the far end for every edge at the
node, so that all parallel edges are gone afterwards.
-/

namespace MicroP4
namespace Pruning

variable {S : Type} [DecidableEq S]

/-- A call graph.  A node without an entry in a map reads as one with no edges. -/
structure CallGraph (S : Type) where
  nodes : List S
  outEdges : S → List S
  inEdges : S → List S

namespace CallGraph

/-- `CallGraph(name)`. -/
def empty : CallGraph S := ⟨[], fun _ => [], fun _ => []⟩

/-- `add`. -/
def add (g : CallGraph S) (caller : S) : CallGraph S :=
  if caller ∈ g.nodes then g
  else
    { nodes := g.nodes ++ [caller]
      outEdges := Function.update g.outEdges caller []
      inEdges := Function.update g.inEdges caller [] }

/-- `calls`. -/
def calls (g : CallGraph S) (caller callee : S) : CallGraph S :=
  let g := (g.add caller).add callee
  { g with
    outEdges := Function.update g.outEdges caller (g.outEdges caller ++ [callee])
    inEdges := Function.update g.inEdges callee (g.inEdges callee ++ [caller]) }

/-- One pass over the neighbours of a node: an edge to it goes away at each of them. -/
def eraseEdges (node : S) (neighbours : List S) (edges : S → List S) : S → List S :=
  neighbours.foldl (fun edges n => Function.update edges n ((edges n).erase node)) edges

/-- `remove`; a node that is not in the graph does not pass `BUG_CHECK`. -/
def remove (g : CallGraph S) (node : S) : Option (CallGraph S) :=
  if node ∈ g.nodes then
    let outEdges := eraseEdges node (g.inEdges node) g.outEdges
    let inEdges := Function.update g.inEdges node []
    some
      { nodes := g.nodes.erase node
        outEdges := Function.update outEdges node []
        inEdges := eraseEdges node (outEdges node) inEdges }
  else none

/-- `isCallee`. -/
def isCallee (g : CallGraph S) (callee : S) : Bool := !(g.inEdges callee).isEmpty

/-- `getNodesWithoutIncomingEdge`. -/
def getNodesWithoutIncomingEdge (g : CallGraph S) : List S := g.nodes.filter fun n => !g.isCallee n

end CallGraph

/-! ## The edges of a graph -/

/-- The callees of a node in a list of calls. -/
def callees (es : List (S × S)) (a : S) : List S := (es.filter fun e => e.1 = a).map Prod.snd

/-- The callers of a node in a list of calls. -/
def callers (es : List (S × S)) (b : S) : List S := (es.filter fun e => e.2 = b).map Prod.fst

/-- The calls that are left without some nodes. -/
def callsWithout (zs : List S) (es : List (S × S)) : List (S × S) :=
  es.filter fun e => e.1 ∉ zs ∧ e.2 ∉ zs

theorem mem_callers {es : List (S × S)} {a b : S} : a ∈ callers es b ↔ (a, b) ∈ es := by
  simp [callers]

theorem mem_callsWithout {zs : List S} {es : List (S × S)} {e : S × S} :
    e ∈ callsWithout zs es ↔ e ∈ es ∧ e.1 ∉ zs ∧ e.2 ∉ zs := by
  rw [callsWithout, List.mem_filter, decide_eq_true_eq]

theorem callsWithout_cons (z : S) (zs : List S) (es : List (S × S)) :
    callsWithout (z :: zs) es = callsWithout zs (callsWithout [z] es) := by
  unfold callsWithout
  rw [List.filter_filter]
  refine List.filter_congr fun e _ => ?_
  simp only [List.mem_cons, List.not_mem_nil, or_false, not_or, ← Bool.decide_and]
  exact decide_eq_decide.mpr ⟨fun h => ⟨⟨h.1.2, h.2.2⟩, h.1.1, h.2.1⟩,
    fun h => ⟨⟨h.2.1, h.1.1⟩, h.2.2, h.1.2⟩⟩

/-- A call is at its caller as often as it is at its callee. -/
theorem count_callers (es : List (S × S)) (a b : S) :
    (callers es b).count a = (callees es a).count b := by
  induction es with
  | nil => rfl
  | cons e es ih =>
      unfold callers callees at ih ⊢
      by_cases ha : e.1 = a <;> by_cases hb : e.2 = b <;>
        simp [ha, hb, ih]

theorem callees_callsWithout (es : List (S × S)) {node a : S} (ha : a ≠ node) :
    callees (callsWithout [node] es) a = (callees es a).filter fun b => b ≠ node := by
  unfold callees callsWithout
  rw [List.filter_filter, List.filter_map, List.filter_filter]
  congr 1
  refine List.filter_congr fun e _ => ?_
  by_cases he : e.1 = a
  · simp [he, ha]
  · simp [he]

theorem callers_callsWithout (es : List (S × S)) {node b : S} (hb : b ≠ node) :
    callers (callsWithout [node] es) b = (callers es b).filter fun a => a ≠ node := by
  unfold callers callsWithout
  rw [List.filter_filter, List.filter_map, List.filter_filter]
  congr 1
  refine List.filter_congr fun e _ => ?_
  by_cases he : e.2 = b
  · simp [he, hb]
  · simp [he]

theorem callees_callsWithout_self (es : List (S × S)) (node : S) :
    callees (callsWithout [node] es) node = [] := by
  rw [callees, List.map_eq_nil_iff, List.filter_eq_nil_iff]
  intro e he hea
  exact (mem_callsWithout.mp he).2.1 (List.mem_singleton.mpr (of_decide_eq_true hea))

theorem callers_callsWithout_self (es : List (S × S)) (node : S) :
    callers (callsWithout [node] es) node = [] := by
  rw [callers, List.map_eq_nil_iff, List.filter_eq_nil_iff]
  intro e he heb
  exact (mem_callsWithout.mp he).2.2 (List.mem_singleton.mpr (of_decide_eq_true heb))

/-! ## Removing parallel edges -/

/-- Erasing as often as the element is there erases all of it. -/
theorem iterate_erase (node : S) (l : List S) :
    (fun l => l.erase node)^[l.count node] l = l.filter fun b => b ≠ node := by
  generalize hn : l.count node = n
  induction n generalizing l with
  | zero =>
      have hl : node ∉ l := List.count_eq_zero.mp hn
      refine (List.filter_eq_self.mpr fun b hb => ?_).symm
      exact decide_eq_true fun h : b = node => hl (h ▸ hb)
  | succ n ih =>
      have hcount : (l.erase node).count node = n := by rw [List.count_erase_self, hn]; rfl
      rw [Function.iterate_succ_apply, ih _ hcount]
      have hl : node ∈ l := List.count_pos_iff.mp (hn ▸ Nat.succ_pos n)
      obtain ⟨l₁, l₂, -, rfl, herase⟩ := List.exists_erase_eq hl
      rw [herase, List.filter_append, List.filter_append,
        List.filter_cons_of_neg (by simp)]

theorem CallGraph.eraseEdges_apply (node : S) (ns : List S) (edges : S → List S) (a : S) :
    eraseEdges node ns edges a = (fun l => l.erase node)^[ns.count a] (edges a) := by
  induction ns generalizing edges with
  | nil => rfl
  | cons n ns ih =>
      rw [show eraseEdges node (n :: ns) edges
        = eraseEdges node ns (Function.update edges n ((edges n).erase node)) from rfl, ih]
      by_cases hn : n = a
      · subst hn
        rw [Function.update_self, List.count_cons_self, Function.iterate_succ_apply]
      · rw [Function.update_of_ne (Ne.symm hn), List.count_cons_of_ne hn]

/-! ## What a graph represents -/

/-- The graph has these nodes and these calls between them. -/
structure CallGraph.Represents (g : CallGraph S) (ns : List S) (es : List (S × S)) : Prop where
  nodes : g.nodes = ns
  nodup : ns.Nodup
  mem : ∀ e ∈ es, e.1 ∈ ns ∧ e.2 ∈ ns
  outEdges : ∀ a, g.outEdges a = callees es a
  inEdges : ∀ b, g.inEdges b = callers es b

namespace CallGraph.Represents

variable {g : CallGraph S} {ns : List S} {es : List (S × S)}

theorem empty : (CallGraph.empty : CallGraph S).Represents [] [] where
  nodes := rfl
  nodup := List.nodup_nil
  mem := fun _ he => absurd he List.not_mem_nil
  outEdges := fun _ => rfl
  inEdges := fun _ => rfl

/-- A node that is not there has no calls. -/
theorem callees_eq_nil (h : g.Represents ns es) {a : S} (ha : a ∉ ns) : callees es a = [] := by
  rw [callees, List.map_eq_nil_iff, List.filter_eq_nil_iff]
  intro e he hea
  exact ha (of_decide_eq_true hea ▸ (h.mem e he).1)

theorem callers_eq_nil (h : g.Represents ns es) {b : S} (hb : b ∉ ns) : callers es b = [] := by
  rw [callers, List.map_eq_nil_iff, List.filter_eq_nil_iff]
  intro e he heb
  exact hb (of_decide_eq_true heb ▸ (h.mem e he).2)

/-- The nodes after `add`. -/
def addNode (ns : List S) (n : S) : List S := if n ∈ ns then ns else ns ++ [n]

theorem mem_addNode {n m : S} : m ∈ addNode ns n ↔ m ∈ ns ∨ m = n := by
  unfold addNode
  split
  · rename_i hn
    exact ⟨Or.inl, fun h => h.elim id fun hm => hm ▸ hn⟩
  · rw [List.mem_append, List.mem_singleton]

theorem add (h : g.Represents ns es) (n : S) : (g.add n).Represents (addNode ns n) es := by
  unfold CallGraph.add addNode
  rw [h.nodes]
  by_cases hn : n ∈ ns
  · rw [if_pos hn, if_pos hn]
    exact h
  · rw [if_neg hn, if_neg hn]
    refine ⟨rfl, ?_, fun e he => ?_, fun a => ?_, fun b => ?_⟩
    · exact List.nodup_append.mpr ⟨h.nodup, List.nodup_singleton n, fun a ha b hb hab =>
        hn (List.mem_singleton.mp hb ▸ hab ▸ ha)⟩
    · exact (h.mem e he).imp (List.mem_append_left _) (List.mem_append_left _)
    · show Function.update g.outEdges n [] a = callees es a
      by_cases ha : a = n
      · rw [ha, Function.update_self, h.callees_eq_nil hn]
      · rw [Function.update_of_ne ha, h.outEdges]
    · show Function.update g.inEdges n [] b = callers es b
      by_cases hb : b = n
      · rw [hb, Function.update_self, h.callers_eq_nil hn]
      · rw [Function.update_of_ne hb, h.inEdges]

theorem calls (h : g.Represents ns es) (caller callee : S) :
    (g.calls caller callee).Represents (addNode (addNode ns caller) callee)
      (es ++ [(caller, callee)]) := by
  have h' := (h.add caller).add callee
  unfold CallGraph.calls
  generalize (g.add caller).add callee = g' at h'
  refine ⟨h'.nodes, h'.nodup, fun e he => ?_, fun a => ?_, fun b => ?_⟩
  · rcases List.mem_append.mp he with he | he
    · exact h'.mem e he
    · obtain rfl := List.mem_singleton.mp he
      exact ⟨mem_addNode.mpr (Or.inl (mem_addNode.mpr (Or.inr rfl))), mem_addNode.mpr (Or.inr rfl)⟩
  · show Function.update g'.outEdges caller (g'.outEdges caller ++ [callee]) a = _
    by_cases ha : a = caller
    · subst ha
      rw [Function.update_self, h'.outEdges]
      simp [callees]
    · rw [Function.update_of_ne ha, h'.outEdges]
      simp [callees, Ne.symm ha]
  · show Function.update g'.inEdges callee (g'.inEdges callee ++ [caller]) b = _
    by_cases hb : b = callee
    · subst hb
      rw [Function.update_self, h'.inEdges]
      simp [callers]
    · rw [Function.update_of_ne hb, h'.inEdges]
      simp [callers, Ne.symm hb]

/-- `remove` takes a node away, with all its calls. -/
theorem remove (h : g.Represents ns es) {node : S} (hmem : node ∈ ns)
    (hself : (node, node) ∉ es) :
    ∃ g', g.remove node = some g' ∧
      g'.Represents (ns.erase node) (callsWithout [node] es) := by
  unfold CallGraph.remove
  rw [h.nodes, if_pos hmem]
  have hout : ∀ a, eraseEdges node (g.inEdges node) g.outEdges a
      = (callees es a).filter fun b => b ≠ node := by
    intro a
    rw [eraseEdges_apply, h.inEdges, h.outEdges, count_callers, iterate_erase]
  have hnode : eraseEdges node (g.inEdges node) g.outEdges node = callees es node := by
    rw [hout]
    refine List.filter_eq_self.mpr fun b hb => decide_eq_true ?_
    rintro rfl
    obtain ⟨e, he, rfl⟩ := List.mem_map.mp hb
    obtain ⟨he, hfst⟩ := List.mem_filter.mp he
    have hedge : (e.2, e.2) = e := Prod.ext (of_decide_eq_true hfst).symm rfl
    exact hself (hedge ▸ he)
  refine ⟨_, rfl, rfl, h.nodup.erase node, fun e he => ?_, fun a => ?_, fun b => ?_⟩
  · obtain ⟨he, h1, h2⟩ := mem_callsWithout.mp he
    have h1 : e.1 ≠ node := fun hn => h1 (List.mem_singleton.mpr hn)
    have h2 : e.2 ≠ node := fun hn => h2 (List.mem_singleton.mpr hn)
    exact ⟨(List.mem_erase_of_ne h1).mpr (h.mem e he).1,
      (List.mem_erase_of_ne h2).mpr (h.mem e he).2⟩
  · show Function.update (eraseEdges node (g.inEdges node) g.outEdges) node [] a = _
    by_cases ha : a = node
    · rw [ha, Function.update_self, callees_callsWithout_self]
    · rw [Function.update_of_ne ha, hout, callees_callsWithout es ha]
  · show eraseEdges node (eraseEdges node (g.inEdges node) g.outEdges node)
      (Function.update g.inEdges node []) b = _
    rw [hnode, eraseEdges_apply]
    by_cases hb : b = node
    · -- nothing is left to erase
      rw [hb, Function.update_self, callers_callsWithout_self]
      exact Function.iterate_fixed (f := fun l : List S => l.erase node) rfl _
    · rw [Function.update_of_ne hb, h.inEdges, ← count_callers, iterate_erase,
        callers_callsWithout es hb]

theorem mem_getNodesWithoutIncomingEdge (h : g.Represents ns es) {n : S} :
    n ∈ g.getNodesWithoutIncomingEdge ↔ n ∈ ns ∧ ∀ a, (a, n) ∉ es := by
  unfold CallGraph.getNodesWithoutIncomingEdge CallGraph.isCallee
  rw [List.mem_filter, h.nodes, h.inEdges, Bool.not_not, List.isEmpty_iff,
    List.eq_nil_iff_forall_not_mem]
  simp only [mem_callers]

theorem nodup_getNodesWithoutIncomingEdge (h : g.Represents ns es) :
    g.getNodesWithoutIncomingEdge.Nodup := by
  unfold CallGraph.getNodesWithoutIncomingEdge
  rw [h.nodes]
  exact h.nodup.filter _

end CallGraph.Represents

end Pruning
end MicroP4
