import MicroP4.Foundations.Dominance
import MicroP4.Foundations.Exploration
import MicroP4.Graphs.SccSort
import Mathlib.Algebra.Order.BigOperators.Group.Finset

/-!
# Dominators and loops of a call graph

`dominators` starts from all nodes for every node but the start, and goes through the nodes,
taking away what does not dominate all callers, until nothing changes.  A node that cannot be
reached keeps all nodes: every path from the start to it goes through anything.

`compute_loops` collects the natural loops, one for each node that dominates one of its callers.
Since a node that cannot be reached is dominated by all nodes, each of its calls counts as a
call back to the head of a loop.
-/

namespace MicroP4
namespace Pruning

open Foundations Relation

variable {S : Type} [LinearOrder S]

namespace CallGraph

/-! ## Reachable nodes -/

/-- `reachable`.  It adds to the nodes that are passed, and does not go on from those. -/
def reachable (g : CallGraph S) (fuel : ℕ) (start : S) (out : Finset S) :
    Option (Finset S) :=
  explore (fun node out => if node ∈ out then ∅ else (g.outEdges node).toFinset) fuel {start} out

/-! ## Dominators -/

/-- The body of the loop over the nodes in `dominators`. -/
def visitDominators (g : CallGraph S) (r : (S → Finset S) × Bool) (node : S) :
    (S → Finset S) × Bool :=
  let dom := insert node ((g.inEdges node).foldl (fun s c => s ∩ r.1 c) (r.1 node))
  (Function.update r.1 node dom, r.2 || dom.card ≠ (r.1 node).card)

/-- The loop of `dominators`, for at most so many rounds. -/
def dominatorsLoop (g : CallGraph S) : (fuel : ℕ) → (S → Finset S) → Option (S → Finset S)
  | 0, _ => none
  | fuel + 1, dominators =>
      let r := g.nodes.foldl g.visitDominators (dominators, false)
      if r.2 then g.dominatorsLoop fuel r.1 else some r.1

/-- `dominators`. -/
def dominators (g : CallGraph S) (fuel : ℕ) (start : S) : Option (S → Finset S) :=
  g.dominatorsLoop fuel fun n =>
    if n ∉ g.nodes then ∅ else if n = start then {start} else g.nodes.toFinset

/-! ## Loops -/

/-- `Loop`. -/
structure Loop (S : Type) where
  entry : S
  body : Finset S
  backEdgeHeads : Finset S

/-- The reverse search from the source of a call back to the head of a loop. -/
def extendBody (g : CallGraph S) (fuel : ℕ) (head e : S) (body : Finset S) :
    Option (Finset S) :=
  explore (fun crt body =>
    if crt = head then ∅ else (g.inEdges crt).toFinset \ insert crt body) fuel {e} body

/-- A call of a dominator in `compute_loops`. -/
def addBackEdge (g : CallGraph S) (fuel : ℕ) (loops : List (Loop S)) (e : S × S) :
    Option (List (Loop S)) :=
  (if loops.any fun l => l.entry = e.2 then loops else loops ++ [⟨e.2, ∅, ∅⟩]).mapM fun l =>
    if l.entry = e.2 then
      (g.extendBody fuel e.2 e.1 l.body).map fun body => ⟨l.entry, body, insert e.1 l.backEdgeHeads⟩
    else some l

/-- The calls of dominators, in the order of the two loops of `compute_loops`. -/
def backEdges (g : CallGraph S) (dom : S → Finset S) : List (S × S) :=
  g.nodes.flatMap fun e => ((g.outEdges e).filter fun n => n ∈ dom e).map fun n => (e, n)

/-- `compute_loops`. -/
def computeLoops (g : CallGraph S) (fuel : ℕ) (start : S) :
    Option (List (Loop S)) :=
  (g.dominators fuel start).bind fun dom => (g.backEdges dom).foldlM (g.addBackEdge fuel) []

/-- `isLoopEntryPoint`: the index of the loop with the entry. -/
def isLoopEntryPoint (loops : List (Loop S)) (node : S) : Option ℕ :=
  loops.findIdx? fun l => l.entry = node

/-- `isInLoop`. -/
def isInLoop (loops : List (Loop S)) (loopIndex : Option ℕ) (node : S) : Bool :=
  match loopIndex.bind fun i => loops[i]? with
  | none => false
  | some l => node ∈ l.body

end CallGraph

section Correct

variable {g : CallGraph S} {ns : List S} {es : List (S × S)} (h : g.Represents ns es)
include h

namespace CallGraph.Represents

theorem edge_iff {a b : S} : g.Edge a b ↔ (a, b) ∈ es := by
  rw [CallGraph.Edge, h.outEdges, callees, List.mem_map]
  constructor
  · rintro ⟨e, he, rfl⟩
    obtain ⟨he, ha⟩ := List.mem_filter.mp he
    exact of_decide_eq_true ha ▸ he
  · exact fun he => ⟨(a, b), List.mem_filter.mpr ⟨he, decide_eq_true rfl⟩, rfl⟩

theorem mem_inEdges_iff {a b : S} : a ∈ g.inEdges b ↔ g.Edge a b := by
  rw [h.inEdges, mem_callers, h.edge_iff]

theorem target_mem {a b : S} (hE : g.Edge a b) : b ∈ g.nodes :=
  h.nodes ▸ (h.mem _ (h.edge_iff.mp hE)).2

theorem source_mem {a b : S} (hE : g.Edge a b) : a ∈ g.nodes :=
  h.nodes ▸ (h.mem _ (h.edge_iff.mp hE)).1

end CallGraph.Represents

/-! ## Reachable nodes are found -/

omit h in
theorem expands_reachable (g : CallGraph S) : Expands (fun node => (g.outEdges node).toFinset)
    fun node out => if node ∈ out then ∅ else (g.outEdges node).toFinset where
  subset := fun x out => by
    split
    · exact Finset.empty_subset _
    · exact subset_rfl
  cover := fun x out hx y hy => Or.inr (by rw [if_neg hx]; exact hy)
  fresh := fun x out hx y hy => by
    rw [if_pos hx] at hy
    exact absurd hy (Finset.notMem_empty y)

/-- **`reachable` finds what can be reached.**  To begin with, nothing was found. -/
theorem CallGraph.reachable_spec {start : S} {fuel : ℕ}
    (hfuel : (ns.length + 1) * (ns.length + 2) < fuel) : ∃ r, g.reachable fuel start ∅ = some r ∧
      ∀ v, v ∈ r ↔ ReflTransGen g.Edge start v := by
  have hnext : ∀ v ∈ insert start g.nodes.toFinset,
      (g.outEdges v).toFinset ⊆ insert start g.nodes.toFinset := fun v _ w hw =>
    Finset.mem_insert_of_mem (List.mem_toFinset.mpr (h.target_mem (List.mem_toFinset.mp hw)))
  have hcard : (insert start g.nodes.toFinset).card ≤ ns.length + 1 := by
    refine (Finset.card_insert_le _ _).trans (Nat.succ_le_succ ?_)
    exact h.nodes ▸ List.toFinset_card_le ns
  have hrem : remaining (insert start g.nodes.toFinset) {start} ∅ ≤ fuel := by
    rw [remaining, Finset.sdiff_empty, Finset.card_singleton]
    exact ((Nat.add_le_add_right (Nat.mul_le_mul hcard (Nat.succ_le_succ hcard)) 1)).trans hfuel
  obtain ⟨r, hr, hmem⟩ := explore_spec (expands_reachable g) hnext
    (Finset.singleton_subset_iff.mpr (Finset.mem_insert_self _ _))
    (fun v hv => absurd hv (Finset.notMem_empty v)) hrem
  refine ⟨r, hr, fun v => (hmem v).trans ⟨?_, fun hv => Or.inr ⟨start, ?_, ?_⟩⟩⟩
  · rintro (hv | ⟨x, hx, hv⟩)
    · exact absurd hv (Finset.notMem_empty v)
    · obtain rfl := Finset.mem_singleton.mp hx
      exact ReflTransGen.mono (fun a b hb => List.mem_toFinset.mp hb) _ _ hv
  · exact Finset.mem_singleton_self start
  · exact ReflTransGen.mono (fun a b hb => List.mem_toFinset.mpr hb) _ _ hv

/-! ## Dominators are found -/

/-- What `dominators` keeps: only what does not dominate a node was taken away from its set. -/
structure CallGraph.DominatorSets (g : CallGraph S) (start : S) (D : S → Finset S) : Prop where
  self : ∀ n ∈ g.nodes, n ∈ D n
  subset : ∀ n, D n ⊆ g.nodes.toFinset
  start_subset : D start ⊆ {start}
  complete : ∀ n ∈ g.nodes, ∀ d ∈ g.nodes, Dominates g.Edge start d n → d ∈ D n

/-- The sets do not change at a node. -/
def CallGraph.Settled (g : CallGraph S) (D : S → Finset S) (n : S) : Prop :=
  ∀ d ∈ D n, d = n ∨ ∀ c, g.Edge c n → d ∈ D c

/-- How much can still be taken away. -/
def CallGraph.weight (g : CallGraph S) (D : S → Finset S) : ℕ :=
  ∑ n ∈ g.nodes.toFinset, (D n).card

omit h in
theorem mem_foldl_inter {D : S → Finset S} {cs : List S} {s : Finset S} {d : S} :
    d ∈ cs.foldl (fun s c => s ∩ D c) s ↔ d ∈ s ∧ ∀ c ∈ cs, d ∈ D c := by
  induction cs generalizing s with
  | nil => simp
  | cons c cs ih =>
      rw [List.foldl_cons, ih, Finset.mem_inter, List.forall_mem_cons, and_assoc]

/-- What stays in the set of the node that is visited. -/
theorem mem_visitDominators {r : (S → Finset S) × Bool} {node d : S} :
    d ∈ (g.visitDominators r node).1 node ↔
      d = node ∨ d ∈ r.1 node ∧ ∀ c, g.Edge c node → d ∈ r.1 c := by
  simp only [CallGraph.visitDominators, Function.update_self, Finset.mem_insert, mem_foldl_inter,
    h.mem_inEdges_iff]

omit h in
theorem visitDominators_of_ne {r : (S → Finset S) × Bool} {node n : S} (hne : n ≠ node) :
    (g.visitDominators r node).1 n = r.1 n := by
  simp only [CallGraph.visitDominators, Function.update_of_ne hne]

namespace CallGraph.DominatorSets

variable {start : S} {r : (S → Finset S) × Bool} {node : S}

/-- A visit takes elements away. -/
theorem visit_subset (hD : g.DominatorSets start r.1) (hnode : node ∈ g.nodes) (n : S) :
    (g.visitDominators r node).1 n ⊆ r.1 n := by
  by_cases hn : n = node
  · subst hn
    intro d hd
    rcases (mem_visitDominators h).mp hd with rfl | hd
    · exact hD.self d hnode
    · exact hd.1
  · rw [visitDominators_of_ne hn]

theorem visit (hD : g.DominatorSets start r.1) (hnode : node ∈ g.nodes) :
    g.DominatorSets start (g.visitDominators r node).1 where
  self := fun n hn => by
    by_cases hne : n = node
    · exact hne ▸ (mem_visitDominators h).mpr (Or.inl rfl)
    · rw [visitDominators_of_ne hne]
      exact hD.self n hn
  subset := fun n => (hD.visit_subset h hnode n).trans (hD.subset n)
  start_subset := (hD.visit_subset h hnode start).trans hD.start_subset
  complete := fun n hn d hd hdom => by
    by_cases hne : n = node
    · subst hne
      refine (mem_visitDominators h).mpr (or_iff_not_imp_left.mpr fun hdn => ?_)
      exact ⟨hD.complete n hn d hd hdom, fun c hE =>
        hD.complete c (h.source_mem hE) d hd (hdom.of_edge hdn hE)⟩
    · rw [visitDominators_of_ne hne]
      exact hD.complete n hn d hd hdom

/-- Either a visit takes something away and sets the flag, or it changes nothing. -/
theorem visit_cases (hD : g.DominatorSets start r.1) (hnode : node ∈ g.nodes) :
    (g.visitDominators r node).2 = true ∧
        g.weight (g.visitDominators r node).1 < g.weight r.1 ∨
      g.visitDominators r node = r ∧ g.Settled r.1 node := by
  have hsub := hD.visit_subset h hnode
  have hflag : (g.visitDominators r node).2
      = (r.2 || decide (((g.visitDominators r node).1 node).card ≠ (r.1 node).card)) := by
    simp only [visitDominators, Function.update_self]
  by_cases hcard : ((g.visitDominators r node).1 node).card = (r.1 node).card
  · right
    have heq : (g.visitDominators r node).1 node = r.1 node :=
      Finset.eq_of_subset_of_card_le (hsub node) hcard.ge
    refine ⟨Prod.ext (funext fun n => ?_) ?_, fun d hd => ?_⟩
    · by_cases hn : n = node
      · exact hn ▸ heq
      · exact visitDominators_of_ne hn
    · rw [hflag, hcard, decide_eq_false (by simp), Bool.or_false]
    · exact ((mem_visitDominators h).mp (heq ▸ hd)).imp_right And.right
  · left
    refine ⟨by rw [hflag, decide_eq_true hcard, Bool.or_true], ?_⟩
    refine Finset.sum_lt_sum (fun n _ => Finset.card_le_card (hsub n))
      ⟨node, List.mem_toFinset.mpr hnode, ?_⟩
    exact lt_of_le_of_ne (Finset.card_le_card (hsub node)) hcard

/-- The same for a round over some nodes. -/
theorem visits {l : List S} (hD : g.DominatorSets start r.1) (hl : l ⊆ g.nodes) :
    g.DominatorSets start (l.foldl g.visitDominators r).1 ∧
      ((l.foldl g.visitDominators r).2 = true ∧
          g.weight (l.foldl g.visitDominators r).1 < g.weight r.1 ∨
        l.foldl g.visitDominators r = r ∧ ∀ n ∈ l, g.Settled r.1 n) := by
  induction l generalizing r with
  | nil => exact ⟨hD, Or.inr ⟨rfl, fun n hn => absurd hn List.not_mem_nil⟩⟩
  | cons node l ih =>
      have hnode : node ∈ g.nodes := hl List.mem_cons_self
      obtain ⟨hD', hrest⟩ := ih (hD.visit h hnode) fun n hn => hl (List.mem_cons_of_mem _ hn)
      rw [List.foldl_cons]
      refine ⟨hD', ?_⟩
      rcases hD.visit_cases h hnode with ⟨hflag, hlt⟩ | ⟨heq, hset⟩
      · left
        rcases hrest with ⟨hflag', hlt'⟩ | ⟨heq', -⟩
        · exact ⟨hflag', hlt'.trans hlt⟩
        · exact heq'.symm ▸ ⟨hflag, hlt⟩
      · rw [heq] at hrest ⊢
        exact hrest.imp_right fun ⟨heq', hall⟩ =>
          ⟨heq', List.forall_mem_cons.mpr ⟨hset, hall⟩⟩

/-- With enough rounds, nothing changes any more. -/
theorem loop {fuel : ℕ} {D : S → Finset S} (hD : g.DominatorSets start D)
    (hfuel : g.weight D < fuel) : ∃ D', g.dominatorsLoop fuel D = some D' ∧
      g.DominatorSets start D' ∧ ∀ n ∈ g.nodes, g.Settled D' n := by
  induction fuel generalizing D with
  | zero => exact absurd hfuel (Nat.not_lt_zero _)
  | succ fuel ih =>
      obtain ⟨hD', hcases⟩ := visits h (r := (D, false)) hD (List.Subset.refl _)
      rw [CallGraph.dominatorsLoop]
      rcases hcases with ⟨hflag, hlt⟩ | ⟨heq, hset⟩
      · rw [if_pos hflag]
        exact ih hD' (lt_of_lt_of_le hlt (Nat.le_of_lt_succ hfuel))
      · rw [heq]
        exact ⟨D, rfl, hD, hset⟩

omit h in
theorem init (start : S) : g.DominatorSets start fun n =>
    if n ∉ g.nodes then ∅ else if n = start then {start} else g.nodes.toFinset where
  self := fun n hn => by
    rw [if_neg (not_not.mpr hn)]
    split
    · exact Finset.mem_singleton.mpr ‹_›
    · exact List.mem_toFinset.mpr hn
  subset := fun n => by
    split
    · exact Finset.empty_subset _
    · split
      · exact Finset.singleton_subset_iff.mpr (List.mem_toFinset.mpr (by simp_all))
      · exact subset_rfl
  start_subset := by
    split
    · exact Finset.empty_subset _
    · rw [if_pos rfl]
  complete := fun n hn d hd hdom => by
    rw [if_neg (not_not.mpr hn)]
    split
    · subst ‹n = start›
      exact Finset.mem_singleton.mpr (dominates_start_iff.mp hdom)
    · exact List.mem_toFinset.mpr hd

end CallGraph.DominatorSets

/-- The sets at the end hold the dominators. -/
theorem CallGraph.exists_dominators (start : S) {fuel : ℕ}
    (hfuel : ns.length * ns.length < fuel) : ∃ D, g.dominators fuel start = some D ∧
      ∀ n ∈ g.nodes, ∀ d ∈ g.nodes, d ∈ D n ↔ Dominates g.Edge start d n := by
  have hlen : g.nodes.toFinset.card ≤ ns.length := h.nodes ▸ List.toFinset_card_le ns
  have hweight : g.weight (fun n =>
      if n ∉ g.nodes then ∅ else if n = start then {start} else g.nodes.toFinset) < fuel := by
    refine lt_of_le_of_lt (Finset.sum_le_card_nsmul _ _ g.nodes.toFinset.card fun n _ => ?_) ?_
    · exact Finset.card_le_card ((DominatorSets.init start).subset n)
    · exact lt_of_le_of_lt (Nat.mul_le_mul hlen hlen) hfuel
  obtain ⟨D, hrun, hD, hset⟩ := (DominatorSets.init start).loop h hweight
  refine ⟨D, hrun, fun n hn d hd => ⟨fun hmem => ?_, hD.complete n hn d hd⟩⟩
  refine dominates_of_family (D := fun n d => d ∈ D n)
    (fun d hd => Finset.mem_singleton.mp (hD.start_subset hd)) (fun n d hd => ?_) hmem
  by_cases hn : n ∈ g.nodes
  · exact hset n hn d hd
  · exact Or.inr fun c hE => absurd (h.target_mem hE) hn

/-! ## Loops are found -/

omit h in
theorem expands_extendBody (g : CallGraph S) (head : S) :
    Expands (fun crt => if crt = head then ∅ else (g.inEdges crt).toFinset)
      fun crt body => if crt = head then ∅ else (g.inEdges crt).toFinset \ insert crt body where
  subset := fun x out => by
    by_cases hx : x = head
    · rw [if_pos hx, if_pos hx]
    · rw [if_neg hx, if_neg hx]
      exact Finset.sdiff_subset
  cover := fun x out _ y hy => by
    by_cases hx : x = head
    · rw [if_pos hx] at hy
      exact absurd hy (Finset.notMem_empty y)
    · rw [if_neg hx] at hy ⊢
      exact or_iff_not_imp_left.mpr fun hyo => Finset.mem_sdiff.mpr ⟨hy, hyo⟩
  fresh := fun x out _ y hy hyo => by
    by_cases hx : x = head
    · rw [if_pos hx] at hy
      exact absurd hy (Finset.notMem_empty y)
    · rw [if_neg hx] at hy
      exact (Finset.mem_sdiff.mp hy).2 (Finset.mem_insert_of_mem hyo)

/-- The callers a search goes on to, unless it is at the head. -/
theorem mem_callers_past {head a b : S} :
    (b ∈ if a = head then ∅ else (g.inEdges a).toFinset) ↔ g.Edge b a ∧ a ≠ head := by
  split
  · exact ⟨fun hb => absurd hb (Finset.notMem_empty b), fun hb => absurd ‹a = head› hb.2⟩
  · rw [List.mem_toFinset, h.mem_inEdges_iff]
    exact ⟨fun hb => ⟨hb, ‹a ≠ head›⟩, And.left⟩

/-- A search adds what reaches its first node without coming to the head. -/
theorem CallGraph.extendBody_spec {fuel : ℕ} {head e : S} {body : Finset S}
    (hfuel : ns.length * (ns.length + 1) < fuel) (he : e ∈ g.nodes)
    (hclosed : ∀ v ∈ body, v ≠ head → ∀ c, g.Edge c v → c ∈ body) :
    ∃ r, g.extendBody fuel head e body = some r ∧
      ∀ v, v ∈ r ↔ v ∈ body ∨ ReachesPast g.Edge head v e := by
  have hlen : g.nodes.toFinset.card ≤ ns.length := h.nodes ▸ List.toFinset_card_le ns
  have hrem : remaining g.nodes.toFinset {e} body ≤ fuel := by
    rw [remaining, Finset.card_singleton]
    refine le_trans ?_ (Nat.succ_le_of_lt hfuel)
    exact Nat.succ_le_succ (Nat.mul_le_mul ((Finset.card_le_card Finset.sdiff_subset).trans hlen)
      (Nat.succ_le_succ hlen))
  have hnext : ∀ v ∈ g.nodes.toFinset,
      (if v = head then ∅ else (g.inEdges v).toFinset) ⊆ g.nodes.toFinset :=
    fun v _ w hw => List.mem_toFinset.mpr (h.source_mem ((mem_callers_past h).mp hw).1)
  obtain ⟨r, hr, hmem⟩ := explore_spec (expands_extendBody g head) hnext
    (Finset.singleton_subset_iff.mpr (List.mem_toFinset.mpr he))
    (fun v hv w hw => Or.inl (hclosed v hv ((mem_callers_past h).mp hw).2 w
      ((mem_callers_past h).mp hw).1)) hrem
  refine ⟨r, hr, fun v => (hmem v).trans (or_congr_right ?_)⟩
  rw [ReachesPast, ← reflTransGen_swap]
  constructor
  · rintro ⟨x, hx, hv⟩
    obtain rfl := Finset.mem_singleton.mp hx
    exact ReflTransGen.mono (fun a b hb => (mem_callers_past h).mp hb) _ _ hv
  · exact fun hv => ⟨e, Finset.mem_singleton_self e,
      ReflTransGen.mono (fun a b hb => (mem_callers_past h).mpr hb) _ _ hv⟩

/-- The loops of some calls back to the heads of loops. -/
structure CallGraph.LoopsOf (g : CallGraph S) (done : List (S × S)) (loops : List (Loop S)) :
    Prop where
  nodup : (loops.map Loop.entry).Nodup
  entry : ∀ e ∈ done, e.2 ∈ loops.map Loop.entry
  backEdgeHeads : ∀ l ∈ loops, ∀ e, e ∈ l.backEdgeHeads ↔ (e, l.entry) ∈ done
  body : ∀ l ∈ loops, ∀ v, v ∈ l.body ↔ ∃ e, (e, l.entry) ∈ done ∧ ReachesPast g.Edge l.entry v e

namespace CallGraph.LoopsOf

variable {done : List (S × S)} {loops : List (Loop S)}

omit [LinearOrder S] h in
/-- A loop without calls may be added. -/
theorem addEntry (hL : g.LoopsOf done loops) {n : S} (hn : n ∉ loops.map Loop.entry) :
    g.LoopsOf done (loops ++ [⟨n, ∅, ∅⟩]) := by
  have hdone : ∀ e, (e, n) ∉ done := fun e he => hn (hL.entry _ he)
  refine ⟨?_, fun e he => ?_, fun l hl => ?_, fun l hl => ?_⟩
  · rw [List.map_append]
    exact hL.nodup.append (List.nodup_singleton n) (List.disjoint_singleton.mpr hn)
  · rw [List.map_append]
    exact List.mem_append_left _ (hL.entry e he)
  · rcases List.mem_append.mp hl with hl | hl
    · exact hL.backEdgeHeads l hl
    · obtain rfl := List.mem_singleton.mp hl
      exact fun e => iff_of_false (Finset.notMem_empty e) (hdone e)
  · rcases List.mem_append.mp hl with hl | hl
    · exact hL.body l hl
    · obtain rfl := List.mem_singleton.mp hl
      exact fun v => iff_of_false (Finset.notMem_empty v) fun ⟨e, he, _⟩ => hdone e he

omit [LinearOrder S] h in
/-- The body of a loop is closed against its calls, up to the head. -/
theorem closed (hL : g.LoopsOf done loops) {l : Loop S} (hl : l ∈ loops) {v c : S}
    (hv : v ∈ l.body) (hne : v ≠ l.entry) (hE : g.Edge c v) : c ∈ l.body := by
  obtain ⟨e, he, hreach⟩ := (hL.body l hl v).mp hv
  exact (hL.body l hl c).mpr ⟨e, he, .head ⟨hE, hne⟩ hreach⟩

omit h in
/-- The loops after a call is added to the loop it belongs to. -/
theorem addCall (hL : g.LoopsOf done loops) {e : S × S} (hmem : e.2 ∈ loops.map Loop.entry)
    {f : Loop S → Loop S} (hne : ∀ l ∈ loops, l.entry ≠ e.2 → f l = l)
    (heq : ∀ l ∈ loops, l.entry = e.2 → (f l).entry = l.entry ∧
      (f l).backEdgeHeads = insert e.1 l.backEdgeHeads ∧
      ∀ v, v ∈ (f l).body ↔ v ∈ l.body ∨ ReachesPast g.Edge e.2 v e.1) :
    g.LoopsOf (done ++ [e]) (loops.map f) := by
  have hentry : ∀ l ∈ loops, (f l).entry = l.entry := fun l hl => by
    by_cases hle : l.entry = e.2
    · exact (heq l hl hle).1
    · rw [hne l hl hle]
  have hentries : (loops.map f).map Loop.entry = loops.map Loop.entry := by
    rw [List.map_map]
    exact List.map_congr_left hentry
  have hsnoc : ∀ e' n, (e', n) ∈ done ++ [e] ↔ (e', n) ∈ done ∨ e' = e.1 ∧ n = e.2 := fun e' n => by
    rw [List.mem_append, List.mem_singleton, Prod.ext_iff]
  refine ⟨hentries ▸ hL.nodup, fun e' he' => ?_, ?_, ?_⟩
  · rw [hentries]
    rcases List.mem_append.mp he' with he' | he'
    · exact hL.entry e' he'
    · exact List.mem_singleton.mp he' ▸ hmem
  · intro l' hl' e'
    obtain ⟨l, hl, rfl⟩ := List.mem_map.mp hl'
    rw [hsnoc, hentry l hl]
    by_cases hle : l.entry = e.2
    · rw [(heq l hl hle).2.1, Finset.mem_insert, hL.backEdgeHeads l hl, or_comm, and_iff_left hle]
    · rw [hne l hl hle, hL.backEdgeHeads l hl, or_iff_left fun hand => hle hand.2]
  · intro l' hl' v
    obtain ⟨l, hl, rfl⟩ := List.mem_map.mp hl'
    simp only [hsnoc, hentry l hl]
    by_cases hle : l.entry = e.2
    · rw [(heq l hl hle).2.2, hL.body l hl, ← hle]
      constructor
      · rintro (⟨e', he', hreach⟩ | hreach)
        · exact ⟨e', Or.inl he', hreach⟩
        · exact ⟨e.1, Or.inr ⟨rfl, rfl⟩, hreach⟩
      · rintro ⟨e', he' | ⟨rfl, -⟩, hreach⟩
        · exact Or.inl ⟨e', he', hreach⟩
        · exact Or.inr hreach
    · rw [hne l hl hle, hL.body l hl]
      simp only [hle, and_false, or_false]

omit [LinearOrder S] h in
theorem mapM_eq_some_map {α β : Type} {F : α → Option β} {f : α → β} {l : List α}
    (hF : ∀ a ∈ l, F a = some (f a)) : l.mapM F = some (l.map f) := by
  induction l with
  | nil => rfl
  | cons a l ih =>
      rw [List.forall_mem_cons] at hF
      rw [List.mapM_cons, hF.1, ih hF.2]
      rfl

/-- A call of a dominator is added. -/
theorem addBackEdge (hL : g.LoopsOf done loops) {fuel : ℕ}
    (hfuel : ns.length * (ns.length + 1) < fuel) {e : S × S} (he : e.1 ∈ g.nodes) :
    ∃ loops', g.addBackEdge fuel loops e = some loops' ∧ g.LoopsOf (done ++ [e]) loops' ∧
      loops'.map Loop.entry = if e.2 ∈ loops.map Loop.entry then loops.map Loop.entry
        else loops.map Loop.entry ++ [e.2] := by
  have hany : (loops.any fun l => l.entry = e.2) = true ↔ e.2 ∈ loops.map Loop.entry := by
    simp
  obtain ⟨base, hbase, hL', hmem, hentries⟩ : ∃ base,
      (if loops.any fun l => l.entry = e.2 then loops else loops ++ [⟨e.2, ∅, ∅⟩]) = base ∧
        g.LoopsOf done base ∧ e.2 ∈ base.map Loop.entry ∧
          base.map Loop.entry = if e.2 ∈ loops.map Loop.entry then loops.map Loop.entry
            else loops.map Loop.entry ++ [e.2] := by
    by_cases hmem : e.2 ∈ loops.map Loop.entry
    · exact ⟨loops, if_pos (hany.mpr hmem), hL, hmem, (if_pos hmem).symm⟩
    · refine ⟨_, if_neg (mt hany.mp hmem), hL.addEntry hmem, ?_, ?_⟩
      · rw [List.map_append]
        exact List.mem_append_right _ (List.mem_singleton_self _)
      · rw [if_neg hmem, List.map_append]
        rfl
  -- the search from the source of the call finds all that is missing
  have hsearch : ∀ l ∈ base, l.entry = e.2 → ∃ r, g.extendBody fuel e.2 e.1 l.body = some r ∧
      ∀ v, v ∈ r ↔ v ∈ l.body ∨ ReachesPast g.Edge e.2 v e.1 := fun l hl hle =>
    CallGraph.extendBody_spec h hfuel he fun v hv hne c hE => hL'.closed hl hv (hle ▸ hne) hE
  obtain ⟨f, hrun, hne, heq⟩ : ∃ f : Loop S → Loop S,
      (∀ l ∈ base, (if l.entry = e.2 then (g.extendBody fuel e.2 e.1 l.body).map fun body =>
        (⟨l.entry, body, insert e.1 l.backEdgeHeads⟩ : Loop S) else some l) = some (f l)) ∧
      (∀ l ∈ base, l.entry ≠ e.2 → f l = l) ∧
      ∀ l ∈ base, l.entry = e.2 → (f l).entry = l.entry ∧
        (f l).backEdgeHeads = insert e.1 l.backEdgeHeads ∧
        ∀ v, v ∈ (f l).body ↔ v ∈ l.body ∨ ReachesPast g.Edge e.2 v e.1 := by
    refine ⟨fun l => if l.entry = e.2 then ⟨l.entry, (g.extendBody fuel e.2 e.1 l.body).getD ∅,
      insert e.1 l.backEdgeHeads⟩ else l, fun l hl => ?_, fun l _ hle => if_neg hle,
      fun l hl hle => ?_⟩
    · by_cases hle : l.entry = e.2
      · obtain ⟨r, hr, -⟩ := hsearch l hl hle
        rw [if_pos hle, hr]
        simp only [if_pos hle, hr, Option.map_some, Option.getD_some]
      · simp only [if_neg hle]
    · obtain ⟨r, hr, hmemr⟩ := hsearch l hl hle
      simp only [if_pos hle, hr, Option.getD_some, hmemr, true_and, implies_true]
  refine ⟨base.map f, ?_, hL'.addCall hmem hne heq, ?_⟩
  · rw [CallGraph.addBackEdge, hbase]
    exact mapM_eq_some_map hrun
  · rw [List.map_map, ← hentries]
    refine List.map_congr_left fun l hl => ?_
    rw [Function.comp_apply]
    by_cases hle : l.entry = e.2
    · exact (heq l hl hle).1
    · rw [hne l hl hle]

/-- The calls are added one after the other. -/
theorem addBackEdges {fuel : ℕ} (hfuel : ns.length * (ns.length + 1) < fuel) {es' : List (S × S)}
    (hes : ∀ e ∈ es', e.1 ∈ g.nodes) (hL : g.LoopsOf done loops)
    (hentry : ∀ n ∈ loops.map Loop.entry, ∃ e, (e, n) ∈ done) :
    ∃ loops', es'.foldlM (g.addBackEdge fuel) loops = some loops' ∧
      g.LoopsOf (done ++ es') loops' ∧
        ∀ n ∈ loops'.map Loop.entry, ∃ e, (e, n) ∈ done ++ es' := by
  induction es' generalizing done loops with
  | nil => exact ⟨loops, rfl, by rwa [List.append_nil], by rwa [List.append_nil]⟩
  | cons e es' ih =>
      obtain ⟨hes, hrest⟩ := List.forall_mem_cons.mp hes
      obtain ⟨loops₁, hrun₁, hL₁, hentries⟩ := hL.addBackEdge h hfuel hes
      have hentry₁ : ∀ n ∈ loops₁.map Loop.entry, ∃ e', (e', n) ∈ done ++ [e] := fun n hn => by
        have hn' : n ∈ loops.map Loop.entry ∨ n = e.2 := by
          rw [hentries] at hn
          split at hn
          · exact Or.inl hn
          · exact (List.mem_append.mp hn).imp_right List.mem_singleton.mp
        rcases hn' with hn' | rfl
        · obtain ⟨e', he'⟩ := hentry n hn'
          exact ⟨e', List.mem_append_left _ he'⟩
        · exact ⟨e.1, List.mem_append_right _ (List.mem_singleton_self e)⟩
      obtain ⟨loops', hrun, hL', hentry'⟩ := ih hrest hL₁ hentry₁
      rw [List.append_assoc, List.singleton_append] at hL' hentry'
      exact ⟨loops', by rw [List.foldlM_cons, hrun₁]; exact hrun, hL', hentry'⟩

end CallGraph.LoopsOf

theorem CallGraph.mem_backEdges {dom : S → Finset S} {e n : S} :
    (e, n) ∈ g.backEdges dom ↔ g.Edge e n ∧ n ∈ dom e := by
  simp only [backEdges, List.mem_flatMap, List.mem_map, List.mem_filter, decide_eq_true_eq,
    Prod.mk.injEq]
  constructor
  · rintro ⟨_, -, _, hand, rfl, rfl⟩
    exact hand
  · exact fun hand => ⟨e, h.source_mem hand.1, n, hand, rfl, rfl⟩

/-- There is a loop at a node if it dominates one of its callers. -/
def CallGraph.LoopAt (g : CallGraph S) (start n e : S) : Prop :=
  g.Edge e n ∧ Dominates g.Edge start n e

theorem CallGraph.exists_loops (start : S) {fuel : ℕ}
    (hfuel : ns.length * (ns.length + 1) < fuel) : ∃ es' loops,
      g.computeLoops fuel start = some loops ∧ g.LoopsOf es' loops ∧
        (∀ n ∈ loops.map Loop.entry, ∃ e, (e, n) ∈ es') ∧
          ∀ e n, (e, n) ∈ es' ↔ g.LoopAt start n e := by
  have hsq : ns.length * ns.length < fuel :=
    lt_of_le_of_lt (Nat.mul_le_mul_left _ (Nat.le_succ _)) hfuel
  obtain ⟨D, hrun, hD⟩ := CallGraph.exists_dominators h start hsq
  have hmem : ∀ e n, (e, n) ∈ g.backEdges D ↔ g.LoopAt start n e := fun e n => by
    rw [mem_backEdges h]
    refine and_congr_right fun hE => hD e (h.source_mem hE) n (h.target_mem hE)
  have hnil : g.LoopsOf [] [] := ⟨List.nodup_nil, fun e he => absurd he List.not_mem_nil,
    fun l hl => absurd hl List.not_mem_nil, fun l hl => absurd hl List.not_mem_nil⟩
  have hsource : ∀ e ∈ g.backEdges D, e.1 ∈ g.nodes := fun e he =>
    h.source_mem ((hmem e.1 e.2).mp he).1
  obtain ⟨loops, hloops, hL, hentry⟩ := LoopsOf.addBackEdges h hfuel hsource hnil
    fun n hn => absurd hn List.not_mem_nil
  refine ⟨g.backEdges D, loops, ?_, hL, hentry, hmem⟩
  rw [computeLoops, hrun]
  exact hloops

end Correct

/-! ## The queries -/

section Queries

variable {loops : List (CallGraph.Loop S)}

theorem CallGraph.isSome_isLoopEntryPoint {n : S} :
    (isLoopEntryPoint loops n).isSome ↔ n ∈ loops.map Loop.entry := by
  rw [isLoopEntryPoint, List.findIdx?_isSome, List.any_eq_true, List.mem_map]
  simp only [decide_eq_true_eq]

/-- The body of the loop with an entry; no two loops have the same. -/
theorem CallGraph.isInLoop_iff (hnodup : (loops.map Loop.entry).Nodup) {n v : S} :
    isInLoop loops (isLoopEntryPoint loops n) v = true ↔
      ∃ l ∈ loops, l.entry = n ∧ v ∈ l.body := by
  have hfind : ∀ i, isLoopEntryPoint loops n = some i → ∃ l, loops[i]? = some l ∧ l.entry = n := by
    intro i hi
    obtain ⟨hlt, hentry, -⟩ := List.findIdx?_eq_some_iff_getElem.mp hi
    exact ⟨loops[i], List.getElem?_eq_getElem hlt, of_decide_eq_true hentry⟩
  constructor
  · intro hin
    cases hi : isLoopEntryPoint loops n with
    | none => simp [isInLoop, hi] at hin
    | some i =>
        obtain ⟨l, hl, hentry⟩ := hfind i hi
        refine ⟨l, List.mem_of_getElem? hl, hentry, ?_⟩
        simpa [isInLoop, hi, hl] using hin
  · rintro ⟨l, hl, rfl, hv⟩
    obtain ⟨i, hi⟩ := Option.isSome_iff_exists.mp
      (isSome_isLoopEntryPoint.mpr (List.mem_map_of_mem hl))
    obtain ⟨l', hl', hentry⟩ := hfind i hi
    obtain rfl := List.inj_on_of_nodup_map hnodup (List.mem_of_getElem? hl') hl hentry
    simpa [isInLoop, hi, hl'] using hv

end Queries

/-- **Dominators and loops.**  The nodes in the set of a node are those that every path from the
start to it goes through.  A node is the entry of a loop if it dominates one of its callers, and
in its body are the nodes from which such a caller is reached without coming back to it.  There
is no way into the loop that does not go through its entry. -/
theorem CallGraph.computeLoops_spec {g : CallGraph S} {ns : List S} {es : List (S × S)}
    (h : g.Represents ns es) (start : S) {fuel : ℕ}
    (hfuel : ns.length * (ns.length + 1) < fuel) : ∃ D loops,
      g.dominators fuel start = some D ∧ g.computeLoops fuel start = some loops ∧
        (∀ n ∈ ns, ∀ d ∈ ns, d ∈ D n ↔ Dominates g.Edge start d n) ∧
        ∀ n, ((isLoopEntryPoint loops n).isSome ↔ ∃ e, g.LoopAt start n e) ∧
          ∀ v, (isInLoop loops (isLoopEntryPoint loops n) v = true ↔
              ∃ e, g.LoopAt start n e ∧ ReachesPast g.Edge n v e) ∧
            (isInLoop loops (isLoopEntryPoint loops n) v = true →
              Dominates g.Edge start n v) := by
  obtain ⟨D, hrun, hD⟩ := CallGraph.exists_dominators h start
    (lt_of_le_of_lt (Nat.mul_le_mul_left _ (Nat.le_succ _)) hfuel)
  obtain ⟨es', loops, hloops, hL, hentry, hback⟩ := CallGraph.exists_loops h start hfuel
  have hbody : ∀ n v, isInLoop loops (isLoopEntryPoint loops n) v = true ↔
      ∃ e, g.LoopAt start n e ∧ ReachesPast g.Edge n v e := fun n v => by
    rw [isInLoop_iff hL.nodup]
    constructor
    · rintro ⟨l, hl, rfl, hv⟩
      obtain ⟨e, he, hreach⟩ := (hL.body l hl v).mp hv
      exact ⟨e, (hback e l.entry).mp he, hreach⟩
    · rintro ⟨e, he, hreach⟩
      have he' := (hback e n).mpr he
      obtain ⟨l, hl, rfl⟩ := List.mem_map.mp (hL.entry _ he')
      exact ⟨l, hl, rfl, (hL.body l hl v).mpr ⟨e, he', hreach⟩⟩
  refine ⟨D, loops, hrun, hloops, h.nodes ▸ hD, fun n => ⟨?_, fun v => ⟨hbody n v, fun hin => ?_⟩⟩⟩
  · rw [isSome_isLoopEntryPoint]
    constructor
    · intro hn
      obtain ⟨e, he⟩ := hentry n hn
      exact ⟨e, (hback e n).mp he⟩
    · rintro ⟨e, he⟩
      exact hL.entry _ ((hback e n).mpr he)
  · obtain ⟨e, ⟨-, hdom⟩, hreach⟩ := (hbody n v).mp hin
    exact hdom.of_reach hreach

/-- A loop of two nodes behind the start. -/
theorem CallGraph.computeLoops_spec_two : ∃ loops,
    (((CallGraph.empty.calls 0 1).calls 1 2).calls 2 1 : CallGraph ℕ).computeLoops 13 0
      = some loops ∧ ∀ n v, isInLoop loops (isLoopEntryPoint loops n) v = true →
        Dominates (((CallGraph.empty.calls 0 1).calls 1 2).calls 2 1).Edge 0 n v := by
  obtain ⟨-, loops, -, hloops, -, hall⟩ := CallGraph.computeLoops_spec
    (((CallGraph.Represents.empty.calls 0 1).calls 1 2).calls 2 1) 0
    (show _ < 13 by decide)
  exact ⟨loops, hloops, fun n v => ((hall n).2 v).2⟩

end Pruning
end MicroP4
