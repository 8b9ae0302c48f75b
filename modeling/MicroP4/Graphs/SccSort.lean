import MicroP4.Foundations.Components
import MicroP4.Pruning.CallGraph
import Mathlib.Data.Finset.Insert
import Mathlib.Data.Finset.Erase

/-!
# Sorting a call graph by components

`sccSort` is a depth-first search that lists the strongly connected components of what can be
reached from a node, each behind those it calls, and says whether there is a cycle.  A node gets
an index when it is entered.  Its `lowlink` is lowered to the `lowlink` of a callee that is still
on the stack, which need not be the least index that can be reached, but is the index of some
node on the stack that can be; and a node with a `lowlink` of its own index is the first one of
its component that was entered.

The converter of parsers visits the states in this order, read from the end, after it has
checked that there is no cycle.
-/

namespace MicroP4
namespace Pruning

open Foundations Relation

variable {S : Type} [DecidableEq S]

/-! ## The search -/

/-- `sccInfo`, with the nodes that are sorted so far.  The back of the vector `stack` is the
first node of the list. -/
structure SccInfo (S : Type) where
  crtIndex : ℕ
  stack : List S
  onStack : Finset S
  index : S → Option ℕ
  lowlink : S → ℕ
  out : List S

namespace SccInfo

/-- `sccInfo()`, with nothing sorted. -/
def initial : SccInfo S := ⟨0, [], ∅, fun _ => none, fun _ => 0, []⟩

/-- `get(index, node)`, which is 0 for a node without an index. -/
def getIndex (st : SccInfo S) (node : S) : ℕ := (st.index node).getD 0

/-- `unknown`. -/
def unknown (st : SccInfo S) (node : S) : Bool := (st.index node).isNone

/-- `isOnStack`. -/
def isOnStack (st : SccInfo S) (node : S) : Bool := node ∈ st.onStack

/-- `setLowLink(node, successor)`. -/
def setLowLink (st : SccInfo S) (node successor : S) : SccInfo S :=
  if st.lowlink successor < st.lowlink node then
    { st with lowlink := Function.update st.lowlink node (st.lowlink successor) }
  else st

/-- A node is entered: `index.emplace`, `setLowLink(node, crtIndex)` and `push`. -/
def enter (st : SccInfo S) (node : S) : SccInfo S :=
  { st with
    crtIndex := st.crtIndex + 1
    stack := node :: st.stack
    onStack := insert node st.onStack
    index := if st.unknown node then Function.update st.index node (some st.crtIndex) else st.index
    lowlink := Function.update st.lowlink node st.crtIndex }

/-- The loop that pops the members of a component up to the node itself.  It says whether there
was another one. -/
def popTo (node : S) (loop : Bool) (st : SccInfo S) : (stack : List S) → Bool × SccInfo S
  | [] => (loop, { st with stack := [] })
  | sccMember :: stack =>
      let st := { st with
        stack := stack
        onStack := st.onStack.erase sccMember
        out := st.out ++ [sccMember] }
      if sccMember = node then (loop, st) else popTo node true st stack

/-- The end of `strongConnect`. -/
def finish (node : S) (r : Bool × SccInfo S) : Bool × SccInfo S :=
  if r.2.lowlink node = r.2.getIndex node then popTo node r.1 r.2 r.2.stack else r

end SccInfo

/-- One callee of a node in `strongConnect`. -/
def visitCallee (strongConnect : S → SccInfo S → Option (Bool × SccInfo S)) (node : S)
    (r : Bool × SccInfo S) (next : S) : Option (Bool × SccInfo S) :=
  if r.2.unknown next then
    (strongConnect next r.2).map fun r' => (r.1 || r'.1, r'.2.setLowLink node next)
  else if r.2.isOnStack next then some (r.1 || next = node, r.2.setLowLink node next)
  else some r

namespace CallGraph

/-- `strongConnect`, for calls nested at most so deep.  It says whether a cycle was found. -/
def strongConnect (g : CallGraph S) : (fuel : ℕ) → S → SccInfo S → Option (Bool × SccInfo S)
  | 0, _, _ => none
  | fuel + 1, node, st =>
      ((g.outEdges node).foldlM (visitCallee (g.strongConnect fuel) node)
        (false, st.enter node)).map (SccInfo.finish node)

/-- `sccSort`. -/
def sccSort (g : CallGraph S) (fuel : ℕ) (start : S) : Option (Bool × List S) :=
  (g.strongConnect fuel start .initial).map fun r => (r.1, r.2.out)

/-- One node of `sort`. -/
def sortNode (g : CallGraph S) (fuel : ℕ) (r : Bool × SccInfo S) (n : S) :
    Option (Bool × SccInfo S) :=
  if n ∈ r.2.out then some r
  else (g.strongConnect fuel n r.2).map fun r' => (r.1 || r'.1, r'.2)

/-- `sort(start, out)`. -/
def sortFrom (g : CallGraph S) (fuel : ℕ) (start : List S) : Option (Bool × List S) :=
  (start.foldlM (g.sortNode fuel) (false, .initial)).map fun r => (r.1, r.2.out)

/-- `sort(out)`. -/
def sort (g : CallGraph S) (fuel : ℕ) : Option (Bool × List S) := g.sortFrom fuel g.nodes

/-- A node calls another. -/
def Edge (g : CallGraph S) (a b : S) : Prop := b ∈ g.outEdges a

end CallGraph

/-- The graph of the test `CallGraph, Acyclic`. -/
example : (((CallGraph.empty.calls 'a' 'b').calls 'a' 'c').calls 'b' 'c').sort 4
    = some (false, ['c', 'b', 'a']) := by decide

/-! ## Nodes on the stack -/

section Invariant

variable {E : S → S → Prop} {gray seg new : List S} {st st' : SccInfo S} {node next : S}

/-- What holds between calls of `strongConnect`.  The nodes of `gray` are being visited.  Any
other node on the stack is done: it can reach a node entered before it, and what it calls is
sorted or has an index that its `lowlink` does not exceed. -/
structure SccInfo.Inv (E : S → S → Prop) (gray : List S) (st : SccInfo S) : Prop where
  gray_mem : ∀ v ∈ gray, v ∈ st.stack
  known : ∀ v, st.index v ≠ none ↔ v ∈ st.stack ∨ v ∈ st.out
  onStack : ∀ v, v ∈ st.onStack ↔ v ∈ st.stack
  notMem_out : ∀ v ∈ st.stack, v ∉ st.out
  index_lt : ∀ v, st.index v ≠ none → st.getIndex v < st.crtIndex
  sorted : st.stack.Pairwise fun a b => st.getIndex b < st.getIndex a
  low_le : ∀ v ∈ st.stack, st.lowlink v ≤ st.getIndex v
  exists_low : ∀ v ∈ st.stack, ∃ w ∈ st.stack, st.getIndex w = st.lowlink v ∧ ReflTransGen E v w
  done_low : ∀ v ∈ st.stack, v ∉ gray → st.lowlink v < st.getIndex v
  done_edge : ∀ v ∈ st.stack, v ∉ gray → ∀ w, E v w →
    w ∈ st.out ∨ w ∈ st.stack ∧ st.lowlink v ≤ st.getIndex w
  order : ComponentOrder E st.out

/-- A search from `root` that has pushed `seg` and sorted `new`. -/
structure SccInfo.Grows (E : S → S → Prop) (root : S) (seg new : List S) (st st' : SccInfo S) :
    Prop where
  stack : st'.stack = seg ++ st.stack
  out : st'.out = st.out ++ new
  crtIndex : st.crtIndex ≤ st'.crtIndex
  index : ∀ v, st.index v ≠ none → st'.index v = st.index v
  newer : ∀ v, st.index v = none → st'.index v ≠ none → st.crtIndex ≤ st'.getIndex v
  lowlink : ∀ v ∈ st.stack, st'.lowlink v = st.lowlink v
  reach : ∀ v, v ∈ seg ∨ v ∈ new → ReflTransGen E root v

namespace SccInfo

omit [DecidableEq S] in
theorem getIndex_congr (h : st'.index node = st.index node) :
    st'.getIndex node = st.getIndex node := by
  rw [getIndex, getIndex, h]

theorem setLowLink_eq (st : SccInfo S) (node next : S) :
    st.setLowLink node next = { st with
      lowlink := Function.update st.lowlink node (min (st.lowlink node) (st.lowlink next)) } := by
  rw [setLowLink]
  split
  · rename_i h
    rw [min_eq_right h.le]
  · rename_i h
    rw [min_eq_left (not_lt.mp h), Function.update_eq_self]

variable (st node next) in
theorem lowlink_setLowLink_self :
    (st.setLowLink node next).lowlink node = min (st.lowlink node) (st.lowlink next) := by
  rw [setLowLink_eq]
  exact Function.update_self _ _ _

variable (st next) in
theorem lowlink_setLowLink_of_ne {v : S} (h : v ≠ node) :
    (st.setLowLink node next).lowlink v = st.lowlink v := by
  rw [setLowLink_eq]
  exact Function.update_of_ne h _ _

omit [DecidableEq S] in
theorem Inv.index_eq_none (h : Inv E gray st) {v : S} (hs : v ∉ st.stack) (ho : v ∉ st.out) :
    st.index v = none := by
  by_contra hv
  exact ((h.known v).mp hv).elim hs ho

/-- Lowering the `lowlink` of a node that is being visited. -/
theorem Inv.setLowLink (h : Inv E gray st) (hgray : node ∈ gray)
    (hlow : st.lowlink next < st.lowlink node →
      ∃ w ∈ st.stack, st.getIndex w = st.lowlink next ∧ ReflTransGen E node w) :
    Inv E gray (st.setLowLink node next) := by
  have hne : ∀ v ∉ gray, v ≠ node := fun v hv hvn => hv (hvn ▸ hgray)
  have hself := lowlink_setLowLink_self st node next
  have hof := fun v (hv : v ≠ node) => lowlink_setLowLink_of_ne st next hv
  rw [setLowLink_eq] at hself hof ⊢
  refine { h with low_le := ?_, exists_low := ?_, done_low := ?_, done_edge := ?_ }
  · intro v hv
    by_cases hvn : v = node
    · rw [hvn, hself]
      exact (min_le_left _ _).trans (h.low_le node (hvn ▸ hv))
    · rw [hof v hvn]
      exact h.low_le v hv
  · intro v hv
    by_cases hvn : v = node
    · subst hvn
      rcases lt_or_ge (st.lowlink next) (st.lowlink v) with hlt | hge
      · rw [hself, min_eq_right hlt.le]
        exact hlow hlt
      · rw [hself, min_eq_left hge]
        exact h.exists_low v hv
    · rw [hof v hvn]
      exact h.exists_low v hv
  · intro v hv hg
    rw [hof v (hne v hg)]
    exact h.done_low v hv hg
  · intro v hv hg
    rw [hof v (hne v hg)]
    exact h.done_edge v hv hg

/-! ## Entering a node -/

theorem index_enter (hnode : st.index node = none) :
    (st.enter node).index = Function.update st.index node (some st.crtIndex) := by
  have hunknown : st.unknown node = true := by rw [unknown, hnode]; rfl
  rw [enter, hunknown]
  rfl

theorem getIndex_enter_self (hnode : st.index node = none) :
    (st.enter node).getIndex node = st.crtIndex := by
  rw [getIndex, index_enter hnode, Function.update_self]
  rfl

theorem getIndex_enter_of_ne (hnode : st.index node = none) {v : S} (hv : v ≠ node) :
    (st.enter node).getIndex v = st.getIndex v :=
  getIndex_congr (by rw [index_enter hnode, Function.update_of_ne hv])

theorem lowlink_enter_self : (st.enter node).lowlink node = st.crtIndex :=
  Function.update_self _ _ _

theorem lowlink_enter_of_ne {v : S} (hv : v ≠ node) :
    (st.enter node).lowlink v = st.lowlink v := Function.update_of_ne hv _ _

theorem Inv.enter (h : Inv E gray st) (hnode : st.index node = none) :
    Inv E (node :: gray) (st.enter node) := by
  have hnotMem : ∀ v, st.index v ≠ none → v ≠ node := fun v hv hvn => hv (hvn ▸ hnode)
  have hne : ∀ v ∈ st.stack, v ≠ node := fun v hv => hnotMem v ((h.known v).mpr (Or.inl hv))
  have hself := getIndex_enter_self hnode
  have hof := fun v (hv : v ≠ node) => getIndex_enter_of_ne hnode hv
  have hstack : (st.enter node).stack = node :: st.stack := rfl
  refine ⟨?_, ?_, ?_, ?_, ?_, ?_, ?_, ?_, ?_, ?_, h.order⟩
  · intro v hv
    rcases List.mem_cons.mp hv with rfl | hv
    · exact List.mem_cons_self
    · exact List.mem_cons_of_mem _ (h.gray_mem v hv)
  · intro v
    rw [index_enter hnode, hstack, List.mem_cons]
    by_cases hv : v = node
    · rw [hv, Function.update_self]
      exact iff_of_true (Option.some_ne_none _) (Or.inl (Or.inl rfl))
    · rw [Function.update_of_ne hv, h.known v, or_iff_right hv]
      rfl
  · intro v
    rw [hstack, List.mem_cons, ← h.onStack v]
    exact Finset.mem_insert
  · intro v hv
    rcases List.mem_cons.mp hv with rfl | hv
    · exact fun ho => (h.known v).mpr (Or.inr ho) hnode
    · exact h.notMem_out v hv
  · intro v hv
    by_cases hvn : v = node
    · rw [hvn, hself]
      exact Nat.lt_succ_self _
    · rw [index_enter hnode, Function.update_of_ne hvn] at hv
      rw [hof v hvn]
      exact Nat.lt_succ_of_lt (h.index_lt v hv)
  · refine List.pairwise_cons.mpr ⟨fun v hv => ?_, ?_⟩
    · rw [hself, hof v (hne v hv)]
      exact h.index_lt v ((h.known v).mpr (Or.inl hv))
    · refine h.sorted.imp_of_mem fun {a b} ha hb hab => ?_
      rw [hof a (hne a ha), hof b (hne b hb)]
      exact hab
  · intro v hv
    rcases List.mem_cons.mp hv with rfl | hv
    · rw [hself, lowlink_enter_self]
    · rw [hof v (hne v hv), lowlink_enter_of_ne (hne v hv)]
      exact h.low_le v hv
  · intro v hv
    rcases List.mem_cons.mp hv with rfl | hv
    · exact ⟨v, List.mem_cons_self, by rw [hself, lowlink_enter_self], .refl⟩
    · obtain ⟨w, hw, heq, hreach⟩ := h.exists_low v hv
      refine ⟨w, List.mem_cons_of_mem _ hw, ?_, hreach⟩
      rw [hof w (hne w hw), lowlink_enter_of_ne (hne v hv)]
      exact heq
  · intro v hv hg
    obtain ⟨hvn, hg⟩ := not_or.mp (mt List.mem_cons.mpr hg)
    have hv : v ∈ st.stack := (List.mem_cons.mp hv).resolve_left hvn
    rw [hof v hvn, lowlink_enter_of_ne hvn]
    exact h.done_low v hv hg
  · intro v hv hg w hw
    obtain ⟨hvn, hg⟩ := not_or.mp (mt List.mem_cons.mpr hg)
    have hv : v ∈ st.stack := (List.mem_cons.mp hv).resolve_left hvn
    refine (h.done_edge v hv hg w hw).imp_right fun hlow => ⟨List.mem_cons_of_mem _ hlow.1, ?_⟩
    rw [hof w (hne w hlow.1), lowlink_enter_of_ne hvn]
    exact hlow.2

/-! ## Visiting a node -/

omit [DecidableEq S] in
theorem Grows.trans {root : S} {seg' new' : List S} {st₂ : SccInfo S}
    (h : Grows E root seg new st st') (h' : Grows E next seg' new' st' st₂)
    (hreach : ReflTransGen E root next) : Grows E root (seg' ++ seg) (new ++ new') st st₂ where
  stack := by rw [h'.stack, h.stack, List.append_assoc]
  out := by rw [h'.out, h.out, List.append_assoc]
  crtIndex := h.crtIndex.trans h'.crtIndex
  index := fun v hv => by
    have hv' := h.index v hv
    rw [h'.index v (hv' ▸ hv), hv']
  newer := fun v hv hv₂ => by
    by_cases hv' : st'.index v = none
    · exact h.crtIndex.trans (h'.newer v hv' hv₂)
    · rw [getIndex_congr (h'.index v hv')]
      exact h.newer v hv hv'
  lowlink := fun v hv => by
    rw [h'.lowlink v (h.stack ▸ List.mem_append_right _ hv), h.lowlink v hv]
  reach := fun v hv => by
    simp only [List.mem_append] at hv
    rcases hv with (hv | hv) | (hv | hv)
    · exact hreach.trans (h'.reach v (Or.inl hv))
    · exact h.reach v (Or.inl hv)
    · exact h.reach v (Or.inr hv)
    · exact hreach.trans (h'.reach v (Or.inr hv))

variable (next) in
theorem Grows.setLowLink {root : S} (h : Grows E root seg new st st') (hnode : node ∉ st.stack) :
    Grows E root seg new st (st'.setLowLink node next) := by
  have hof := fun v (hv : v ≠ node) => lowlink_setLowLink_of_ne st' next hv
  rw [setLowLink_eq] at hof ⊢
  refine { h with lowlink := fun v hv => ?_ }
  rw [hof v fun hvn => hnode (hvn ▸ hv)]
  exact h.lowlink v hv

end SccInfo

/-- The callees `done` of a node have been visited.  If no cycle was found, none is among what
is sorted, and the node does not call itself. -/
structure SccInfo.Visiting (E : S → S → Prop) (node : S) (done seg new : List S) (loop : Bool)
    (st st' : SccInfo S) : Prop extends SccInfo.Grows E node (seg ++ [node]) new st st' where
  sound : loop = true → ∃ v, ReflTransGen E node v ∧ TransGen E v v
  acyclic : loop = false → ∀ v ∈ new, ¬ TransGen E v v
  self : loop = false → node ∉ done
  low : ∀ v ∈ seg, st'.lowlink node ≤ st'.lowlink v
  callee : ∀ w ∈ done, w ∈ st'.out ∨ w ∈ st'.stack ∧ st'.lowlink node ≤ st'.getIndex w

/-- A node has been visited.  Either it is still on the stack, with the least `lowlink` of what
was pushed, or its component is sorted. -/
structure SccInfo.Visited (E : S → S → Prop) (node : S) (seg new : List S) (loop : Bool)
    (st st' : SccInfo S) : Prop extends SccInfo.Grows E node seg new st st' where
  sound : loop = true → ∃ v, ReflTransGen E node v ∧ TransGen E v v
  acyclic : loop = false → ∀ v ∈ new, ¬ TransGen E v v
  low : node ∈ seg ∧ (∀ v ∈ seg, st'.lowlink node ≤ st'.lowlink v) ∨
    seg = [] ∧ node ∈ new ∧ st.crtIndex ≤ st'.lowlink node

namespace SccInfo

theorem Inv.visiting_enter (h : Inv E gray st) (hnode : st.index node = none) :
    Visiting E node [] [] [] false st (st.enter node) where
  stack := rfl
  out := (List.append_nil _).symm
  crtIndex := Nat.le_succ _
  index := fun v hv => by
    rw [index_enter hnode, Function.update_of_ne]
    exact fun hvn => hv (hvn ▸ hnode)
  newer := fun v hv hv' => by
    rw [index_enter hnode] at hv'
    by_cases hvn : v = node
    · rw [hvn, getIndex_enter_self hnode]
    · rw [Function.update_of_ne hvn] at hv'
      exact absurd hv hv'
  lowlink := fun v hv => lowlink_enter_of_ne fun hvn =>
    (h.known v).mpr (Or.inl hv) (hvn ▸ hnode)
  reach := fun v hv => by
    rcases hv with hv | hv
    · rw [List.nil_append, List.mem_singleton] at hv
      exact hv ▸ .refl
    · exact absurd hv List.not_mem_nil
  sound := fun h => absurd h Bool.false_ne_true
  acyclic := fun _ _ hv => absurd hv List.not_mem_nil
  self := fun _ => List.not_mem_nil
  low := fun _ hv => absurd hv List.not_mem_nil
  callee := fun _ hw => absurd hw List.not_mem_nil

variable {done seg' new' : List S} {loop loop' : Bool} {cur : SccInfo S}

omit [DecidableEq S] in
theorem Visiting.node_mem (hv : Visiting E node done seg new loop st cur) : node ∈ cur.stack := by
  rw [hv.stack]
  exact List.mem_append_left _ (List.mem_append_right _ (List.mem_singleton_self node))

omit [DecidableEq S] in
theorem Visited.node_mem (hr : Visited E node seg new loop st st') :
    node ∈ st'.out ∨ node ∈ st'.stack := by
  rw [hr.stack, hr.out, List.mem_append, List.mem_append]
  exact hr.low.elim (fun h => Or.inr (Or.inl h.1)) fun h => Or.inl (Or.inr h.2.1)

/-- What is known of callees stays known. -/
theorem Visiting.callee_setLowLink (hv : Visiting E node done seg new loop st cur)
    (hcur : Inv E (node :: gray) cur) (hgrows : Grows E next seg' new' cur st') {w : S}
    (hw : w ∈ done) : w ∈ (st'.setLowLink node next).out ∨ w ∈ (st'.setLowLink node next).stack ∧
      (st'.setLowLink node next).lowlink node ≤ (st'.setLowLink node next).getIndex w := by
  have hself := lowlink_setLowLink_self st' node next
  rw [setLowLink_eq] at hself ⊢
  refine (hv.callee w hw).imp (fun ho => ?_) fun hs => ⟨?_, ?_⟩
  · exact hgrows.out ▸ List.mem_append_left _ ho
  · exact hgrows.stack ▸ List.mem_append_right _ hs.1
  · have hindex : st'.getIndex w = cur.getIndex w :=
      getIndex_congr (hgrows.index w ((hcur.known w).mpr (Or.inl hs.1)))
    rw [hself]
    refine (min_le_left _ _).trans ?_
    rw [hgrows.lowlink node hv.node_mem]
    exact hindex ▸ hs.2

/-- A callee that was visited now. -/
theorem Visiting.append_visited (hv : Visiting E node done seg new loop st cur)
    (hcur : Inv E (node :: gray) cur) (hnode : node ∉ st.stack) (hedge : E node next)
    (hnext : cur.index next = none) (hr : Visited E next seg' new' loop' cur st')
    (hst' : Inv E (node :: gray) st') :
    Inv E (node :: gray) (st'.setLowLink node next) ∧
      Visiting E node (done ++ [next]) (seg' ++ seg) (new ++ new') (loop || loop') st
        (st'.setLowLink node next) := by
  have hmem := hv.node_mem
  have hknown : cur.index node ≠ none := (hcur.known node).mpr (Or.inl hmem)
  have hne : node ≠ next := fun h => hknown (h ▸ hnext)
  have hlowlink : st'.lowlink node = cur.lowlink node := hr.lowlink node hmem
  -- the callee is on the stack if its `lowlink` is the smaller one
  have hpushed : st'.lowlink next < st'.lowlink node → next ∈ st'.stack := by
    intro hlt
    rcases hr.low with ⟨hnext, -⟩ | ⟨-, -, hge⟩
    · rw [hr.stack]
      exact List.mem_append_left _ hnext
    · have h1 := hcur.low_le node hmem
      have h2 := hcur.index_lt node hknown
      omega
  have hinv : Inv E (node :: gray) (st'.setLowLink node next) := by
    refine hst'.setLowLink List.mem_cons_self fun hlt => ?_
    obtain ⟨w, hw, heq, hreach⟩ := hst'.exists_low next (hpushed hlt)
    exact ⟨w, hw, heq, .head hedge hreach⟩
  have hgrows := (hv.toGrows.trans hr.toGrows (.single hedge)).setLowLink next hnode
  rw [← List.append_assoc] at hgrows
  have hself := lowlink_setLowLink_self st' node next
  have hof := fun v (hv : v ≠ node) => lowlink_setLowLink_of_ne st' next hv
  refine ⟨hinv, { hgrows with
    sound := ?sound, acyclic := ?acyclic, self := ?self, low := ?low, callee := ?callee }⟩
  case sound =>
    rw [Bool.or_eq_true]
    rintro (hloop | hloop)
    · exact hv.sound hloop
    · obtain ⟨v, hreach, hcycle⟩ := hr.sound hloop
      exact ⟨v, .head hedge hreach, hcycle⟩
  case acyclic =>
    rw [Bool.or_eq_false_iff]
    intro hloop v hmem
    rcases List.mem_append.mp hmem with hmem | hmem
    · exact hv.acyclic hloop.1 v hmem
    · exact hr.acyclic hloop.2 v hmem
  case self =>
    rw [Bool.or_eq_false_iff]
    intro hloop hmem'
    rcases List.mem_append.mp hmem' with hmem' | hmem'
    · exact hv.self hloop.1 hmem'
    · exact hne (List.mem_singleton.mp hmem')
  case low =>
    intro v hmem'
    by_cases hvn : v = node
    · rw [hvn]
    · rw [hself, hof v hvn]
      rcases List.mem_append.mp hmem' with hmem' | hmem'
      · refine (min_le_right _ _).trans ?_
        rcases hr.low with ⟨-, hlow⟩ | ⟨rfl, -⟩
        · exact hlow v hmem'
        · exact absurd hmem' List.not_mem_nil
      · refine (min_le_left _ _).trans ?_
        have hstack : v ∈ cur.stack := by
          rw [hv.stack]
          exact List.mem_append_left _ (List.mem_append_left _ hmem')
        rw [hlowlink, hr.lowlink v hstack]
        exact hv.low v hmem'
  case callee =>
    intro w hw
    rcases List.mem_append.mp hw with hw | hw
    · exact hv.callee_setLowLink hcur hr.toGrows hw
    · obtain rfl := List.mem_singleton.mp hw
      rw [setLowLink_eq] at hself ⊢
      refine hr.node_mem.imp_right fun hs => ⟨hs, ?_⟩
      rw [hself]
      exact (min_le_right _ _).trans (hst'.low_le w hs)

/-- A callee that is on the stack. -/
theorem Visiting.append_stacked (hv : Visiting E node done seg new loop st cur)
    (hcur : Inv E (node :: gray) cur) (hnode : node ∉ st.stack) (hedge : E node next)
    (hnext : next ∈ cur.stack) :
    Inv E (node :: gray) (cur.setLowLink node next) ∧
      Visiting E node (done ++ [next]) seg new (loop || next = node) st
        (cur.setLowLink node next) := by
  have hself := lowlink_setLowLink_self cur node next
  have hof := fun v (hv : v ≠ node) => lowlink_setLowLink_of_ne cur next hv
  have hgrows := hv.toGrows.setLowLink next hnode
  refine ⟨hcur.setLowLink List.mem_cons_self fun _ => ?_, { hgrows with
    sound := ?sound, acyclic := ?acyclic, self := ?self, low := ?low, callee := ?callee }⟩
  · obtain ⟨w, hw, heq, hreach⟩ := hcur.exists_low next hnext
    exact ⟨w, hw, heq, .head hedge hreach⟩
  case sound =>
    rw [Bool.or_eq_true, decide_eq_true_iff]
    rintro (hloop | rfl)
    · exact hv.sound hloop
    · exact ⟨next, .refl, .single hedge⟩
  case acyclic =>
    rw [Bool.or_eq_false_iff]
    exact fun hloop => hv.acyclic hloop.1
  case self =>
    rw [Bool.or_eq_false_iff, decide_eq_false_iff_not]
    intro hloop hmem
    rcases List.mem_append.mp hmem with hmem | hmem
    · exact hv.self hloop.1 hmem
    · exact hloop.2 (List.mem_singleton.mp hmem).symm
  case low =>
    intro v hmem
    by_cases hvn : v = node
    · rw [hvn]
    · rw [hself, hof v hvn]
      exact (min_le_left _ _).trans (hv.low v hmem)
  case callee =>
    intro w hw
    rw [setLowLink_eq] at hself ⊢
    rcases List.mem_append.mp hw with hw | hw
    · refine (hv.callee w hw).imp_right fun hs => ⟨hs.1, ?_⟩
      rw [hself]
      exact (min_le_left _ _).trans hs.2
    · obtain rfl := List.mem_singleton.mp hw
      refine Or.inr ⟨hnext, ?_⟩
      rw [hself]
      exact (min_le_right _ _).trans (hcur.low_le w hnext)

omit [DecidableEq S] in
/-- A callee that is sorted. -/
theorem Visiting.append_sorted (hv : Visiting E node done seg new loop st cur)
    (hnode : next ≠ node) (hnext : next ∈ cur.out) :
    Visiting E node (done ++ [next]) seg new loop st cur :=
  { hv with
    self := fun hloop hmem => by
      rcases List.mem_append.mp hmem with hmem | hmem
      · exact hv.self hloop hmem
      · exact hnode (List.mem_singleton.mp hmem).symm
    callee := fun w hw => by
      rcases List.mem_append.mp hw with hw | hw
      · exact hv.callee w hw
      · exact Or.inl (List.mem_singleton.mp hw ▸ hnext) }

/-! ## Popping a component -/

theorem popTo_eq (loop : Bool) (st : SccInfo S) (hnode : node ∉ seg) (rest : List S) : ∃ onStack,
    popTo node loop st (seg ++ node :: rest) = (loop || !seg.isEmpty, { st with
      stack := rest, onStack := onStack, out := st.out ++ (seg ++ [node]) }) ∧
    ∀ v, v ∈ onStack ↔ v ∈ st.onStack ∧ v ∉ seg ++ [node] := by
  induction seg generalizing loop st with
  | nil =>
      refine ⟨st.onStack.erase node, ?_, fun v => ?_⟩
      · rw [List.nil_append, popTo, if_pos rfl]
        simp
      · rw [Finset.mem_erase, and_comm]
        simp
  | cons m seg ih =>
      obtain ⟨hm, hnode⟩ := not_or.mp (mt List.mem_cons.mpr hnode)
      obtain ⟨onStack, heq, hmem⟩ := ih true { st with
        stack := seg ++ node :: rest
        onStack := st.onStack.erase m
        out := st.out ++ [m] } hnode
      refine ⟨onStack, ?_, fun v => ?_⟩
      · rw [List.cons_append, popTo, if_neg (Ne.symm hm), heq]
        simp
      · rw [hmem, Finset.mem_erase, List.cons_append, List.mem_cons]
        tauto

end SccInfo

section Component

open SccInfo

variable {done : List S} {loop : Bool} {cur : SccInfo S}
  (hst : SccInfo.Inv E gray st) (hcur : SccInfo.Inv E (node :: gray) cur)
  (hv : SccInfo.Visiting E node done seg new loop st cur)

namespace SccInfo

omit [DecidableEq S] in
include hv in
theorem Visiting.stack_eq : cur.stack = seg ++ node :: st.stack := by
  rw [hv.stack, List.append_assoc, List.singleton_append]

omit [DecidableEq S] in
include hcur hv in
/-- The nodes that were pushed have a greater index than the node itself. -/
theorem Visiting.index_lt {v : S} (hmem : v ∈ seg) : cur.getIndex node < cur.getIndex v := by
  have hsorted := hcur.sorted
  rw [hv.stack_eq] at hsorted
  exact (List.pairwise_append.mp hsorted).2.2 v hmem node List.mem_cons_self

omit [DecidableEq S] in
include hcur hv in
/-- The nodes that were there have a smaller one. -/
theorem Visiting.lt_index {v : S} (hmem : v ∈ st.stack) : cur.getIndex v < cur.getIndex node := by
  have hsorted := hcur.sorted
  rw [hv.stack_eq] at hsorted
  exact List.rel_of_pairwise_cons (List.pairwise_append.mp hsorted).2.1 hmem

omit [DecidableEq S] in
include hst hcur hv in
theorem Visiting.notMem_gray {v : S} (hmem : v ∈ seg) : v ∉ node :: gray := by
  intro hg
  have hlt := hv.index_lt hcur hmem
  rcases List.mem_cons.mp hg with rfl | hg
  · exact Nat.lt_irrefl _ hlt
  · exact Nat.lt_asymm hlt (hv.lt_index hcur (hst.gray_mem v hg))

omit [DecidableEq S] in
include hcur hv in
theorem Visiting.mem_of_index_le {w : S} (hw : w ∈ cur.stack)
    (hle : cur.getIndex node ≤ cur.getIndex w) : w ∈ seg ++ [node] := by
  rw [hv.stack] at hw
  refine (List.mem_append.mp hw).resolve_right fun hw => ?_
  exact absurd (hv.lt_index hcur hw) (not_lt.mpr hle)

variable (hroot : cur.lowlink node = cur.getIndex node)

omit [DecidableEq S] in
include hst hcur hv hroot in
/-- If the node is the first one of its component, all that was pushed can reach it. -/
theorem Visiting.reach_node {v : S} (hmem : v ∈ seg ++ [node]) : ReflTransGen E v node := by
  induction hn : cur.getIndex v using Nat.strong_induction_on generalizing v with
  | _ n ih =>
      rcases List.mem_append.mp hmem with hseg | hnode
      · have hstack : v ∈ cur.stack := hv.stack ▸ List.mem_append_left _ hmem
        obtain ⟨w, hw, heq, hreach⟩ := hcur.exists_low v hstack
        have hlow := hcur.done_low v hstack (hv.notMem_gray hst hcur hseg)
        refine hreach.trans (ih (cur.getIndex w) (by omega) ?_ rfl)
        refine hv.mem_of_index_le hcur hw ?_
        rw [heq, ← hroot]
        exact hv.low v hseg
      · rw [List.mem_singleton.mp hnode]

variable (hdone : ∀ w, E node w → w ∈ done)

omit [DecidableEq S] in
include hst hcur hv hroot hdone in
theorem Visiting.edge_component {v w : S} (hmem : v ∈ seg ++ [node]) (hw : E v w) :
    w ∈ cur.out ∨ w ∈ seg ++ [node] := by
  rcases List.mem_append.mp hmem with hseg | hnode
  · have hstack : v ∈ cur.stack := hv.stack ▸ List.mem_append_left _ hmem
    refine (hcur.done_edge v hstack (hv.notMem_gray hst hcur hseg) w hw).imp_right fun hs => ?_
    exact hv.mem_of_index_le hcur hs.1 (hroot ▸ (hv.low v hseg).trans hs.2)
  · obtain rfl := List.mem_singleton.mp hnode
    exact (hv.callee w (hdone w hw)).imp_right fun hs =>
      hv.mem_of_index_le hcur hs.1 (hroot ▸ hs.2)

omit [DecidableEq S] in
include hst hcur hv hroot hdone in
/-- What was pushed is then the component of the node. -/
theorem Visiting.mem_component_iff {v w : S} (hmem : v ∈ seg ++ [node]) :
    w ∈ seg ++ [node] ↔ Mutual E v w := by
  have hmutual : ∀ x ∈ seg ++ [node], Mutual E node x := fun x hx =>
    ⟨hv.reach x (Or.inl hx), hv.reach_node hst hcur hroot hx⟩
  refine ⟨fun hw => (hmutual v hmem).symm.trans (hmutual w hw), fun hvw => ?_⟩
  have hclosed : EdgeClosed E (cur.out ++ (seg ++ [node])) := by
    intro a ha b hab
    rcases List.mem_append.mp ha with ha | ha
    · exact List.mem_append_left _ (hcur.order.edgeClosed a ha b hab)
    · exact List.mem_append.mpr (hv.edge_component hst hcur hroot hdone ha hab)
  refine (List.mem_append.mp (hclosed.reach (List.mem_append_right _ hmem) hvw.1)).resolve_left ?_
  intro hw
  -- what is sorted does not reach the stack
  refine hcur.notMem_out v ?_ (hcur.order.edgeClosed.reach hw hvw.2)
  exact hv.stack ▸ List.mem_append_left _ hmem

omit [DecidableEq S] in
include hst hcur hv hroot hdone in
theorem Visiting.order_component : ComponentOrder E (cur.out ++ (seg ++ [node])) := by
  refine hcur.order.append ?_ ?_ (fun a ha b => hv.mem_component_iff hst hcur hroot hdone ha)
    fun a ha b => hv.edge_component hst hcur hroot hdone ha
  · have hnodup : cur.stack.Nodup := by
      refine List.nodup_iff_pairwise_ne.mpr (hcur.sorted.imp fun {a b} h heq => ?_)
      exact Nat.lt_irrefl _ (heq ▸ h)
    rw [hv.stack] at hnodup
    exact hnodup.of_append_left
  · exact fun a ha => hcur.notMem_out a (hv.stack ▸ List.mem_append_left _ ha)

omit [DecidableEq S] in
include hst hcur hv hroot hdone in
/-- A cycle through the component is found when it is popped. -/
theorem Visiting.loop_iff : ((loop || !seg.isEmpty) = true →
      ∃ v, ReflTransGen E node v ∧ TransGen E v v) ∧
    ((loop || !seg.isEmpty) = false → ∀ v ∈ new ++ (seg ++ [node]), ¬ TransGen E v v) := by
  have hself : node ∈ seg ++ [node] := List.mem_append_right _ (List.mem_singleton_self node)
  have hiff := fun w => hv.mem_component_iff hst hcur hroot hdone (w := w) hself
  constructor
  · cases hseg : seg with
    | nil =>
        rw [List.isEmpty_nil, Bool.not_true, Bool.or_false]
        exact hv.sound
    | cons w rest =>
        intro _
        have hw : w ∈ seg := hseg ▸ List.mem_cons_self
        have hne : node ≠ w := by
          rintro rfl
          exact Nat.lt_irrefl _ (hv.index_lt hcur hw)
        exact ⟨node, .refl, ((hiff w).mp (List.mem_append_left _ hw)).transGen_self hne⟩
  · rw [Bool.or_eq_false_iff, Bool.not_eq_false', List.isEmpty_iff]
    rintro ⟨hloop, rfl⟩ v hmem hcycle
    rcases List.mem_append.mp hmem with hmem | hmem
    · exact hv.acyclic hloop v hmem hcycle
    · obtain rfl := List.mem_singleton.mp hmem
      rcases edge_or_mutual_of_transGen hcycle with hedge | ⟨w, hne, hmutual⟩
      · exact hv.self hloop (hdone v hedge)
      · exact hne (List.mem_singleton.mp ((hiff w).mpr hmutual))

omit [DecidableEq S] in
include hcur hv in
/-- What was there is not popped. -/
theorem Visiting.notMem_component {v : S} (hmem : v ∈ st.stack) : v ∉ seg ++ [node] := by
  intro hcomp
  have hlt := hv.lt_index hcur hmem
  rcases List.mem_append.mp hcomp with hseg | hnode
  · exact Nat.lt_asymm hlt (hv.index_lt hcur hseg)
  · rw [List.mem_singleton.mp hnode] at hlt
    exact Nat.lt_irrefl _ hlt

omit [DecidableEq S] in
include hst hcur hv hroot hdone in
theorem Visiting.inv_pop {onStack : Finset S}
    (honStack : ∀ v, v ∈ onStack ↔ v ∈ cur.onStack ∧ v ∉ seg ++ [node]) :
    Inv E gray { cur with
      stack := st.stack, onStack := onStack, out := cur.out ++ (seg ++ [node]) } := by
  have hnot := fun v (hmem : v ∈ st.stack) => hv.notMem_component hcur hmem
  have hsub : ∀ v ∈ st.stack, v ∈ cur.stack := fun v hmem =>
    hv.stack ▸ List.mem_append_right _ hmem
  have hgray : ∀ v ∈ st.stack, v ∉ gray → v ∉ node :: gray := by
    intro v hmem hg hcons
    rcases List.mem_cons.mp hcons with rfl | hcons
    · exact hnot v hmem (List.mem_append_right _ (List.mem_singleton_self v))
    · exact hg hcons
  have hsorted := hcur.sorted
  rw [hv.stack] at hsorted
  refine ⟨hst.gray_mem, fun v => ?_, fun v => ?_, fun v hmem => ?_, hcur.index_lt,
    (List.pairwise_append.mp hsorted).2.1, fun v hmem => hcur.low_le v (hsub v hmem),
    fun v hmem => ?_, fun v hmem hg => hcur.done_low v (hsub v hmem) (hgray v hmem hg),
    fun v hmem hg w hw => ?_, hv.order_component hst hcur hroot hdone⟩
  · rw [hcur.known v, hv.stack]
    simp only [List.mem_append]
    tauto
  · rw [honStack, hcur.onStack, hv.stack, List.mem_append]
    exact ⟨fun h => h.1.resolve_left h.2, fun h => ⟨Or.inr h, hnot v h⟩⟩
  · exact fun hout => (List.mem_append.mp hout).elim (hcur.notMem_out v (hsub v hmem)) (hnot v hmem)
  · obtain ⟨w, hw, heq, hreach⟩ := hcur.exists_low v (hsub v hmem)
    refine ⟨w, ?_, heq, hreach⟩
    rw [hv.stack] at hw
    refine (List.mem_append.mp hw).resolve_left fun hcomp => ?_
    -- its index would be at least that of the node
    have hlow := hcur.low_le v (hsub v hmem)
    have hlt := hv.lt_index hcur hmem
    rcases List.mem_append.mp hcomp with hseg | hnode
    · have := hv.index_lt hcur hseg
      omega
    · rw [List.mem_singleton.mp hnode] at heq
      omega
  · refine Or.elim (hcur.done_edge v (hsub v hmem) (hgray v hmem hg) w hw)
      (fun ho => Or.inl (List.mem_append_left _ ho)) fun hs => ?_
    have hw' := hs.1
    rw [hv.stack] at hw'
    rcases List.mem_append.mp hw' with hw' | hw'
    · exact Or.inl (List.mem_append_right _ hw')
    · exact Or.inr ⟨hw', hs.2⟩

include hst hcur hv hdone in
theorem Visiting.inv_done (hroot : cur.lowlink node ≠ cur.getIndex node) : Inv E gray cur := by
  have hgray : ∀ v, v ≠ node → v ∉ gray → v ∉ node :: gray := fun v hvn hg hcons =>
    (List.mem_cons.mp hcons).elim hvn hg
  refine { hcur with
    gray_mem := fun v hg => hv.stack ▸ List.mem_append_right _ (hst.gray_mem v hg)
    done_low := fun v hmem hg => ?_
    done_edge := fun v hmem hg w hw => ?_ }
  · by_cases hvn : v = node
    · rw [hvn]
      exact lt_of_le_of_ne (hcur.low_le node hv.node_mem) hroot
    · exact hcur.done_low v hmem (hgray v hvn hg)
  · by_cases hvn : v = node
    · rw [hvn]
      exact hv.callee w (hdone w (hvn ▸ hw))
    · exact hcur.done_edge v hmem (hgray v hvn hg) w hw

include hst hcur hv hdone in
theorem Visiting.finish (hnode : st.index node = none) : ∃ seg' new',
    Inv E gray (SccInfo.finish node (loop, cur)).2 ∧
      Visited E node seg' new' (SccInfo.finish node (loop, cur)).1 st
        (SccInfo.finish node (loop, cur)).2 := by
  rw [SccInfo.finish]
  dsimp only
  by_cases hroot : cur.lowlink node = cur.getIndex node
  · have hseg : node ∉ seg := fun hmem => Nat.lt_irrefl _ (hv.index_lt hcur hmem)
    obtain ⟨onStack, heq, honStack⟩ := popTo_eq loop cur hseg st.stack
    have hloop := hv.loop_iff hst hcur hroot hdone
    rw [if_pos hroot, hv.stack_eq, heq]
    refine ⟨[], new ++ (seg ++ [node]), hv.inv_pop hst hcur hroot hdone honStack, {
      stack := rfl
      out := by rw [hv.out, List.append_assoc]
      crtIndex := hv.crtIndex
      index := hv.index
      newer := hv.newer
      lowlink := hv.lowlink
      reach := fun v hmem => hv.reach v ?_
      sound := hloop.1
      acyclic := hloop.2
      low := Or.inr ⟨rfl, ?_, ?_⟩ }⟩
    · exact (List.mem_append.mp (hmem.resolve_left List.not_mem_nil)).symm
    · exact List.mem_append_right _ (List.mem_append_right _ (List.mem_singleton_self node))
    · show st.crtIndex ≤ cur.lowlink node
      rw [hroot]
      exact hv.newer node hnode ((hcur.known node).mpr (Or.inl hv.node_mem))
  · rw [if_neg hroot]
    refine ⟨seg ++ [node], new, hv.inv_done hst hcur hdone hroot, { hv with
      low := Or.inl ⟨List.mem_append_right _ (List.mem_singleton_self node), fun v hmem => ?_⟩ }⟩
    rcases List.mem_append.mp hmem with hmem | hmem
    · exact hv.low v hmem
    · rw [List.mem_singleton.mp hmem]

end SccInfo

end Component

end Invariant

/-! ## The whole search -/

/-- The nodes of a list without an index. -/
def SccInfo.unknowns (st : SccInfo S) (nodes : List S) : ℕ := nodes.countP st.unknown

section Search

open SccInfo

variable {E : S → S → Prop} {gray seg new nodes : List S} {st st' : SccInfo S} {node next : S}

omit [DecidableEq S] in
theorem SccInfo.unknown_iff : st.unknown node = true ↔ st.index node = none := by
  rw [unknown, Option.isNone_iff_eq_none]

omit [DecidableEq S] in
theorem SccInfo.Grows.unknowns_le {root : S} (h : Grows E root seg new st st') :
    st'.unknowns nodes ≤ st.unknowns nodes := by
  refine List.countP_mono_left fun v _ hv => ?_
  rw [unknown_iff] at hv ⊢
  by_contra hne
  exact hne (h.index v hne ▸ hv)

omit [DecidableEq S] in
theorem SccInfo.unknowns_setLowLink [DecidableEq S] :
    (st.setLowLink node next).unknowns nodes = st.unknowns nodes := by
  rw [setLowLink_eq]
  rfl

theorem SccInfo.unknowns_enter_lt (hnode : st.index node = none) (hmem : node ∈ nodes) :
    (st.enter node).unknowns nodes < st.unknowns nodes := by
  have hle : ∀ v, (st.enter node).unknown v = true → st.unknown v = true := by
    intro v hv
    rw [unknown_iff, index_enter hnode] at hv
    rw [unknown_iff]
    by_cases hvn : v = node
    · rw [hvn, hnode]
    · rwa [Function.update_of_ne hvn] at hv
  have hnot : ¬ (st.enter node).unknown node = true := by
    rw [unknown_iff, index_enter hnode, Function.update_self]
    exact Option.some_ne_none _
  obtain ⟨l₁, l₂, rfl⟩ := List.append_of_mem hmem
  rw [unknowns, unknowns, List.countP_append, List.countP_append, List.countP_cons_of_neg hnot,
    List.countP_cons_of_pos (unknown_iff.mpr hnode)]
  have h₁ := List.countP_mono_left (l := l₁) fun v _ => hle v
  have h₂ := List.countP_mono_left (l := l₂) fun v _ => hle v
  omega

variable {g : CallGraph S}

/-- The callees of a node, given what `strongConnect` does with calls nested less deep. -/
theorem CallGraph.exists_foldlM_visitCallee (hnodes : ∀ a b, g.Edge a b → b ∈ nodes) {fuel : ℕ}
    (ih : ∀ {next : S} {cur : SccInfo S}, Inv g.Edge (node :: gray) cur → cur.index next = none →
      next ∈ nodes → cur.unknowns nodes ≤ fuel → ∃ loop st' seg new,
        g.strongConnect fuel next cur = some (loop, st') ∧ Inv g.Edge (node :: gray) st' ∧
          Visited g.Edge next seg new loop cur st') (hnode : node ∉ st.stack) :
    ∀ {rest done seg new : List S} {loop : Bool} {cur : SccInfo S},
      (∀ w ∈ rest, g.Edge node w) → Inv g.Edge (node :: gray) cur →
      Visiting g.Edge node done seg new loop st cur → cur.unknowns nodes ≤ fuel →
      ∃ loop' cur' seg' new',
        rest.foldlM (visitCallee (g.strongConnect fuel) node) (loop, cur) = some (loop', cur') ∧
          Inv g.Edge (node :: gray) cur' ∧
          Visiting g.Edge node (done ++ rest) seg' new' loop' st cur'
  | [], done, seg, new, loop, cur, _, hcur, hv, _ =>
      ⟨loop, cur, seg, new, rfl, hcur, by rwa [List.append_nil]⟩
  | next :: rest, done, seg, new, loop, cur, hrest, hcur, hv, hfuel => by
      have hedge := hrest next List.mem_cons_self
      have hrest : ∀ w ∈ rest, g.Edge node w := fun w hw => hrest w (List.mem_cons_of_mem _ hw)
      have hassoc : done ++ next :: rest = done ++ [next] ++ rest := by
        rw [List.append_assoc, List.singleton_append]
      rw [List.foldlM_cons, hassoc, visitCallee]
      by_cases hnext : cur.index next = none
      · obtain ⟨loop', st', seg', new', heq, hst', hr⟩ :=
          ih hcur hnext (hnodes node next hedge) hfuel
        obtain ⟨hinv, hv'⟩ := hv.append_visited hcur hnode hedge hnext hr hst'
        rw [if_pos (unknown_iff.mpr hnext), heq]
        refine exists_foldlM_visitCallee hnodes ih hnode hrest hinv hv' ?_
        rw [unknowns_setLowLink]
        exact hr.unknowns_le.trans hfuel
      · rw [if_neg (mt unknown_iff.mp hnext), isOnStack]
        by_cases hstack : next ∈ cur.stack
        · obtain ⟨hinv, hv'⟩ := hv.append_stacked hcur hnode hedge hstack
          rw [if_pos (decide_eq_true ((hcur.onStack next).mpr hstack))]
          refine exists_foldlM_visitCallee hnodes ih hnode hrest hinv hv' ?_
          rw [unknowns_setLowLink]
          exact hfuel
        · have hne : next ≠ node := fun h => hstack (h ▸ hv.node_mem)
          have hout := ((hcur.known next).mp hnext).resolve_left hstack
          rw [if_neg fun h => hstack ((hcur.onStack next).mp (of_decide_eq_true h))]
          exact exists_foldlM_visitCallee hnodes ih hnode hrest hcur (hv.append_sorted hne hout)
            hfuel

/-- `strongConnect` visits a node if calls may be nested as deep as there are nodes to visit. -/
theorem CallGraph.exists_strongConnect (hnodes : ∀ a b, g.Edge a b → b ∈ nodes) {fuel : ℕ}
    (h : Inv g.Edge gray st) (hnode : st.index node = none) (hmem : node ∈ nodes)
    (hfuel : st.unknowns nodes ≤ fuel) : ∃ loop st' seg new,
      g.strongConnect fuel node st = some (loop, st') ∧ Inv g.Edge gray st' ∧
        Visited g.Edge node seg new loop st st' := by
  induction fuel generalizing gray st node with
  | zero =>
      have hlt := unknowns_enter_lt hnode hmem
      omega
  | succ fuel ih =>
      have hlt := unknowns_enter_lt hnode hmem
      have hnotMem : node ∉ st.stack := fun hs => (h.known node).mpr (Or.inl hs) hnode
      obtain ⟨loop, cur, seg, new, heq, hcur, hv⟩ :=
        exists_foldlM_visitCallee hnodes (fun hcur hnext hmem hfuel => ih hcur hnext hmem hfuel)
          hnotMem (fun w hw => hw) (h.enter hnode) (h.visiting_enter hnode) (by omega)
      obtain ⟨seg', new', hinv, hr⟩ := hv.finish h hcur (fun w hw => hw) hnode
      exact ⟨_, _, seg', new', by rw [strongConnect, heq]; rfl, hinv, hr⟩

omit [DecidableEq S] in
/-- Without nodes that are being visited the stack is empty: the node with the least index on it
would reach one with a smaller index. -/
theorem SccInfo.Inv.stack_eq_nil (h : Inv E [] st) : st.stack = [] := by
  refine List.eq_nil_iff_forall_not_mem.mpr fun v hv => ?_
  induction hn : st.getIndex v using Nat.strong_induction_on generalizing v with
  | _ n ih =>
      obtain ⟨w, hw, heq, -⟩ := h.exists_low v hv
      have hlt := h.done_low v hv List.not_mem_nil
      exact ih (st.getIndex w) (by omega) w hw rfl

omit [DecidableEq S] in
theorem SccInfo.inv_initial : Inv E [] (SccInfo.initial : SccInfo S) where
  gray_mem := fun _ hv => absurd hv List.not_mem_nil
  known := fun _ => iff_of_false (fun h => h rfl) fun h => h.elim List.not_mem_nil List.not_mem_nil
  onStack := fun v => iff_of_false (Finset.notMem_empty v) List.not_mem_nil
  notMem_out := fun _ hv => absurd hv List.not_mem_nil
  index_lt := fun _ hv => absurd rfl hv
  sorted := List.Pairwise.nil
  low_le := fun _ hv => absurd hv List.not_mem_nil
  exists_low := fun _ hv => absurd hv List.not_mem_nil
  done_low := fun _ hv => absurd hv List.not_mem_nil
  done_edge := fun _ hv => absurd hv List.not_mem_nil
  order := .nil

/-- What `sort` has done with the nodes `starts`. -/
structure Sorted (E : S → S → Prop) (starts : List S) (hasLoop : Bool) (out : List S) : Prop where
  order : ComponentOrder E out
  mem_iff : ∀ v, v ∈ out ↔ ∃ n ∈ starts, ReflTransGen E n v
  hasLoop_iff : hasLoop = true ↔ ∃ v ∈ out, TransGen E v v

/-- One node more. -/
theorem Sorted.append {starts : List S} {loop : Bool} (h : Sorted g.Edge starts loop st.out)
    (hinv : Inv g.Edge [] st) (hnodes : ∀ a b, g.Edge a b → b ∈ nodes) {n : S} (hmem : n ∈ nodes)
    {fuel : ℕ} (hfuel : st.unknowns nodes ≤ fuel) : ∃ loop' st',
      g.sortNode fuel (loop, st) n = some (loop', st') ∧ Inv g.Edge [] st' ∧
        st'.unknowns nodes ≤ fuel ∧ Sorted g.Edge (starts ++ [n]) loop' st'.out := by
  rw [CallGraph.sortNode]
  by_cases hn : n ∈ st.out
  · refine ⟨loop, st, if_pos hn, hinv, hfuel, h.order, fun v => ?_, h.hasLoop_iff⟩
    rw [h.mem_iff v]
    constructor
    · exact fun ⟨m, hm, hreach⟩ => ⟨m, List.mem_append_left _ hm, hreach⟩
    · rintro ⟨m, hm, hreach⟩
      rcases List.mem_append.mp hm with hm | hm
      · exact ⟨m, hm, hreach⟩
      · obtain ⟨k, hk, hkn⟩ := (h.mem_iff n).mp hn
        exact ⟨k, hk, hkn.trans (List.mem_singleton.mp hm ▸ hreach)⟩
  · have hindex := hinv.index_eq_none (hinv.stack_eq_nil ▸ List.not_mem_nil) hn
    obtain ⟨loop', st', seg, new, heq, hst', hr⟩ :=
      CallGraph.exists_strongConnect hnodes hinv hindex hmem hfuel
    obtain ⟨rfl, hnew⟩ : seg = [] ∧ n ∈ new := by
      have hnil := hr.stack.symm.trans hst'.stack_eq_nil
      rcases hr.low with ⟨hroot, -⟩ | ⟨hseg, hroot, -⟩
      · exact absurd ((List.append_eq_nil_iff.mp hnil).1 ▸ hroot) List.not_mem_nil
      · exact ⟨hseg, hroot⟩
    have hout : n ∈ st'.out := hr.out ▸ List.mem_append_right _ hnew
    refine ⟨loop || loop', st', by rw [if_neg hn, heq]; rfl, hst', hr.unknowns_le.trans hfuel,
      hst'.order, fun v => ?_, ?_⟩
    · constructor
      · intro hv
        rw [hr.out] at hv
        rcases List.mem_append.mp hv with hv | hv
        · obtain ⟨m, hm, hreach⟩ := (h.mem_iff v).mp hv
          exact ⟨m, List.mem_append_left _ hm, hreach⟩
        · exact ⟨n, List.mem_append_right _ (List.mem_singleton_self n), hr.reach v (Or.inr hv)⟩
      · rintro ⟨m, hm, hreach⟩
        rcases List.mem_append.mp hm with hm | hm
        · exact hr.out ▸ List.mem_append_left _ ((h.mem_iff v).mpr ⟨m, hm, hreach⟩)
        · exact hst'.order.edgeClosed.reach hout (List.mem_singleton.mp hm ▸ hreach)
    · rw [Bool.or_eq_true, h.hasLoop_iff]
      constructor
      · rintro (⟨v, hv, hcycle⟩ | hloop)
        · exact ⟨v, hr.out ▸ List.mem_append_left _ hv, hcycle⟩
        · obtain ⟨v, hreach, hcycle⟩ := hr.sound hloop
          exact ⟨v, hst'.order.edgeClosed.reach hout hreach, hcycle⟩
      · rintro ⟨v, hv, hcycle⟩
        rw [hr.out] at hv
        rcases List.mem_append.mp hv with hv | hv
        · exact Or.inl ⟨v, hv, hcycle⟩
        · refine Or.inr (Bool.of_not_eq_false fun hloop => ?_)
          exact hr.acyclic hloop v hv hcycle

theorem Sorted.foldlM (hnodes : ∀ a b, g.Edge a b → b ∈ nodes) {fuel : ℕ} :
    ∀ {ns starts : List S} {loop : Bool} {st : SccInfo S}, Sorted g.Edge starts loop st.out →
      Inv g.Edge [] st → (∀ n ∈ ns, n ∈ nodes) → st.unknowns nodes ≤ fuel → ∃ loop' st',
        ns.foldlM (g.sortNode fuel) (loop, st) = some (loop', st') ∧
          Sorted g.Edge (starts ++ ns) loop' st'.out
  | [], starts, loop, st, h, _, _, _ => ⟨loop, st, rfl, by rwa [List.append_nil]⟩
  | n :: ns, starts, loop, st, h, hinv, hmem, hfuel => by
      obtain ⟨loop', st', heq, hinv', hfuel', h'⟩ :=
        h.append hinv hnodes (hmem n List.mem_cons_self) hfuel
      obtain ⟨loop₂, st₂, heq₂, h₂⟩ := h'.foldlM hnodes hinv'
        (fun m hm => hmem m (List.mem_cons_of_mem _ hm)) hfuel'
      rw [List.append_assoc, List.singleton_append] at h₂
      exact ⟨loop₂, st₂, by rw [List.foldlM_cons, heq]; exact heq₂, h₂⟩

/-- **`sort` lists the components of what can be reached in an order of their edges**, and finds
out whether there is a cycle, if calls may be nested deeper than there are nodes. -/
theorem CallGraph.sortFrom_spec {ns : List S} {es : List (S × S)} (h : g.Represents ns es)
    {fuel : ℕ} (start : List S) (hfuel : ns.length + start.length ≤ fuel) : ∃ hasLoop out,
      g.sortFrom fuel start = some (hasLoop, out) ∧ Sorted g.Edge start hasLoop out := by
  have hedge : ∀ a b, g.Edge a b → b ∈ ns ++ start := by
    intro a b hab
    rw [CallGraph.Edge, h.outEdges, callees, List.mem_map] at hab
    obtain ⟨e, he, rfl⟩ := hab
    exact List.mem_append_left _ (h.mem e (List.mem_filter.mp he).1).2
  have hempty : Sorted g.Edge [] false (SccInfo.initial : SccInfo S).out :=
    ⟨.nil, fun v => by simp [SccInfo.initial], by simp [SccInfo.initial]⟩
  have hle : (SccInfo.initial : SccInfo S).unknowns (ns ++ start) ≤ fuel :=
    List.countP_le_length.trans (List.length_append ▸ hfuel)
  obtain ⟨loop, st, heq, hsorted⟩ := hempty.foldlM hedge inv_initial
    (fun n hn => List.mem_append_right _ hn) hle
  exact ⟨loop, st.out, by rw [CallGraph.sortFrom, heq]; rfl, hsorted⟩

theorem CallGraph.sccSort_eq_sortFrom (g : CallGraph S) (fuel : ℕ) (start : S) :
    g.sccSort fuel start = g.sortFrom fuel [start] := by
  have hnil : start ∉ (SccInfo.initial : SccInfo S).out := List.not_mem_nil
  rw [sccSort, sortFrom, List.foldlM_cons, sortNode, if_neg hnil]
  cases g.strongConnect fuel start .initial with
  | none => rfl
  | some r => simp

/-- **`sort` of a whole graph.**  Every node is listed once, and what its calls can reach stands
in front of it, except for the rest of its component.  The nodes between two nodes of a component
belong to it.  The result says whether there is a cycle. -/
theorem CallGraph.sort_spec {ns : List S} {es : List (S × S)} (h : g.Represents ns es) {fuel : ℕ}
    (hfuel : 2 * ns.length ≤ fuel) : ∃ hasLoop out, g.sort fuel = some (hasLoop, out) ∧
      out.Perm ns ∧ (out.Pairwise fun a b => ReflTransGen g.Edge a b → Mutual g.Edge a b) ∧
      (∀ l₁ a m b l₂, out = l₁ ++ a :: (m ++ b :: l₂) → Mutual g.Edge a b →
        ∀ x ∈ m, Mutual g.Edge a x) ∧
      (hasLoop = true ↔ ∃ v, TransGen g.Edge v v) := by
  obtain ⟨hasLoop, out, heq, hsorted⟩ := CallGraph.sortFrom_spec h ns
    (by omega : ns.length + ns.length ≤ fuel)
  have htarget : ∀ a b, g.Edge a b → b ∈ ns := fun a b hab => by
    rw [CallGraph.Edge, h.outEdges, callees, List.mem_map] at hab
    obtain ⟨e, he, rfl⟩ := hab
    exact (h.mem e (List.mem_filter.mp he).1).2
  have hmem : ∀ v, v ∈ out ↔ v ∈ ns := fun v => by
    rw [hsorted.mem_iff]
    constructor
    · rintro ⟨n, hn, hreach⟩
      rcases ReflTransGen.cases_tail hreach with heq | ⟨u, -, huv⟩
      · exact heq ▸ hn
      · exact htarget u v huv
    · exact fun hv => ⟨v, hv, .refl⟩
  have hperm : out.Perm ns := (List.perm_ext_iff_of_nodup hsorted.order.nodup h.nodup).mpr hmem
  refine ⟨hasLoop, out, ?_, hperm, hsorted.order.pairwise, ?_, ?_⟩
  · rw [sort, h.nodes, heq]
  · exact fun l₁ a m b l₂ hout hab => hsorted.order.mutual_of_between hout hab
  · rw [hsorted.hasLoop_iff]
    constructor
    · rintro ⟨v, -, hcycle⟩
      exact ⟨v, hcycle⟩
    · rintro ⟨v, hcycle⟩
      obtain ⟨u, -, huv⟩ := TransGen.tail'_iff.mp hcycle
      exact ⟨v, (hmem v).mpr (htarget u v huv), hcycle⟩

end Search

/-- A graph whose calls form a cycle with one more node in front of it. -/
theorem CallGraph.sort_spec_cycle :
    ∃ hasLoop out, (((CallGraph.empty.calls 'a' 'b').calls 'b' 'c').calls 'c' 'b').sort 6
      = some (hasLoop, out) ∧ out.Perm ['a', 'b', 'c'] := by
  obtain ⟨hasLoop, out, heq, hperm, -⟩ := CallGraph.sort_spec
    (((CallGraph.Represents.empty.calls 'a' 'b').calls 'b' 'c').calls 'c' 'b')
    (by decide : 2 * 3 ≤ 6)
  exact ⟨hasLoop, out, heq, hperm⟩

end Pruning
end MicroP4
