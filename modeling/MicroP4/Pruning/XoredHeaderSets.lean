import MicroP4.Deparser.EmitTable
import MicroP4.Foundations.ChainDepth
import MicroP4.Pruning.CallGraph

/-!
# Headers that are never parsed together

`CreateXoredHeaderSets` takes the states of a parser without incoming edges off its call graph,
again and again, and collects one set of headers for the states that go at a time.  The
deparser drops a row in which two headers of one set are valid.

A state goes in the round that is its depth, and depth grows along a path, so two states of
one path never go together.  Their headers can: a state may extract several, and a header may
be extracted a second time at another depth.
-/

namespace MicroP4
namespace Pruning

open Foundations Relation

/-! ## Parsers -/

/-- The second argument of a call of `extract`.  The field `next` of a header stack is the
element after those that are filled. -/
inductive HeaderArg where
  | path (name : String)
  | member (expr : HeaderArg) (name : String)
  | next (stack : HeaderArg)
  | arrayIndex (left : HeaderArg) (right : ℕ)
  deriving DecidableEq

/-- `to<IR::Member>()->member`; the pointer is null for the other expressions. -/
def HeaderArg.memberName : HeaderArg → Option String
  | .path _ => none
  | .member _ name => some name
  | .next _ => some "next"
  | .arrayIndex _ _ => none

/-- The name of the header, which the deparser looks up when the header is emitted.  An element
of a stack has no name of its own. -/
def HeaderArg.instanceName : HeaderArg → Option String
  | .path name => some name
  | .member _ name => some name
  | .next _ => none
  | .arrayIndex _ _ => none

/-- What goes into the sets for a field is its name. -/
theorem HeaderArg.memberName_eq {a : HeaderArg} {n : String} (ha : a.memberName ≠ none)
    (hn : a.instanceName = some n) : a.memberName = some n := by
  cases a with
  | path name => exact absurd rfl ha
  | member expr name => exact hn
  | next stack => exact absurd hn.symm (Option.some_ne_none n)
  | arrayIndex left right => exact absurd rfl ha

/-- A call and a later one on the same path extract different headers. -/
def HeaderArg.Different (a b : HeaderArg) : Prop := a ≠ b ∨ ∃ stack, a = .next stack

/-- The states of a parser, as `AnalyzeParser` finds them.  `transitions` are the states that
are named in a state, in the order of the source. -/
structure ParserStructure (S : Type) where
  states : List S
  transitions : S → List S
  extracts : S → List HeaderArg
  start : S
  accept : S

/-- A parser whose states do not form a loop. -/
structure Parser (S : Type) extends ParserStructure S where
  start_ne_accept : start ≠ accept
  loopFree : ∀ s, ¬ TransGen (fun a b => a ∈ states ∧ b ∈ transitions a) s s

/-- What `CreateXoredHeaderSets` leaves in the parser structure. -/
structure XoredHeaders where
  xoredHeaderSets : List (List String)
  parsedHeaders : List String
  deriving DecidableEq

variable {S : Type}

namespace ParserStructure

variable (P : ParserStructure S)

/-- The calls recorded by `AnalyzeParser`. -/
def pathExpressions : List (S × S) :=
  P.states.flatMap fun s => (P.transitions s).map fun t => (s, t)

/-- One state names another. -/
def Edge (a b : S) : Prop := (a, b) ∈ P.pathExpressions

/-- `preorder(ParserState)`: the names of the headers of a state go into both sets. -/
def visit (s : S) (sets : List String × List String) : Option (List String × List String) :=
  (P.extracts s).foldlM
    (fun sets a => a.memberName.map fun n => (sets.1.insert n, sets.2.insert n)) sets

variable [DecidableEq S]

/-- `callGraph`, as `AnalyzeParser` builds it. -/
def callGraph : CallGraph S :=
  P.pathExpressions.foldl (fun g e => g.calls e.1 e.2) CallGraph.empty

/-- The body of the inner loop of `preorder(P4Parser)`. -/
def visitAndRemove (st : CallGraph S × List String × List String) (n : S) :
    Option (CallGraph S × List String × List String) :=
  (P.visit n st.2).bind fun sets => (st.1.remove n).map fun callGraph => (callGraph, sets)

/-- The outer loop of `preorder(P4Parser)`. -/
def loop : ℕ → CallGraph S → XoredHeaders → Option XoredHeaders
  | 0, callGraph, r => if callGraph.nodes = [] then some r else none
  | fuel + 1, callGraph, r =>
      if callGraph.nodes = [] then some r
      else
        let zeroDegNodes := callGraph.getNodesWithoutIncomingEdge
        (zeroDegNodes.foldlM P.visitAndRemove (callGraph, [], r.parsedHeaders)).bind fun st =>
          loop fuel st.1 ⟨r.xoredHeaderSets ++ [st.2.1], st.2.2⟩

/-- `CreateXoredHeaderSets`.  A round takes a state away, or changes nothing and the loop
does not end. -/
def createXoredHeaderSets : Option XoredHeaders :=
  P.loop P.callGraph.nodes.length P.callGraph ⟨[], []⟩

end ParserStructure

/-- The states a packet can take from `start` to `accept`. -/
structure Parser.AcceptingPath (P : Parser S) (path : List S) : Prop where
  head : path.head? = some P.start
  last : path.getLast? = some P.accept
  chain : path.IsChain P.Edge

/-- Two names are in a common set. -/
def Together (sets : List (List String)) (m n : String) : Prop := ∃ X ∈ sets, m ∈ X ∧ n ∈ X

/-- The headers of two calls belong to a common set. -/
def HeaderArg.Together (sets : List (List String)) (a b : HeaderArg) : Prop :=
  ∃ m n, a.instanceName = some m ∧ b.instanceName = some n ∧ Pruning.Together sets m n

theorem HeaderArg.Together.symm {sets : List (List String)} {a b : HeaderArg}
    (h : HeaderArg.Together sets a b) : HeaderArg.Together sets b a := by
  obtain ⟨m, n, hm, hn, X, hX, hmX, hnX⟩ := h
  exact ⟨n, m, hn, hm, X, hX, hnX, hmX⟩

/-! ## Visiting states -/

namespace ParserStructure

variable (P : ParserStructure S)

/-- The headers a state extracts are fields. -/
def Members (s : S) : Prop := ∀ a ∈ P.extracts s, a.memberName ≠ none

/-- A state extracts a header with the name. -/
def Names (s : S) (n : String) : Prop := ∃ a ∈ P.extracts s, a.memberName = some n

theorem exists_foldlM_insert {as : List HeaderArg} (has : ∀ a ∈ as, a.memberName ≠ none)
    (sets : List String × List String) :
    ∃ sets', as.foldlM (fun sets (a : HeaderArg) =>
        a.memberName.map fun n => (sets.1.insert n, sets.2.insert n)) sets = some sets' ∧
      ∀ n, (n ∈ sets'.1 ↔ n ∈ sets.1 ∨ ∃ a ∈ as, a.memberName = some n) ∧
        (n ∈ sets'.2 ↔ n ∈ sets.2 ∨ ∃ a ∈ as, a.memberName = some n) := by
  induction as generalizing sets with
  | nil => exact ⟨sets, rfl, fun n => ⟨by simp, by simp⟩⟩
  | cons a as ih =>
      obtain ⟨m, hm⟩ := Option.ne_none_iff_exists'.mp (has a List.mem_cons_self)
      obtain ⟨sets', hfold, hmem⟩ := ih (fun b hb => has b (List.mem_cons_of_mem _ hb))
        (sets.1.insert m, sets.2.insert m)
      refine ⟨sets', ?_, fun n => ⟨?_, ?_⟩⟩
      · rw [List.foldlM_cons, hm]
        exact hfold
      · rw [(hmem n).1, List.mem_insert_iff, List.exists_mem_cons_iff, hm, Option.some_inj,
          eq_comm (a := n), or_comm (a := m = n), or_assoc]
      · rw [(hmem n).2, List.mem_insert_iff, List.exists_mem_cons_iff, hm, Option.some_inj,
          eq_comm (a := n), or_comm (a := m = n), or_assoc]

theorem exists_visit_eq {s : S} (hs : P.Members s) (sets : List String × List String) :
    ∃ sets', P.visit s sets = some sets' ∧
      ∀ n, (n ∈ sets'.1 ↔ n ∈ sets.1 ∨ P.Names s n) ∧
        (n ∈ sets'.2 ↔ n ∈ sets.2 ∨ P.Names s n) :=
  exists_foldlM_insert hs sets

theorem members_of_visit {s : S} {sets sets' : List String × List String}
    (h : P.visit s sets = some sets') : P.Members s := by
  unfold visit at h
  unfold Members
  generalize P.extracts s = as at h
  induction as generalizing sets with
  | nil => exact fun a ha => absurd ha List.not_mem_nil
  | cons a as ih =>
      rw [List.foldlM_cons] at h
      cases hm : a.memberName with
      | none =>
          rw [hm] at h
          cases h
      | some m =>
          rw [hm] at h
          intro b hb
          rcases List.mem_cons.mp hb with rfl | hb
          · rw [hm]
            exact Option.some_ne_none m
          · exact ih h b hb

variable [DecidableEq S] {P}

/-- One round of the outer loop. -/
theorem exists_foldlM_visitAndRemove {zs ns : List S} {es : List (S × S)} {g : CallGraph S}
    (hg : g.Represents ns es) (hnd : zs.Nodup) (hmem : ∀ z ∈ zs, z ∈ ns)
    (hself : ∀ z ∈ zs, (z, z) ∉ es) (hmembers : ∀ z ∈ zs, P.Members z)
    (sets : List String × List String) :
    ∃ g' ns' sets', zs.foldlM P.visitAndRemove (g, sets) = some (g', sets') ∧
      g'.Represents ns' (callsWithout zs es) ∧ (∀ s, s ∈ ns' ↔ s ∈ ns ∧ s ∉ zs) ∧
      ∀ n, (n ∈ sets'.1 ↔ n ∈ sets.1 ∨ ∃ z ∈ zs, P.Names z n) ∧
        (n ∈ sets'.2 ↔ n ∈ sets.2 ∨ ∃ z ∈ zs, P.Names z n) := by
  induction zs generalizing ns es g sets with
  | nil =>
      refine ⟨g, ns, sets, rfl, ?_, fun s => by simp, fun n => ⟨by simp, by simp⟩⟩
      have hes : callsWithout [] es = es :=
        List.filter_eq_self.mpr fun e _ => by simp
      rw [hes]
      exact hg
  | cons z zs ih =>
      obtain ⟨hz, hnd⟩ := List.nodup_cons.mp hnd
      obtain ⟨g₁, hremove, hg₁⟩ := hg.remove (hmem z List.mem_cons_self)
        (hself z List.mem_cons_self)
      obtain ⟨sets₁, hvisit, hsets₁⟩ := P.exists_visit_eq (hmembers z List.mem_cons_self) sets
      have hne : ∀ y ∈ zs, y ≠ z := fun y hy h => hz (h ▸ hy)
      obtain ⟨g', ns', sets', hfold, hg', hns', hsets'⟩ := ih hg₁ hnd
        (fun y hy => (List.mem_erase_of_ne (hne y hy)).mpr (hmem y (List.mem_cons_of_mem _ hy)))
        (fun y hy h => hself y (List.mem_cons_of_mem _ hy) (mem_callsWithout.mp h).1)
        (fun y hy => hmembers y (List.mem_cons_of_mem _ hy)) sets₁
      refine ⟨g', ns', sets', ?_, ?_, fun s => ?_, fun n => ⟨?_, ?_⟩⟩
      · rw [List.foldlM_cons]
        unfold visitAndRemove
        rw [hvisit, Option.bind_some, hremove]
        exact hfold
      · rw [callsWithout_cons]
        exact hg'
      · rw [hns' s, hg.nodup.mem_erase_iff, List.mem_cons, not_or]
        exact ⟨fun h => ⟨h.1.2, h.1.1, h.2⟩, fun h => ⟨⟨h.2.1, h.1⟩, h.2.2⟩⟩
      · rw [(hsets' n).1, (hsets₁ n).1, List.exists_mem_cons_iff, or_assoc]
      · rw [(hsets' n).2, (hsets₁ n).2, List.exists_mem_cons_iff, or_assoc]

theorem members_of_foldlM {zs : List S} {st st' : CallGraph S × List String × List String}
    (h : zs.foldlM P.visitAndRemove st = some st') : ∀ z ∈ zs, P.Members z := by
  induction zs generalizing st with
  | nil => exact fun z hz => absurd hz List.not_mem_nil
  | cons z zs ih =>
      rw [List.foldlM_cons] at h
      obtain ⟨st₁, hstep, hrest⟩ := Option.bind_eq_some_iff.mp h
      obtain ⟨sets, hvisit, -⟩ := Option.bind_eq_some_iff.mp hstep
      intro y hy
      rcases List.mem_cons.mp hy with rfl | hy
      · exact P.members_of_visit hvisit
      · exact ih hrest y hy

/-! ## Rounds -/

/-- Before round `k` the graph has the nodes at which a chain of `k` edges ends. -/
structure AtRound (P : ParserStructure S) (k : ℕ) (g : CallGraph S) (ns : List S)
    (es : List (S × S)) : Prop where
  represents : g.Represents ns es
  mem_nodes : ∀ s, s ∈ ns ↔ s ∈ P.callGraph.nodes ∧ HasChain P.Edge s k
  mem_edges : ∀ a b, (a, b) ∈ es ↔ P.Edge a b ∧ HasChain P.Edge a k

theorem represents_foldl_calls (es : List (S × S)) {ns : List S} {es₀ : List (S × S)}
    {g : CallGraph S} (hg : g.Represents ns es₀) :
    ∃ ns', (es.foldl (fun g e => g.calls e.1 e.2) g).Represents ns' (es₀ ++ es) := by
  induction es generalizing ns es₀ g with
  | nil =>
      rw [List.append_nil]
      exact ⟨ns, hg⟩
  | cons e es ih =>
      obtain ⟨ns', h⟩ := ih (hg.calls e.1 e.2)
      rw [List.append_assoc] at h
      exact ⟨ns', h⟩

variable (P) in
theorem callGraph_represents :
    P.callGraph.Represents P.callGraph.nodes P.pathExpressions := by
  obtain ⟨ns, h⟩ := represents_foldl_calls P.pathExpressions CallGraph.Represents.empty
  have hns : P.callGraph.nodes = ns := h.nodes
  rw [hns]
  exact h

theorem Edge.source_mem {a b : S} (h : P.Edge a b) : a ∈ P.callGraph.nodes :=
  (P.callGraph_represents.mem _ h).1

theorem Edge.target_mem {a b : S} (h : P.Edge a b) : b ∈ P.callGraph.nodes :=
  (P.callGraph_represents.mem _ h).2

omit [DecidableEq S] in
theorem edge_iff {a b : S} : P.Edge a b ↔ a ∈ P.states ∧ b ∈ P.transitions a := by
  simp [Edge, pathExpressions]

variable (P) in
theorem atRound_zero : P.AtRound 0 P.callGraph P.callGraph.nodes P.pathExpressions where
  represents := P.callGraph_represents
  mem_nodes := fun s => (and_iff_left (HasChain.zero s)).symm
  mem_edges := fun a _ => (and_iff_left (HasChain.zero a)).symm

namespace AtRound

variable {k : ℕ} {g : CallGraph S} {ns : List S} {es : List (S × S)}

/-- The nodes without incoming edges are those whose depth is the number of the round. -/
theorem mem_zeroDegNodes (h : P.AtRound k g ns es) {s : S} :
    s ∈ g.getNodesWithoutIncomingEdge ↔ s ∈ P.callGraph.nodes ∧ AtDepth P.Edge s k := by
  rw [h.represents.mem_getNodesWithoutIncomingEdge, h.mem_nodes, and_assoc]
  unfold AtDepth
  rw [hasChain_succ_iff, not_exists]
  refine and_congr_right fun _ => and_congr_right fun _ => forall_congr' fun a => ?_
  rw [h.mem_edges]

theorem next (h : P.AtRound k g ns es) {g' : CallGraph S} {ns' : List S}
    (hg' : g'.Represents ns' (callsWithout g.getNodesWithoutIncomingEdge es))
    (hns' : ∀ s, s ∈ ns' ↔ s ∈ ns ∧ s ∉ g.getNodesWithoutIncomingEdge) :
    P.AtRound (k + 1) g' ns' (callsWithout g.getNodesWithoutIncomingEdge es) where
  represents := hg'
  mem_nodes := by
    intro s
    rw [hns', h.mem_nodes, h.mem_zeroDegNodes]
    constructor
    · rintro ⟨⟨hs, hk⟩, hnot⟩
      exact ⟨hs, not_not.mp fun hk' => hnot ⟨hs, hk, hk'⟩⟩
    · rintro ⟨hs, hk⟩
      exact ⟨⟨hs, hk.of_succ⟩, fun hd => hd.2.2 hk⟩
  mem_edges := by
    intro a b
    rw [mem_callsWithout, h.mem_edges, h.mem_zeroDegNodes, h.mem_zeroDegNodes]
    constructor
    · rintro ⟨⟨hE, hk⟩, hnot, -⟩
      exact ⟨hE, not_not.mp fun hk' => hnot ⟨Edge.source_mem hE, hk, hk'⟩⟩
    · rintro ⟨hE, hk⟩
      -- the callee stays as well, it is deeper
      exact ⟨⟨hE, hk.of_succ⟩, fun hd => hd.2.2 hk,
        fun hd => hd.2.2 (HasChain.succ hE hk.of_succ)⟩

theorem eq_nil_iff (h : P.AtRound k g ns es) :
    g.nodes = [] ↔ ∀ s ∈ P.callGraph.nodes, ¬ HasChain P.Edge s k := by
  rw [h.represents.nodes, List.eq_nil_iff_forall_not_mem]
  refine forall_congr' fun s => ?_
  rw [h.mem_nodes, not_and]

/-- A round takes the nodes at its depth off the graph, and their names form the set. -/
theorem exists_round (h : P.AtRound k g ns es)
    (hmembers : ∀ s ∈ P.callGraph.nodes, AtDepth P.Edge s k → P.Members s)
    (parsedHeaders : List String) :
    ∃ g' ns' es' X parsedHeaders',
      g.getNodesWithoutIncomingEdge.foldlM P.visitAndRemove (g, [], parsedHeaders)
        = some (g', X, parsedHeaders') ∧ P.AtRound (k + 1) g' ns' es' ∧
      (∀ n, n ∈ X ↔ ∃ s ∈ P.callGraph.nodes, AtDepth P.Edge s k ∧ P.Names s n) ∧
      ∀ n, n ∈ parsedHeaders' ↔ n ∈ parsedHeaders ∨
        ∃ s ∈ P.callGraph.nodes, AtDepth P.Edge s k ∧ P.Names s n := by
  have hself : ∀ z ∈ g.getNodesWithoutIncomingEdge, (z, z) ∉ es := fun z hz =>
    (h.represents.mem_getNodesWithoutIncomingEdge.mp hz).2 z
  obtain ⟨g', ns', sets', hfold, hg', hns', hsets'⟩ := exists_foldlM_visitAndRemove
    h.represents h.represents.nodup_getNodesWithoutIncomingEdge
    (fun z hz => (h.represents.mem_getNodesWithoutIncomingEdge.mp hz).1) hself
    (fun z hz => hmembers z (h.mem_zeroDegNodes.mp hz).1 (h.mem_zeroDegNodes.mp hz).2)
    ([], parsedHeaders)
  have hnames : ∀ n, (∃ z ∈ g.getNodesWithoutIncomingEdge, P.Names z n) ↔
      ∃ s ∈ P.callGraph.nodes, AtDepth P.Edge s k ∧ P.Names s n := fun n =>
    exists_congr fun s => by rw [h.mem_zeroDegNodes, and_assoc]
  refine ⟨g', ns', _, sets'.1, sets'.2, hfold, h.next hg' hns', fun n => ?_, fun n => ?_⟩
  · rw [(hsets' n).1, hnames, or_iff_right List.not_mem_nil]
  · rw [(hsets' n).2, hnames]

end AtRound

/-! ## The loop -/

/-- Names from a common depth. -/
def NamesAtDepth (P : ParserStructure S) (k : ℕ) (m n : String) : Prop :=
  ∃ s ∈ P.callGraph.nodes, ∃ t ∈ P.callGraph.nodes,
    AtDepth P.Edge s k ∧ AtDepth P.Edge t k ∧ P.Names s m ∧ P.Names t n

/-- Without a cycle the loop ends, and collects the sets of all depths from the one of its
round on. -/
theorem exists_loop_eq (hacyclic : ∀ s, ¬ TransGen P.Edge s s) (fuel : ℕ) {k : ℕ}
    {g : CallGraph S} {ns : List S} {es : List (S × S)} (h : P.AtRound k g ns es)
    (hfuel : P.callGraph.nodes.length ≤ k + fuel)
    (hmembers : ∀ s ∈ P.callGraph.nodes, P.Members s) (r : XoredHeaders) :
    ∃ r', P.loop fuel g r = some r' ∧
      (∀ m n, Together r'.xoredHeaderSets m n ↔
        Together r.xoredHeaderSets m n ∨ ∃ j, k ≤ j ∧ P.NamesAtDepth j m n) ∧
      ∀ n, n ∈ r'.parsedHeaders ↔ n ∈ r.parsedHeaders ∨
        ∃ s ∈ P.callGraph.nodes, HasChain P.Edge s k ∧ P.Names s n := by
  have hend := h.eq_nil_iff.mp
  by_cases hnil : g.nodes = []
  · refine ⟨r, ?_, fun m n => (or_iff_left ?_).symm, fun n => (or_iff_left ?_).symm⟩
    · cases fuel <;> exact if_pos hnil
    · rintro ⟨j, hkj, s, hs, -, -, hd, -⟩
      exact hend hnil s hs (hd.1.of_le hkj)
    · rintro ⟨s, hs, hk, -⟩
      exact hend hnil s hs hk
  · cases fuel with
    | zero =>
        -- a node that is left would end a chain as long as the graph has nodes
        obtain ⟨s, hs⟩ := List.exists_mem_of_ne_nil _ hnil
        rw [h.represents.nodes] at hs
        obtain ⟨hs, hk⟩ := (h.mem_nodes s).mp hs
        have hlt := hk.lt_length hacyclic (fun _ _ hE => Edge.source_mem hE) hs
        exact absurd hlt (Nat.not_lt.mpr hfuel)
    | succ fuel =>
        obtain ⟨g', ns', es', X, parsed, hround, hnext, hX, hparsed⟩ :=
          h.exists_round (fun s hs _ => hmembers s hs) r.parsedHeaders
        have hfuel' : P.callGraph.nodes.length ≤ k + 1 + fuel := by omega
        obtain ⟨r', hloop, htogether, hparsed'⟩ :=
          exists_loop_eq hacyclic fuel hnext hfuel' hmembers
          ⟨r.xoredHeaderSets ++ [X], parsed⟩
        refine ⟨r', ?_, fun m n => ?_, fun n => ?_⟩
        · unfold loop
          rw [if_neg hnil]
          show (g.getNodesWithoutIncomingEdge.foldlM P.visitAndRemove
            (g, [], r.parsedHeaders)).bind _ = _
          rw [hround]
          exact hloop
        · have hset : Together (r.xoredHeaderSets ++ [X]) m n ↔
              Together r.xoredHeaderSets m n ∨ P.NamesAtDepth k m n := by
            unfold Together NamesAtDepth
            constructor
            · rintro ⟨Y, hY, hm, hn⟩
              rcases List.mem_append.mp hY with hY | hY
              · exact Or.inl ⟨Y, hY, hm, hn⟩
              · rw [List.mem_singleton.mp hY] at hm hn
                obtain ⟨s, hs, hsd, hsm⟩ := (hX m).mp hm
                obtain ⟨t, ht, htd, htn⟩ := (hX n).mp hn
                exact Or.inr ⟨s, hs, t, ht, hsd, htd, hsm, htn⟩
            · rintro (⟨Y, hY, hm, hn⟩ | ⟨s, hs, t, ht, hsd, htd, hsm, htn⟩)
              · exact ⟨Y, List.mem_append_left _ hY, hm, hn⟩
              · exact ⟨X, List.mem_append_right _ (List.mem_singleton_self X),
                  (hX m).mpr ⟨s, hs, hsd, hsm⟩, (hX n).mpr ⟨t, ht, htd, htn⟩⟩
          rw [htogether, hset, or_assoc]
          refine or_congr_right ⟨?_, ?_⟩
          · rintro (hk | ⟨j, hj, hjn⟩)
            · exact ⟨k, Nat.le_refl k, hk⟩
            · exact ⟨j, Nat.le_of_succ_le hj, hjn⟩
          · rintro ⟨j, hj, hjn⟩
            rcases Nat.eq_or_lt_of_le hj with rfl | hlt
            · exact Or.inl hjn
            · exact Or.inr ⟨j, hlt, hjn⟩
        · rw [hparsed', hparsed, or_assoc]
          refine or_congr_right ⟨?_, ?_⟩
          · rintro (⟨s, hs, hd, hn⟩ | ⟨s, hs, hk, hn⟩)
            · exact ⟨s, hs, hd.1, hn⟩
            · exact ⟨s, hs, hk.of_succ, hn⟩
          · rintro ⟨s, hs, hk, hn⟩
            by_cases hk' : HasChain P.Edge s (k + 1)
            · exact Or.inr ⟨s, hs, hk', hn⟩
            · exact Or.inl ⟨s, hs, ⟨hk, hk'⟩, hn⟩

/-- Where the loop ends, it has done its next round and ends from there. -/
theorem AtRound.of_loop_eq {fuel k : ℕ} {g : CallGraph S} {ns : List S} {es : List (S × S)}
    (h : P.AtRound k g ns es) (hnil : g.nodes ≠ []) {r r' : XoredHeaders}
    (hloop : P.loop (fuel + 1) g r = some r') :
    (∀ s ∈ P.callGraph.nodes, AtDepth P.Edge s k → P.Members s) ∧
      ∃ g' ns' es' r₁, P.AtRound (k + 1) g' ns' es' ∧ P.loop fuel g' r₁ = some r' := by
  unfold loop at hloop
  rw [if_neg hnil] at hloop
  obtain ⟨⟨g₁, X, parsed⟩, hfold, hrest⟩ := Option.bind_eq_some_iff.mp hloop
  have hzero := members_of_foldlM hfold
  have hmembers : ∀ t ∈ P.callGraph.nodes, AtDepth P.Edge t k → P.Members t :=
    fun t ht hd => hzero t (h.mem_zeroDegNodes.mpr ⟨ht, hd⟩)
  obtain ⟨g', ns', es', X', parsed', hround, hnext, -⟩ := h.exists_round hmembers r.parsedHeaders
  rw [hround] at hfold
  cases hfold
  exact ⟨hmembers, _, _, _, _, hnext, hrest⟩

/-- Where the loop ends, every header it came past is a field. -/
theorem members_of_loop (fuel : ℕ) {k : ℕ} {g : CallGraph S} {ns : List S} {es : List (S × S)}
    (h : P.AtRound k g ns es) {r r' : XoredHeaders} (hloop : P.loop fuel g r = some r') :
    ∀ s ∈ P.callGraph.nodes, HasChain P.Edge s k → P.Members s := by
  intro s hs hk
  have hnil : g.nodes ≠ [] := fun hnil => h.eq_nil_iff.mp hnil s hs hk
  cases fuel with
  | zero =>
      unfold loop at hloop
      rw [if_neg hnil] at hloop
      cases hloop
  | succ fuel =>
      obtain ⟨hmembers, g', ns', es', r₁, hnext, hrest⟩ := h.of_loop_eq hnil hloop
      by_cases hk' : HasChain P.Edge s (k + 1)
      · exact members_of_loop fuel hnext hrest s hs hk'
      · exact hmembers s hs ⟨hk, hk'⟩

end ParserStructure

namespace Parser

open ParserStructure

variable [DecidableEq S] {P : Parser S}

omit [DecidableEq S] in
variable (P) in
theorem acyclic (s : S) : ¬ TransGen P.Edge s s := by
  have hE : P.Edge = fun a b => a ∈ P.states ∧ b ∈ P.transitions a := by
    funext a b
    exact propext edge_iff
  rw [hE]
  exact P.loopFree s

theorem HasChain.lt_size {s : S} {k : ℕ} (hs : s ∈ P.callGraph.nodes)
    (h : HasChain P.Edge s k) : k < P.callGraph.nodes.length :=
  h.lt_length P.acyclic (fun _ _ hE => Edge.source_mem hE) hs

/-- The headers of two calls belong to a common set if states of equal depth extract headers
of their names. -/
theorem exists_createXoredHeaderSets_eq (hmembers : ∀ s ∈ P.callGraph.nodes, P.Members s) :
    ∃ r, P.createXoredHeaderSets = some r ∧
      (∀ m n, Together r.xoredHeaderSets m n ↔ ∃ j, P.NamesAtDepth j m n) ∧
      ∀ n, n ∈ r.parsedHeaders ↔ ∃ s ∈ P.callGraph.nodes, P.Names s n := by
  obtain ⟨r, hloop, htogether, hparsed⟩ := exists_loop_eq P.acyclic P.callGraph.nodes.length
    P.atRound_zero (Nat.le_of_eq (Nat.zero_add _).symm) hmembers ⟨[], []⟩
  refine ⟨r, hloop, fun m n => ?_, fun n => ?_⟩
  · rw [htogether, or_iff_right (by rintro ⟨X, hX, -⟩; exact List.not_mem_nil hX)]
    exact exists_congr fun j => and_iff_right (Nat.zero_le j)
  · rw [hparsed, or_iff_right List.not_mem_nil]
    exact exists_congr fun s => and_congr_right fun _ => and_iff_right (HasChain.zero s)

theorem members_of_createXoredHeaderSets {r : XoredHeaders}
    (h : P.createXoredHeaderSets = some r) : ∀ s ∈ P.callGraph.nodes, P.Members s :=
  fun s hs => members_of_loop _ P.atRound_zero h s hs (HasChain.zero s)

end Parser

end Pruning
end MicroP4
