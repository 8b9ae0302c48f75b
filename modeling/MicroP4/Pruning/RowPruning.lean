import MicroP4.Pruning.XoredHeaderSets

/-!
# When no row is dropped that a packet needs

The deparser keeps the rows of the headers that are parsed together if no two headers of an
accepting path belong to a common set.  States of one path have different depths, so this can
only fail where one state extracts two headers, or where the two headers of the path are
extracted again, in states of equal depth.
-/

namespace MicroP4
namespace Pruning

open Foundations Relation

variable {S : Type}

namespace Parser

open ParserStructure

section Paths

variable {P : Parser S}

/-- Further down a path is further along the edges. -/
theorem AcceptingPath.pairwise {path : List S} (h : P.AcceptingPath path) :
    path.Pairwise (TransGen P.Edge) :=
  List.isChain_iff_pairwise.mp (h.chain.imp fun _ _ => TransGen.single)

variable [DecidableEq S]

theorem mem_nodes_of_isChain {a : S} {path : List S} (hchain : (a :: path).IsChain P.Edge)
    (ha : a ∈ P.callGraph.nodes) : ∀ s ∈ a :: path, s ∈ P.callGraph.nodes := by
  induction path generalizing a with
  | nil =>
      intro s hs
      rw [List.mem_singleton.mp hs]
      exact ha
  | cons b path ih =>
      obtain ⟨hab, hchain⟩ := List.isChain_cons_cons.mp hchain
      intro s hs
      rcases List.mem_cons.mp hs with rfl | hs
      · exact ha
      · exact ih hchain (Edge.target_mem hab) s hs

/-- The states of an accepting path are in the call graph. -/
theorem AcceptingPath.mem_nodes {path : List S} (h : P.AcceptingPath path) :
    ∀ s ∈ path, s ∈ P.callGraph.nodes := by
  obtain ⟨hhead, hlast, hchain⟩ := h
  match path with
  | [] => exact fun s hs => absurd hs List.not_mem_nil
  | [a] =>
      -- `start` is not `accept`
      have hs : a = P.start := Option.some_inj.mp hhead
      have ha : a = P.accept := Option.some_inj.mp hlast
      exact absurd (hs.symm.trans ha) P.start_ne_accept
  | a :: b :: path =>
      exact mem_nodes_of_isChain hchain
        (Edge.source_mem (List.isChain_cons_cons.mp hchain).1)

end Paths

/-! ## Soundness -/

variable [DecidableEq S] (P : Parser S)

/-- Pruning is sound: `CreateXoredHeaderSets` returns sets, no two different headers that are
extracted on an accepting path belong to one of them, and every header extracted there is
among the parsed ones. -/
def PruningSound : Prop :=
  ∃ r, P.createXoredHeaderSets = some r ∧ ∀ path, P.AcceptingPath path →
    ((path.flatMap P.extracts).Pairwise fun a b =>
      a.Different b → ¬ HeaderArg.Together r.xoredHeaderSets a b) ∧
    ∀ a ∈ path.flatMap P.extracts, ∃ n, a.instanceName = some n ∧ n ∈ r.parsedHeaders

/-- A state extracts a header with the name of this one. -/
def NamesHeader (s : S) (a : HeaderArg) : Prop := ∃ c ∈ P.extracts s, c.memberName = a.memberName

/-- The parsers with sound pruning. -/
structure Separated : Prop where
  /-- every header is a field -/
  members : ∀ s ∈ P.callGraph.nodes, P.Members s
  /-- the headers of an accepting path have names of their own -/
  named : ∀ path, P.AcceptingPath path → ∀ a ∈ path.flatMap P.extracts, a.instanceName ≠ none
  /-- a state of an accepting path extracts one header -/
  single : ∀ path, P.AcceptingPath path → ∀ s ∈ path,
    (P.extracts s).Pairwise fun a b => ¬ a.Different b
  /-- two headers that two states of an accepting path extract are not extracted by two other
  states, at one depth -/
  apart : ∀ path, P.AcceptingPath path → path.Pairwise fun s t =>
    ∀ a ∈ P.extracts s, ∀ b ∈ P.extracts t, a.Different b →
      ∀ s' ∈ P.callGraph.nodes, ∀ t' ∈ P.callGraph.nodes, (s', t') ≠ (s, t) →
        SameDepth P.Edge s' t' → ¬ (P.NamesHeader s' a ∧ P.NamesHeader t' b)

variable {P}

theorem exists_sameDepth_iff {a b : HeaderArg} {m n : String} (ha : a.memberName = some m)
    (hb : b.memberName = some n) : (∃ j, P.NamesAtDepth j m n) ↔
      ∃ s ∈ P.callGraph.nodes, ∃ t ∈ P.callGraph.nodes,
        SameDepth P.Edge s t ∧ P.NamesHeader s a ∧ P.NamesHeader t b := by
  unfold NamesAtDepth NamesHeader SameDepth
  rw [ha, hb]
  constructor
  · rintro ⟨j, s, hs, t, ht, hsd, htd, hsm, htn⟩
    exact ⟨s, hs, t, ht, ⟨j, hsd, htd⟩, hsm, htn⟩
  · rintro ⟨s, hs, t, ht, ⟨j, hsd, htd⟩, hsm, htn⟩
    exact ⟨j, s, hs, t, ht, hsd, htd, hsm, htn⟩

/-- The headers of two calls belong to a common set if states of one depth extract headers
with their names. -/
theorem together_iff {r : XoredHeaders} (hr : P.createXoredHeaderSets = some r)
    {a b : HeaderArg} {s t : S} (hs : s ∈ P.callGraph.nodes) (ht : t ∈ P.callGraph.nodes)
    (ha : a ∈ P.extracts s) (hb : b ∈ P.extracts t) (han : a.instanceName ≠ none)
    (hbn : b.instanceName ≠ none) :
    HeaderArg.Together r.xoredHeaderSets a b ↔
      ∃ s' ∈ P.callGraph.nodes, ∃ t' ∈ P.callGraph.nodes,
        SameDepth P.Edge s' t' ∧ P.NamesHeader s' a ∧ P.NamesHeader t' b := by
  have hmembers := members_of_createXoredHeaderSets hr
  obtain ⟨r', hr', htogether, -⟩ := exists_createXoredHeaderSets_eq hmembers
  cases hr.symm.trans hr'
  obtain ⟨m, hm⟩ := Option.ne_none_iff_exists'.mp han
  obtain ⟨n, hn⟩ := Option.ne_none_iff_exists'.mp hbn
  rw [← exists_sameDepth_iff (HeaderArg.memberName_eq (hmembers s hs a ha) hm)
    (HeaderArg.memberName_eq (hmembers t ht b hb) hn), ← htogether]
  unfold HeaderArg.Together
  constructor
  · rintro ⟨m', n', hm', hn', h⟩
    cases hm.symm.trans hm'
    cases hn.symm.trans hn'
    exact h
  · exact fun h => ⟨m, n, hm, hn, h⟩

theorem sameDepth_self {s : S} (hs : s ∈ P.callGraph.nodes) : SameDepth P.Edge s s := by
  have hbound : ¬ HasChain P.Edge s P.callGraph.nodes.length :=
    fun h => Nat.lt_irrefl _ (HasChain.lt_size hs h)
  obtain ⟨k, hk⟩ := exists_atDepth hbound
  exact ⟨k, hk, hk⟩

theorem Separated.pruningSound (h : P.Separated) : P.PruningSound := by
  obtain ⟨r, hr, -, hparsed⟩ := exists_createXoredHeaderSets_eq h.members
  refine ⟨r, hr, fun path hpath => ⟨List.pairwise_flatMap.mpr ⟨fun s hs => ?_, ?_⟩, ?_⟩⟩
  · exact (h.single path hpath s hs).imp fun hsame hdiff => absurd hdiff hsame
  · refine (hpath.pairwise.and (h.apart path hpath)).imp_of_mem ?_
    rintro s t hs ht ⟨hreach, hapart⟩ a ha b hb hdiff htogether
    have hnamed := h.named path hpath
    rw [together_iff hr (hpath.mem_nodes s hs) (hpath.mem_nodes t ht) ha hb
      (hnamed a (List.mem_flatMap_of_mem hs ha))
      (hnamed b (List.mem_flatMap_of_mem ht hb))] at htogether
    obtain ⟨s', hs', t', ht', hdepth, hnames⟩ := htogether
    by_cases hpair : (s', t') = (s, t)
    · cases hpair
      exact not_sameDepth_of_transGen hreach hdepth
    · exact hapart a ha b hb hdiff s' hs' t' ht' hpair hdepth hnames
  · intro a ha
    obtain ⟨n, hn⟩ := Option.ne_none_iff_exists'.mp (h.named path hpath a ha)
    obtain ⟨s, hs, ha⟩ := List.mem_flatMap.mp ha
    have hs := hpath.mem_nodes s hs
    exact ⟨n, hn, (hparsed n).mpr ⟨s, hs, a, ha,
      HeaderArg.memberName_eq (h.members s hs a ha) hn⟩⟩

theorem PruningSound.separated (h : P.PruningSound) : P.Separated := by
  obtain ⟨r, hr, hsound⟩ := h
  have hnamed : ∀ path, P.AcceptingPath path → ∀ s ∈ path, ∀ a ∈ P.extracts s,
      a.instanceName ≠ none := fun path hpath s hs a ha => by
    obtain ⟨n, hn, -⟩ := (hsound path hpath).2 a (List.mem_flatMap_of_mem hs ha)
    exact Option.ne_none_iff_exists'.mpr ⟨n, hn⟩
  refine ⟨members_of_createXoredHeaderSets hr, fun path hpath a ha => ?_,
    fun path hpath s hs => ?_, fun path hpath => ?_⟩
  · obtain ⟨s, hs, ha⟩ := List.mem_flatMap.mp ha
    exact hnamed path hpath s hs a ha
  · have hs' := hpath.mem_nodes s hs
    refine ((List.pairwise_flatMap.mp (hsound path hpath).1).1 s hs).imp_of_mem ?_
    intro a b ha hb hnot hdiff
    refine hnot hdiff ((together_iff hr hs' hs' ha hb (hnamed path hpath s hs a ha)
      (hnamed path hpath s hs b hb)).mpr ?_)
    exact ⟨s, hs', s, hs', sameDepth_self hs', ⟨a, ha, rfl⟩, ⟨b, hb, rfl⟩⟩
  · refine (List.pairwise_flatMap.mp (hsound path hpath).1).2.imp_of_mem ?_
    intro s t hs ht hnot a ha b hb hdiff s' hs' t' ht' _ hdepth hnames
    refine hnot a ha b hb hdiff ?_
    rw [together_iff hr (hpath.mem_nodes s hs) (hpath.mem_nodes t ht) ha hb
      (hnamed path hpath s hs a ha) (hnamed path hpath t ht b hb)]
    exact ⟨s', hs', t', ht', hdepth, hnames⟩

variable (P) in
/-- **Pruning is sound for the parsers that are separated**, and for no others. -/
theorem pruningSound_iff : P.PruningSound ↔ P.Separated :=
  ⟨PruningSound.separated, Separated.pruningSound⟩

/-! ## Rows -/

omit [DecidableEq S] in
theorem not_together_of_ne {r : XoredHeaders} {path : List S}
    (h : (path.flatMap P.extracts).Pairwise fun a b =>
      a.Different b → ¬ HeaderArg.Together r.xoredHeaderSets a b)
    {a b : HeaderArg} (ha : a ∈ path.flatMap P.extracts) (hb : b ∈ path.flatMap P.extracts)
    (hab : a ≠ b) : ¬ HeaderArg.Together r.xoredHeaderSets a b := by
  have hpw : (path.flatMap P.extracts).Pairwise fun a b =>
      a ≠ b → ¬ HeaderArg.Together r.xoredHeaderSets a b :=
    h.imp fun hnot hne => hnot (Or.inl hne)
  exact List.Pairwise.forall_of_forall_of_flip (fun a _ hne => absurd rfl hne) hpw
    (hpw.imp fun hnot hne ht => hnot hne.symm ht.symm) ha hb hab

/-- The deparser repeats a row with a header emitted if the headers of the row so far, and this
one, are extracted on one accepting path. -/
theorem extends_of_pruningSound {F : Type} {r : XoredHeaders}
    (hr : P.createXoredHeaderSets = some r) (hsound : P.PruningSound)
    {D : Deparser.DeparserInput String F} (hsets : D.xoredHeaderSets = r.xoredHeaderSets)
    (hparsed : D.parsedHeaders = some r.parsedHeaders)
    {path : List S} (hpath : P.AcceptingPath path) {keys : List (String × Bool)} {h : String}
    (hnd : (Deparser.validHdrs (keys ++ [(h, true)])).Nodup)
    (hkeys : ∀ n ∈ Deparser.validHdrs (keys ++ [(h, true)]),
      ∃ a ∈ path.flatMap P.extracts, a.instanceName = some n) : D.extends h keys = true := by
  obtain ⟨r', hr', hpaths⟩ := hsound
  cases hr.symm.trans hr'
  obtain ⟨hpw, hall⟩ := hpaths path hpath
  unfold Deparser.DeparserInput.extends
  rw [Bool.and_eq_true, Bool.not_eq_true']
  refine ⟨?_, ?_⟩
  · unfold Deparser.DeparserInput.emitsXORedHdrs
    rw [hsets, List.any_eq_false]
    intro X hX
    rw [decide_eq_true_eq, Nat.not_lt]
    generalize Deparser.validHdrs (keys ++ [(h, true)]) = valid at hnd hkeys
    -- two valid headers of the set would be two headers of the path
    by_contra hlt
    rw [Nat.not_le] at hlt
    obtain ⟨m, n, rest, heq⟩ : ∃ m n rest,
        (valid.filter fun hdr => X.contains hdr) = m :: n :: rest := by
      match hf : valid.filter fun hdr => X.contains hdr with
      | [] => rw [hf] at hlt; exact absurd hlt (Nat.not_lt_zero 1)
      | [_] => rw [hf] at hlt; exact absurd hlt (Nat.lt_irrefl 1)
      | m :: n :: rest => exact ⟨m, n, rest, rfl⟩
    have hnd' := heq ▸ hnd.filter fun hdr => X.contains hdr
    have hm : m ∈ valid.filter fun hdr => X.contains hdr := heq ▸ List.mem_cons_self
    have hn : n ∈ valid.filter fun hdr => X.contains hdr :=
      heq ▸ List.mem_cons_of_mem _ List.mem_cons_self
    obtain ⟨hmv, hmX⟩ := List.mem_filter.mp hm
    obtain ⟨hnv, hnX⟩ := List.mem_filter.mp hn
    obtain ⟨a, ha, ham⟩ := hkeys m hmv
    obtain ⟨b, hb, hbn⟩ := hkeys n hnv
    have hab : a ≠ b := by
      rintro rfl
      cases ham.symm.trans hbn
      exact (List.nodup_cons.mp hnd').1 List.mem_cons_self
    exact not_together_of_ne hpw ha hb hab
      ⟨m, n, ham, hbn, X, hX, List.contains_iff_mem.mp hmX, List.contains_iff_mem.mp hnX⟩
  · unfold Deparser.DeparserInput.isParsableHeader
    rw [hparsed]
    obtain ⟨a, ha, han⟩ := hkeys h (by simp)
    obtain ⟨n, hn, hmem⟩ := hall a ha
    cases han.symm.trans hn
    exact List.contains_iff_mem.mpr hmem

end Parser

/-! ## A state with two headers -/

/-- The states of a parser that takes two headers at once. -/
inductive TwoAtOnce where
  | start
  | accept
  deriving DecidableEq

/-- `ex.extract(pkt, hdrs.eth); ex.extract(pkt, hdrs.vlan); transition accept;`. -/
def ethVlan : Parser TwoAtOnce where
  states := [.start, .accept]
  transitions
    | .start => [.accept]
    | .accept => []
  extracts
    | .start => [.member (.path "hdrs") "eth", .member (.path "hdrs") "vlan"]
    | .accept => []
  start := .start
  accept := .accept
  start_ne_accept := by decide
  loopFree := by
    refine not_transGen_self_of_lt (f := fun s => if s = .start then 0 else 1) ?_
    rintro a b ⟨-, hb⟩
    cases a with
    | start =>
        obtain rfl := List.mem_singleton.mp hb
        decide
    | accept => exact absurd hb List.not_mem_nil

theorem createXoredHeaderSets_ethVlan : ethVlan.createXoredHeaderSets
    = some ⟨[["vlan", "eth"], []], ["vlan", "eth"]⟩ := by
  decide

theorem not_pruningSound_ethVlan : ¬ ethVlan.PruningSound := by
  rintro ⟨r, hr, hsound⟩
  cases createXoredHeaderSets_ethVlan.symm.trans hr
  have hpath : ethVlan.AcceptingPath [.start, .accept] :=
    ⟨rfl, rfl, List.isChain_cons_cons.mpr
      ⟨show _ ∈ _ from by decide, List.IsChain.singleton _⟩⟩
  have hpw := (hsound _ hpath).1
  have hdiff := (List.pairwise_cons.mp hpw).1 (.member (.path "hdrs") "vlan") (by decide)
  refine hdiff (Or.inl (by decide)) ⟨"eth", "vlan", rfl, rfl, ["vlan", "eth"], ?_⟩
  decide

end Pruning
end MicroP4
