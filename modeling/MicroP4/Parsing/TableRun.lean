import MicroP4.Parsing.TableSearch

/-!
# What the converted parser calls

After all instances are visited the table selects the first stop of the trial of the cases
(`Parser.convert_called`).  A parser without a `select` that starts at offset 0 has no keys and
calls the actions of all its instances (`Parser.convert_called_of_no_select`).
-/

namespace MicroP4
namespace Parsing

open BitString Assignments

variable {S H F X : Type}

namespace Parser

variable (P : Parser S H F X) [DecidableEq S]

/-- Every `select` has one expression, and a case. -/
def Plain : Prop :=
  ∀ p s es cases, P.targetOf p = some (.state s) → P.transition s = .select es cases →
    (∃ e, es = [e]) ∧ cases ≠ []

/-! ## The start of the visit -/

omit [DecidableEq S] in
theorem rank_lt_start {i : ℕ} : ∀ {p : List ℕ} {s : S}, P.targetOf (i :: p) = some (.state s) →
    P.rank s < P.rank P.start := by
  intro p
  induction p generalizing i with
  | nil => exact fun h => P.rank_lt _ _ (mem_targets (p := []) rfl h)
  | cons j p ih =>
      intro s h
      obtain ⟨s', hs', -⟩ := ParserDecl.targetOf_cons h
      exact Nat.lt_trans (P.rank_lt _ _ (mem_targets hs' h)) (ih hs')

/-- The start state has one instance. -/
theorem evaluatedInstances_start : P.evaluatedInstances P.start = [[]] := by
  rw [evaluatedInstances, instances, List.filter_cons_of_pos (by simp [ParserDecl.targetOf]),
    List.filter_eq_nil_iff.mpr]
  intro p hp
  obtain ⟨r, i, rfl⟩ := P.exists_of_mem_created hp
  intro h
  rw [decide_eq_true_iff] at h
  have hlt : P.rank P.start < P.rank P.start := by
    cases r with
    | nil => exact P.rank_lt_start h
    | cons j r => exact P.rank_lt_start h
  exact Nat.lt_irrefl _ hlt

section Run

variable [DecidableEq H] [DecidableEq F] [DecidableEq X]

variable {initialOffsets : List ℕ} {root : List ℕ} (st : ℕ → Word) (σ : Store H F X)

omit [DecidableEq F] [DecidableEq X] in
theorem declared_initTables : P.Declared [] (P.initTables initialOffsets).decls :=
  ⟨fun _ _ _ _ => rfl, fun _ => rfl, fun _ _ _ _ _ => rfl⟩

omit [DecidableEq H] [DecidableEq F] [DecidableEq X] in
/-- The entries in front of the visit. -/
theorem entryListPerOffset_initTables {o : ℕ} (ho : o ∈ initialOffsets) :
    (P.initTables initialOffsets).entryListPerOffset o =
      if initialOffsets = [0] then [] else [⟨[.constant (.num o)], .inst o []⟩] := by
  have hname : P.getActionName [] o = .inst o [] := getActionName_state (s := P.start) rfl o
  by_cases hzero : initialOffsets = [0]
  · simp [initTables, hzero]
  · simp [initTables, hzero, ho, P.sorted_head, evaluatedInstances_start, hname]

/-- The invariant holds in front of the visit. -/
theorem tabled_initTables (hroot : P.IsRoot initialOffsets root) {o : ℕ}
    (ho : o ∈ initialOffsets) :
    ∃ entries, P.Tabled initialOffsets root st σ [] (P.initTables initialOffsets) o entries := by
  by_cases hzero : initialOffsets = [0]
  · refine ⟨[⟨[], .inst o root⟩], ?_, ?_, ?_, ?_⟩
    · simp [initTables, hzero]
    · simp [initTables, hzero]
    · have hvals : keyValues st σ (P.initTables initialOffsets).keyElementList = [] := by
        simp [initTables, hzero, keyValues]
      rw [hvals, if_pos (Or.inl hzero)]
      rfl
    · exact fun q s _ _ hq => ⟨_, List.mem_singleton_self _, root, rfl, hq⟩
  · obtain rfl := hroot.nil hzero
    have hentries := (P.entryListPerOffset_initTables ho).trans (if_neg hzero)
    refine ⟨_, Or.inl ⟨hentries, ?_⟩, ?_, ?_, ?_⟩
    · simp [initTables, hzero]
    · simp [initTables, hzero]
    · have hvals : keyValues st σ (P.initTables initialOffsets).keyElementList =
          [σ .currOffset] := by
        simp [initTables, hzero, keyValues, Rhs.toExpr, Expr.loc]
      rw [hvals, MatchTable.hits_cons, MatchTable.hits_nil]
      by_cases hσ : σ .currOffset = .num o <;>
        simp [hzero, hσ, expandAll, MatchTable.matchKeys, Keyset.containsValue, Keyset.contains]
    · exact fun q s _ _ _ => ⟨_, List.mem_singleton_self _, [], rfl, List.nil_suffix⟩

/-! ## The end of the visit -/

theorem not_mem_flatMap_pairs {done : List (List ℕ)} {p : List ℕ} (hp : p ∉ done) (o : ℕ) :
    (p, o) ∉ done.flatMap fun q => initialOffsets.map fun o => (q, o) := by
  intro h
  obtain ⟨q, hq, h⟩ := List.mem_flatMap.mp h
  obtain ⟨o', -, heq⟩ := List.mem_map.mp h
  cases heq
  exact hp hq

theorem mem_flatMap_pairs {done : List (List ℕ)} {p : List ℕ} (hp : p ∈ done) {o : ℕ}
    (ho : o ∈ initialOffsets) : (p, o) ∈ done.flatMap fun q => initialOffsets.map fun o => (q, o) :=
  List.mem_flatMap.mpr ⟨p, hp, List.mem_map.mpr ⟨o, ho, rfl⟩⟩

theorem flatMap_pairs_concat (done : List (List ℕ)) (p : List ℕ) :
    ((done ++ [p]).flatMap fun q => initialOffsets.map fun o => (q, o)) =
      (done.flatMap fun q => initialOffsets.map fun o => (q, o)) ++
        initialOffsets.map fun o => (p, o) := by
  rw [List.flatMap_append, List.flatMap_singleton]

omit [DecidableEq S] in
/-- For one offset there is one column. -/
theorem columns_eq_nil {a b : List ℕ} {o : ℕ} (hab : initialOffsets = a ++ o :: b) {p : List ℕ}
    {e : SelectExpr H F X} {l₁ l₂ : List (KeyElement H F X)} {f : ℕ → KeyElement H F X}
    (hl : if (substituted (P.asgnsOf p o) e).isSome then l₁ = a.map f ∧ l₂ = b.map f
      else l₁ = [] ∧ l₂ = []) (hzero : initialOffsets = [0]) : l₁ = [] ∧ l₂ = [] := by
  have hlen := congrArg List.length (hab.symm.trans hzero)
  rw [List.length_append, List.length_cons, List.length_singleton] at hlen
  obtain rfl : a = [] := List.length_eq_zero_iff.mp (by omega)
  obtain rfl : b = [] := List.length_eq_zero_iff.mp (by omega)
  split at hl <;> exact hl

/-- The conversion succeeds, and at the end the entries of each offset are what the invariant
says. -/
theorem exists_tabled (hnodup : initialOffsets.Nodup) (hne : initialOffsets ≠ [])
    (hplain : P.Plain) (hroot : P.IsRoot initialOffsets root) :
    ∃ t, P.sorted.foldlM (P.stateIterator initialOffsets) (P.initTables initialOffsets) = some t ∧
      ∀ o ∈ initialOffsets, ∃ entries,
        P.Tabled initialOffsets root st σ P.order t o entries := by
  have hstep : ∀ done p rest s t, P.order = done ++ p :: rest → P.targetOf p = some (.state s) →
      (P.Declared (done.flatMap fun q => initialOffsets.map fun o => (q, o)) t.decls ∧
        ∀ o ∈ initialOffsets, ∃ entries, P.Tabled initialOffsets root st σ done t o entries) →
      ∃ t', P.visitInstance initialOffsets s t p = some t' ∧
        P.Declared ((done ++ [p]).flatMap fun q => initialOffsets.map fun o => (q, o)) t'.decls ∧
        ∀ o ∈ initialOffsets, ∃ entries,
          P.Tabled initialOffsets root st σ (done ++ [p]) t' o entries := by
    rintro done p rest s t horder hp ⟨hd, htabled⟩
    have hnot : ∀ o ∈ initialOffsets,
        (p, o) ∉ done.flatMap fun q => initialOffsets.map fun o => (q, o) := fun o _ =>
      not_mem_flatMap_pairs (P.not_mem_of_order_eq horder) o
    have hpred : ∀ o ∈ initialOffsets, ∀ i q, p = i :: q →
        (q, o) ∈ done.flatMap fun q => initialOffsets.map fun o => (q, o) := fun o ho i q hq =>
      mem_flatMap_pairs (P.mem_of_order_eq horder hq) ho
    rw [flatMap_pairs_concat]
    cases htrans : P.transition s with
    | goto g =>
        obtain ⟨t', hvisit, hdeclared, -, hkeys, hentries⟩ :=
          P.visitInstance_goto hnodup hp hd hnot hpred htrans
        refine ⟨t', hvisit, hdeclared, fun o ho => ?_⟩
        obtain ⟨entries, h⟩ := htabled o ho
        exact ⟨entries, h.goto hroot hp htrans hkeys (hentries o ho)⟩
    | select es cases =>
        obtain ⟨⟨e, rfl⟩, hcases⟩ := hplain p s es cases hp htrans
        obtain ⟨t', hvisit, hdeclared, -, hcols⟩ :=
          P.visitInstance_select hnodup hp hd hnot hpred htrans hcases hne
        refine ⟨t', hvisit, hdeclared, fun o ho => ?_⟩
        obtain ⟨entries, h⟩ := htabled o ho
        obtain ⟨a, b, hab⟩ := List.append_of_mem ho
        obtain ⟨l₁, l₂, hl, hkeys, hentries⟩ := hcols a o b hab
        exact ⟨_, h.select horder hroot hp htrans (P.columns_eq_nil hab hl) hkeys hentries⟩
  obtain ⟨t, ht, -, htabled⟩ := P.foldlM_order (fun done t =>
    P.Declared (done.flatMap fun q => initialOffsets.map fun o => (q, o)) t.decls ∧
      ∀ o ∈ initialOffsets, ∃ entries, P.Tabled initialOffsets root st σ done t o entries) hstep
    ⟨P.declared_initTables, fun o ho => P.tabled_initTables st σ hroot ho⟩
  exact ⟨t, ht, htabled⟩

theorem flatMap_eq_of_mem {α β : Type} {f : α → List β} {a : α} {l : List α} (hl : l.Nodup)
    (ha : a ∈ l) (h : ∀ b ∈ l, b ≠ a → f b = []) : l.flatMap f = f a := by
  obtain ⟨l₁, l₂, rfl⟩ := List.append_of_mem ha
  have hmiddle := List.nodup_middle.mp hl
  have hnil : ∀ l' : List α, (∀ b ∈ l', b ∈ l₁ ++ a :: l₂ ∧ b ≠ a) → l'.flatMap f = [] :=
    fun l' hl' => List.flatMap_eq_nil_iff.mpr fun b hb => h b (hl' b hb).1 (hl' b hb).2
  have ha' := List.mem_append.not.mp (List.nodup_cons.mp hmiddle).1
  rw [List.flatMap_append, List.flatMap_cons, hnil l₁ fun b hb => ⟨List.mem_append_left _ hb,
      fun heq => ha' (Or.inl (heq ▸ hb))⟩, hnil l₂ fun b hb => ⟨List.mem_append_right _
        (List.mem_cons_of_mem a hb), fun heq => ha' (Or.inr (heq ▸ hb))⟩,
    List.nil_append, List.append_nil]

/-- **What the table calls** is the first stop of the trial of the cases, with the values of
the keys. -/
theorem convert_called (hnodup : initialOffsets.Nodup) (hplain : P.Plain)
    (hroot : P.IsRoot initialOffsets root) {s₀ : S} (hs₀ : P.targetOf root = some (.state s₀))
    {o : ℕ} (ho : o ∈ initialOffsets) (hσ : initialOffsets ≠ [0] → σ .currOffset = .num o)
    {fuel : ℕ} (hfuel : P.rank s₀ + 1 < fuel) :
    ∃ c, P.convert initialOffsets = some c ∧
      c.called st σ = (P.stops (P.keyValue st σ o) o fuel root).head?.toList := by
  obtain ⟨t, ht, htabled⟩ := P.exists_tabled st σ hnodup (List.ne_nil_of_mem ho) hplain hroot
  refine ⟨_, by rw [convert, ht]; rfl, ?_⟩
  have hmem : root ∈ P.order := P.mem_order.mpr ⟨s₀, hs₀⟩
  have hreal : ∀ o' ∈ initialOffsets, t.keyElementList ≠ [] ∧
      MatchTable.hits Keyset.containsValue (keyValues st σ t.keyElementList)
        (t.entryListPerOffset o') = P.expandAll (P.keyValue st σ o') o' P.order
          (if initialOffsets = [0] ∨ σ .currOffset = .num o' then [.inst o' root] else []) := by
    intro o' ho'
    obtain ⟨entries, h⟩ := htabled o' ho'
    rcases h.entries_eq with ⟨heq, hne⟩ | ⟨-, -, -, -, hnot⟩
    · exact ⟨hne, by rw [heq, h.hits]⟩
    · exact absurd hmem hnot
  have hother : ∀ o' ∈ initialOffsets, o' ≠ o →
      MatchTable.hits Keyset.containsValue (keyValues st σ t.keyElementList)
        (t.entryListPerOffset o') = [] := by
    intro o' ho' hne
    rw [(hreal o' ho').2, if_neg]
    · rw [expandAll_eq_flatMap]
      rfl
    · rintro (hzero | hcurr)
      · rw [hzero, List.mem_singleton] at ho ho'
        exact hne (ho'.trans ho.symm)
      · by_cases hzero : initialOffsets = [0]
        · rw [hzero, List.mem_singleton] at ho ho'
          exact hne (ho'.trans ho.symm)
        · rw [hσ hzero] at hcurr
          cases hcurr
          exact hne rfl
  have hsort : ∀ o', o' ∈ initialOffsets.toFinset.sort (· ≤ ·) ↔ o' ∈ initialOffsets := by
    simp
  rw [Control.called, if_neg fun h => (hreal o ho).1 (List.length_eq_zero_iff.mp h),
    MatchTable.lookup_eq_head?, MatchTable.hits_flatMap, flatMap_eq_of_mem
      (Finset.sort_nodup _ _) ((hsort o).mpr ho)
      fun o' ho' hne => hother o' ((hsort o').mp ho') hne,
    (hreal o ho).2, if_pos,
    P.expandAll_inst _ o hs₀ hfuel (List.nil_append _).symm List.not_mem_nil]
  exact or_iff_not_imp_left.mpr hσ

/-! ## No keys -/

/-- Without a `select`, at offset 0, the actions of all instances are called. -/
theorem convert_called_of_no_select
    (hgoto : ∀ p s, P.targetOf p = some (.state s) → ∃ g, P.transition s = .goto g) :
    ∃ c, P.convert [0] = some c ∧ c.called st σ = P.order.map (.inst 0) := by
  have hstep : ∀ done p rest s t, P.order = done ++ p :: rest → P.targetOf p = some (.state s) →
      (P.Declared (done.flatMap fun q => [0].map fun o => (q, o)) t.decls ∧
        t.keyElementList = [] ∧
        t.decls.actionDecls.map Prod.fst = [.init, .reject] ++ done.map (.inst 0)) →
      ∃ t', P.visitInstance [0] s t p = some t' ∧
        P.Declared ((done ++ [p]).flatMap fun q => [0].map fun o => (q, o)) t'.decls ∧
        t'.keyElementList = [] ∧
        t'.decls.actionDecls.map Prod.fst = [.init, .reject] ++ (done ++ [p]).map (.inst 0) := by
    rintro done p rest s t horder hp ⟨hd, hkeys, hnames⟩
    obtain ⟨g, hg⟩ := hgoto p s hp
    have hnot : (p, 0) ∉ done.flatMap fun q => [0].map fun o => (q, o) :=
      not_mem_flatMap_pairs (P.not_mem_of_order_eq horder) 0
    obtain ⟨t', hvisit, hdeclared, hdecls, hkeys', -⟩ :=
      P.visitInstance_goto (List.nodup_singleton 0) hp hd
        (fun o ho => List.mem_singleton.mp ho ▸ hnot)
        (fun o ho i q hq => mem_flatMap_pairs (P.mem_of_order_eq horder hq) ho) hg
    refine ⟨t', hvisit, by rw [flatMap_pairs_concat]; exact hdeclared, by rw [hkeys', hkeys], ?_⟩
    have hlookup : lookup t.decls.actionDecls (.inst 0 p) = none := by
      rw [hd.actionDecls p s hp, if_neg hnot]
    rw [hdecls, List.foldl_cons, List.foldl_nil, ParserDecl.declareAction, getActionName_state hp,
      hlookup, if_neg (by simp), List.map_append, hnames, List.append_assoc, List.map_append]
    rfl
  obtain ⟨t, ht, -, hkeys, hnames⟩ := P.foldlM_order (fun done t =>
    P.Declared (done.flatMap fun q => [0].map fun o => (q, o)) t.decls ∧ t.keyElementList = [] ∧
      t.decls.actionDecls.map Prod.fst = [.init, .reject] ++ done.map (.inst 0)) hstep
    ⟨P.declared_initTables , if_pos rfl, rfl⟩
  refine ⟨_, by rw [convert, ht]; rfl, ?_⟩
  rw [Control.called, if_pos (by simp [hkeys]), hnames]
  simp [List.filter_map, Function.comp_def]

end Run

end Parser

end Parsing
end MicroP4
