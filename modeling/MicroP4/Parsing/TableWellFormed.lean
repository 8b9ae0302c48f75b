import MicroP4.Parsing.SelectionCorrect
import MicroP4.Parsing.TableColumns

/-!
# When the generated table is well formed

The conversion succeeds and gives a well-formed table if every `select` passes the check and the
entry of every leaf has an allowed keyset under every key, and only then
(`Parser.wellFormed_iff`).  With a `default` case in every `select`, as the front end leaves them,
all keys but the one of the offset are ternary, and what remains is that no `select` has several
expressions.
-/

namespace MicroP4
namespace Parsing

open BitString Assignments

variable {S H F X : Type}

/-- A well-formed table: its entries have a keyset for every key, don't-cares and masks only
where they are allowed, and an action that is declared and listed. -/
structure Control.WellFormed (c : Control H F X) : Prop where
  keysets : ∀ x ∈ c.entries, x.keys.length = c.keyElementList.length
  ternary : ∀ x ∈ c.entries, ColumnsFit x.keys c.keyElementList
  declared : ∀ x ∈ c.entries, x.action ∈ c.actionDecls.map Prod.fst
  listed : ∀ x ∈ c.entries, x.action ∈ c.actionList

theorem Control.wellFormed_of_nil {c : Control H F X} (h : c.entries = []) : c.WellFormed := by
  have hnone : ∀ x, x ∉ c.entries := fun x hx => List.not_mem_nil (h ▸ hx)
  exact ⟨fun x hx => absurd hx (hnone x), fun x hx => absurd hx (hnone x),
    fun x hx => absurd hx (hnone x), fun x hx => absurd hx (hnone x)⟩

namespace Parser

variable (P : Parser S H F X) [DecidableEq S] [DecidableEq H] [DecidableEq F] [DecidableEq X]

omit [DecidableEq S] [DecidableEq H] [DecidableEq F] [DecidableEq X] in
/-- Every `select` has an expression and a case; the front end adds a `default` case where there
is none. -/
def SelectsNonempty : Prop :=
  ∀ p s es cases, P.targetOf p = some (.state s) → P.transition s = .select es cases →
    es ≠ [] ∧ cases ≠ []

/-! ## The entries of an offset -/

/-- The entries of an offset after the visit of `done`: one for every path.  In front of the
visit of the root the list may be empty, and stands for an entry without keys that is bound to
the root. -/
structure Formed (initialOffsets root : List ℕ) (done : List (List ℕ)) (t : Tables H F X) (o : ℕ)
    (entries : List Entry) : Prop where
  front : initialOffsets = [0] ∧ root ∉ done → t.keyElementList = [] ∧
    t.entryListPerOffset o = [] ∧ entries = [⟨[], .inst o root⟩]
  behind : ¬ (initialOffsets = [0] ∧ root ∉ done) → t.keyElementList ≠ [] ∧
    t.entryListPerOffset o = entries
  sound : ∀ x ∈ entries, ∃ leaf, P.Frontier root done leaf ∧
    P.Represents initialOffsets root done t.keyElementList o x leaf
  complete : ∀ leaf, P.Frontier root done leaf → ∃ x ∈ entries,
    P.Represents initialOffsets root done t.keyElementList o x leaf

variable {P} {initialOffsets root : List ℕ} {done rest : List (List ℕ)} {t t' : Tables H F X}
  {p : List ℕ} {s : S} {o : ℕ} {entries : List Entry} {es : List (SelectExpr H F X)}
  {cases : List (Keyset × Target S)}

omit [DecidableEq H] [DecidableEq F] [DecidableEq X] in
theorem Formed.empty (h : P.Formed initialOffsets root done t o entries) :
    t.keyElementList = [] ↔ initialOffsets = [0] ∧ root ∉ done := by
  constructor
  · intro hnil
    by_contra hnot
    exact (h.behind hnot).1 hnil
  · exact fun hfront => (h.front hfront).1

omit [DecidableEq H] [DecidableEq F] [DecidableEq X] in
/-- A visit that changes nothing. -/
theorem Formed.goto (h : P.Formed initialOffsets root done t o entries)
    (hroot : P.IsRoot initialOffsets root) (hp : P.targetOf p = some (.state s)) {g : Target S}
    (hg : P.transition s = .goto g) (hkeys : t'.keyElementList = t.keyElementList)
    (hentries : t'.entryListPerOffset o = t.entryListPerOffset o) :
    P.Formed initialOffsets root (done ++ [p]) t' o entries := by
  -- the root has a `select`
  have hfront : initialOffsets = [0] ∧ root ∉ done ++ [p] ↔ initialOffsets = [0] ∧ root ∉ done := by
    refine and_congr_right fun hzero => ?_
    rw [List.mem_append, not_or, List.mem_singleton]
    refine and_iff_left_of_imp fun _ heq => ?_
    obtain ⟨s₀, hs₀, hsel⟩ := hroot.select hzero
    rw [heq, hp] at hs₀
    cases hs₀
    rw [hg] at hsel
    cases hsel
  refine ⟨?_, ?_, fun x hx => ?_, fun leaf hleaf => ?_⟩
  · rw [hfront, hkeys, hentries]
    exact h.front
  · rw [hfront, hkeys, hentries]
    exact h.behind
  · obtain ⟨leaf, hleaf, hx⟩ := h.sound x hx
    refine ⟨leaf, (frontier_concat_goto hp hg leaf).mpr hleaf, ?_⟩
    rw [hkeys]
    exact hx.goto hp hg
  · obtain ⟨x, hx, hrep⟩ := h.complete leaf ((frontier_concat_goto hp hg leaf).mp hleaf)
    refine ⟨x, hx, ?_⟩
    rw [hkeys]
    exact hrep.goto hp hg

omit [DecidableEq S] [DecidableEq H] [DecidableEq F] [DecidableEq X] in
/-- An instance that is not visited is on the way from one that has an entry. -/
theorem exists_frontier {q : List ℕ} : ∀ {s : S}, P.targetOf q = some (.state s) → root <:+ q →
    (∃ leaf, leaf <:+ q ∧ P.Frontier root done leaf) ∨ (q ∈ done ∧
      (P.transition s).hasSelectExpression = true ∧ P.LeavesByCases root q ∧
      ∀ r, root <:+ r → r <:+ q → r ≠ q → r ∈ done) := by
  have hlast : ∀ {q : List ℕ} {s : S}, P.targetOf q = some (.state s) → root <:+ q →
      P.LeavesByCases root q → (∀ r, root <:+ r → r <:+ q → r ≠ q → r ∈ done) →
      (∃ leaf, leaf <:+ q ∧ P.Frontier root done leaf) ∨ (q ∈ done ∧
        (P.transition s).hasSelectExpression = true ∧ P.LeavesByCases root q ∧
        ∀ r, root <:+ r → r <:+ q → r ≠ q → r ∈ done) := by
    intro q s hq hroot hby hvisited
    by_cases hend : q ∈ done ∧ (P.transition s).hasSelectExpression = true
    · exact Or.inr ⟨hend.1, hend.2, hby, hvisited⟩
    · refine Or.inl ⟨q, List.suffix_rfl, hroot, hby, hvisited, ⟨_, hq, nofun⟩,
        fun hmem s' hs' => ?_⟩
      rw [hq] at hs'
      cases hs'
      rw [not_and, Bool.not_eq_true] at hend
      exact hend hmem
  induction q with
  | nil =>
      intro s hq hroot
      refine hlast hq hroot (fun r _ hr hne => ?_) fun r _ hr hne => ?_
      · exact absurd (List.suffix_nil.mp hr) hne
      · exact absurd (List.suffix_nil.mp hr) hne
  | cons i q ih =>
      intro s hq hroot
      rcases List.suffix_cons_iff.mp hroot with rfl | hroot'
      · have hend : ∀ r, i :: q <:+ r → r <:+ i :: q → r = i :: q := fun r h h' =>
          h'.eq_of_length (Nat.le_antisymm h'.length_le h.length_le)
        refine hlast hq hroot (fun r h h' hne => ?_) fun r h h' hne => ?_
        · exact absurd (hend r h h') hne
        · exact absurd (hend r h h') hne
      · obtain ⟨s', hs', -⟩ := ParserDecl.targetOf_cons hq
        rcases ih hs' hroot' with ⟨leaf, hleaf, h⟩ | ⟨hmem, hsel, hby, hvisited⟩
        · exact Or.inl ⟨leaf, hleaf.trans (List.suffix_cons i q), h⟩
        · refine hlast hq hroot (fun r h h' hne => ?_) fun r h h' hne => ?_
          · by_cases hr : r = q
            · exact ⟨s', hr ▸ hs', hsel⟩
            · exact hby r h ((List.suffix_cons_iff.mp h').resolve_left hne) hr
          · by_cases hr : r = q
            · exact hr ▸ hmem
            · exact hvisited r h ((List.suffix_cons_iff.mp h').resolve_left hne) hr

omit [DecidableEq H] [DecidableEq F] [DecidableEq X] in
theorem getActionName_eq_iff (hp : P.targetOf p = some (.state s)) {leaf : List ℕ} :
    P.getActionName leaf o = .inst o p ↔ leaf = p := by
  constructor
  · intro h
    unfold ParserDecl.getActionName at h
    split at h
    · cases h
    · exact (ActName.inst.inj h).2
  · rintro rfl
    exact getActionName_state hp o

omit [DecidableEq H] [DecidableEq F] [DecidableEq X] in
theorem mem_nextActions_iff (hp : P.targetOf p = some (.state s))
    (ht : P.transition s = .select es cases) {k : Keyset × ActName} :
    k ∈ P.nextActions p s o ↔ ∃ i c, cases[i]? = some c ∧ P.targetOf (i :: p) = some c.2 ∧
      c.2 ≠ .accept ∧ k = (c.1, P.getActionName (i :: p) o) := by
  have htarget : ∀ i c, cases[i]? = some c → P.targetOf (i :: p) = some c.2 := by
    intro i c hc
    rw [ParserDecl.targetOf, hp]
    show (P.transition s).targets[i]? = some c.2
    rw [ht, Transition.targets, List.getElem?_map, hc]
    rfl
  rw [nextActions, ht, Transition.nextParserStateInfo, List.mem_map]
  constructor
  · rintro ⟨n, hn, rfl⟩
    obtain ⟨hn, hacc⟩ := List.mem_filter.mp hn
    obtain ⟨⟨c, i⟩, hc, rfl⟩ := List.mem_map.mp hn
    have hc := List.mk_mem_zipIdx_iff_getElem?.mp hc
    rw [htarget i c hc, decide_eq_true_iff] at hacc
    exact ⟨i, c, hc, htarget i c hc, fun h => hacc (congrArg some h), rfl⟩
  · rintro ⟨i, c, hc, ht', hne, rfl⟩
    refine ⟨(c.1, i :: p), List.mem_filter.mpr ⟨?_, ?_⟩, rfl⟩
    · exact List.mem_map.mpr ⟨(c, i), List.mk_mem_zipIdx_iff_getElem?.mpr hc, rfl⟩
    · rw [ht', decide_eq_true_iff]
      exact fun h => hne (Option.some.inj h)

omit [DecidableEq H] [DecidableEq F] [DecidableEq X] in
/-- A visit that adds columns. -/
theorem Formed.select (h : P.Formed initialOffsets root done t o entries)
    (horder : P.order = done ++ p :: rest) (hroot : P.IsRoot initialOffsets root)
    (hp : P.targetOf p = some (.state s)) (ht : P.transition s = .select es cases)
    {m n : ℕ} {cols : List (KeyElement H F X)} (hcols : P.Columns initialOffsets p s es m n cols)
    (hkeys : t'.keyElementList = t.keyElementList ++ cols)
    (hentries : t'.entryListPerOffset o =
      if (t.entryListPerOffset o).length = 0 then
        (P.nextActions p s o).map fun k => ⟨[k.1], k.2⟩
      else (t.entryListPerOffset o).flatMap
        (rewriteEntry (.inst o p) (P.nextActions p s o) m n (m + (n + 1)))) :
    P.Formed initialOffsets root (done ++ [p]) t' o (entries.flatMap
      (rewriteEntry (.inst o p) (P.nextActions p s o) m n (m + (n + 1)))) := by
  have hsel : (P.transition s).hasSelectExpression = true := by rw [ht]; rfl
  have hbelow : root <:+ p := hroot.suffix hp hsel
  have hnot : p ∉ done := P.not_mem_of_order_eq horder
  have hrootmem : root ∈ done ++ [p] := by
    by_cases hne : root = p
    · exact List.mem_append_right _ (List.mem_singleton.mpr hne)
    · exact List.mem_append_left _ (P.mem_of_suffix horder hbelow hne)
  have hnext : ∀ leaf, P.Frontier root (done ++ [p]) leaf ↔ _ :=
    frontier_concat_select horder hp hsel
  refine ⟨fun hfront => absurd hrootmem hfront.2, fun _ => ⟨?_, ?_⟩, fun x' hx' => ?_,
    fun leaf hleaf => ?_⟩
  · rw [hkeys]
    refine List.append_ne_nil_of_right_ne_nil _ fun hnil => ?_
    have hle := hcols.le
    rw [hnil] at hle
    exact absurd hle (by simp)
  · rw [hentries]
    by_cases hfront : initialOffsets = [0] ∧ root ∉ done
    · -- this is the visit of the root
      obtain ⟨-, hnil, heq⟩ := h.front hfront
      obtain rfl : root = p := by
        by_contra hne
        exact hfront.2 (P.mem_of_suffix horder hbelow hne)
      have hlen : initialOffsets.length = 1 := by rw [hfront.1]; rfl
      obtain ⟨rfl, rfl⟩ := hcols.alone.mpr (Or.inl hlen)
      rw [hnil, heq]
      simp [rewriteEntry]
    · obtain ⟨-, heq⟩ := h.behind hfront
      obtain ⟨leaf, -, hleaf⟩ := (exists_frontier hp hbelow).resolve_right fun h => hnot h.1
      obtain ⟨x, hx, -⟩ := h.complete leaf hleaf
      rw [heq, if_neg]
      intro hlen
      rw [List.length_eq_zero_iff.mp hlen] at hx
      exact List.not_mem_nil hx
  · obtain ⟨x, hx, hx'⟩ := List.mem_flatMap.mp hx'
    obtain ⟨leaf, hleaf, hrep⟩ := h.sound x hx
    unfold rewriteEntry at hx'
    rw [hkeys]
    by_cases hend : leaf = p
    · rw [if_pos (hrep.action.trans ((getActionName_eq_iff hp).mpr hend))] at hx'
      obtain ⟨k, hk, rfl⟩ := List.mem_map.mp hx'
      obtain ⟨i, c, hc, htarget, hacc, rfl⟩ := (mem_nextActions_iff hp ht).mp hk
      rw [hend] at hleaf hrep
      exact ⟨i :: p, (hnext _).mpr (Or.inr ⟨i, c.2, rfl, hleaf, htarget, hacc⟩),
        hrep.case horder hroot hp ht h.empty hcols hc⟩
    · rw [if_neg fun hact => hend ((getActionName_eq_iff hp).mp (hrep.action.symm.trans hact)),
        List.mem_singleton] at hx'
      rw [hx']
      exact ⟨leaf, (hnext _).mpr (Or.inl ⟨hleaf, hend⟩), hrep.pad horder hroot hp ht hleaf hcols⟩
  · rw [hkeys]
    rcases (hnext leaf).mp hleaf with ⟨hleaf, hend⟩ | ⟨i, t₁, rfl, hleaf, htarget, hacc⟩
    · obtain ⟨x, hx, hrep⟩ := h.complete leaf hleaf
      refine ⟨_, List.mem_flatMap.mpr ⟨x, hx, ?_⟩, hrep.pad horder hroot hp ht hleaf hcols⟩
      rw [rewriteEntry, if_neg fun hact =>
        hend ((getActionName_eq_iff hp).mp (hrep.action.symm.trans hact))]
      exact List.mem_singleton_self _
    · obtain ⟨x, hx, hrep⟩ := h.complete p hleaf
      obtain ⟨s₁, hs₁, hget⟩ := ParserDecl.targetOf_cons htarget
      rw [hp] at hs₁
      cases hs₁
      rw [ht, Transition.targets, List.getElem?_map, Option.map_eq_some_iff] at hget
      obtain ⟨c, hc, rfl⟩ := hget
      refine ⟨_, List.mem_flatMap.mpr ⟨x, hx, ?_⟩,
        hrep.case horder hroot hp ht h.empty hcols hc⟩
      rw [rewriteEntry, if_pos (hrep.action.trans ((getActionName_eq_iff hp).mpr rfl))]
      exact List.mem_map.mpr ⟨(c.1, P.getActionName (i :: p) o),
        (mem_nextActions_iff hp ht).mpr ⟨i, c, hc, htarget, hacc, rfl⟩, rfl⟩

/-! ## In front of the visit -/

omit [DecidableEq S] [DecidableEq H] [DecidableEq F] [DecidableEq X] in
theorem frontier_nil_iff (hroot : P.targetOf root = some (.state s)) {leaf : List ℕ} :
    P.Frontier root [] leaf ↔ leaf = root := by
  constructor
  · intro h
    by_contra hne
    exact List.not_mem_nil (h.visited root List.suffix_rfl h.below (Ne.symm hne))
  · rintro rfl
    have hend : ∀ q, leaf <:+ q → q <:+ leaf → q = leaf := fun q h h' =>
      h'.eq_of_length (Nat.le_antisymm h'.length_le h.length_le)
    exact ⟨List.suffix_rfl, fun q h h' hne => absurd (hend q h h') hne,
      fun q h h' hne => absurd (hend q h h') hne, ⟨_, hroot, nofun⟩,
      fun hmem => absurd hmem List.not_mem_nil⟩

omit [DecidableEq H] [DecidableEq F] [DecidableEq X] in
theorem represents_nil {keys : List (KeyElement H F X)} {x : Entry}
    (hroot : P.targetOf root = some (.state s)) (hact : x.action = .inst o root)
    (hfit : KeysetsFit x.keys keys) : P.Represents initialOffsets root [] keys o x root :=
  ⟨hact.trans (getActionName_state hroot o).symm, Nat.le_of_eq hfit.1,
    iff_of_true hfit fun _ hq => absurd hq List.not_mem_nil⟩

omit [DecidableEq H] [DecidableEq F] [DecidableEq X] in
theorem formed_initTables (hroot : P.IsRoot initialOffsets root) (ho : o ∈ initialOffsets) :
    ∃ entries, P.Formed initialOffsets root [] (P.initTables initialOffsets) o entries := by
  by_cases hzero : initialOffsets = [0]
  · obtain ⟨s₀, hs₀, -⟩ := hroot.select hzero
    have hkeys : (P.initTables initialOffsets).keyElementList = [] := if_pos hzero
    have hrep : P.Represents initialOffsets root [] (P.initTables initialOffsets).keyElementList o
        ⟨[], .inst o root⟩ root := by
      rw [hkeys]
      exact represents_nil hs₀ rfl ⟨rfl, fun _ h => absurd h List.not_mem_nil⟩
    refine ⟨[⟨[], .inst o root⟩], fun _ =>
      ⟨hkeys, (P.entryListPerOffset_initTables ho).trans (if_pos hzero), rfl⟩,
      fun hnot => absurd ⟨hzero, List.not_mem_nil⟩ hnot, fun x hx => ?_, fun leaf hleaf => ?_⟩
    · rw [List.mem_singleton.mp hx]
      exact ⟨root, (frontier_nil_iff hs₀).mpr rfl, hrep⟩
    · rw [(frontier_nil_iff hs₀).mp hleaf]
      exact ⟨_, List.mem_singleton_self _, hrep⟩
  · obtain rfl := hroot.nil hzero
    have hs₀ : P.targetOf [] = some (.state P.start) := rfl
    have hkeys : (P.initTables initialOffsets).keyElementList =
        [⟨.expr (Expr.loc .currOffset), .exact⟩] := if_neg hzero
    have hentries := (P.entryListPerOffset_initTables ho).trans (if_neg hzero)
    have hrep : P.Represents initialOffsets [] [] (P.initTables initialOffsets).keyElementList o
        ⟨[.constant (.num o)], .inst o []⟩ [] := by
      rw [hkeys]
      refine represents_nil hs₀ rfl ⟨rfl, fun y hy hneeds => ?_⟩
      rw [List.mem_singleton.mp hy] at hneeds
      cases hneeds
    refine ⟨_, fun hfront => absurd hfront.1 hzero, fun _ => ⟨by rw [hkeys]; exact nofun, hentries⟩,
      fun x hx => ?_, fun leaf hleaf => ?_⟩
    · rw [List.mem_singleton.mp hx]
      exact ⟨[], (frontier_nil_iff hs₀).mpr rfl, hrep⟩
    · rw [(frontier_nil_iff hs₀).mp hleaf]
      exact ⟨_, List.mem_singleton_self _, hrep⟩

/-! ## Actions -/

/-- The actions of the visited instances are listed, and `reject` where an entry names it. -/
structure ActionsListed (initialOffsets : List ℕ) (done : List (List ℕ)) (t : Tables H F X) :
    Prop where
  insts : ∀ p ∈ done, ∀ o ∈ initialOffsets, ActName.inst o p ∈ t.actionList
  reject : ActName.reject ∈ t.decls.actionDecls.map Prod.fst
  entries : ∀ o ∈ initialOffsets, ∀ x ∈ t.entryListPerOffset o, x.action = .reject →
    ActName.reject ∈ t.actionList

omit [DecidableEq H] [DecidableEq F] [DecidableEq X] in
theorem actionsListed_initTables :
    ActionsListed initialOffsets [] (P.initTables initialOffsets) := by
  refine ⟨fun _ h => absurd h List.not_mem_nil, ?_, fun o ho x hx hact => ?_⟩
  · exact List.mem_cons_of_mem _ List.mem_cons_self
  · rw [P.entryListPerOffset_initTables ho] at hx
    split at hx
    · exact absurd hx List.not_mem_nil
    · rw [List.mem_singleton.mp hx] at hact
      cases hact

theorem names_foldl_synthesize {a : ActName} (l : List ℕ) (c : Decls H F X × NewKeys H F X)
    (ha : a ∈ c.1.actionDecls.map Prod.fst) :
    a ∈ (l.foldl (P.synthesize p s) c).1.actionDecls.map Prod.fst := by
  refine List.foldlRecOn l (P.synthesize p s) (motive := fun c => a ∈ c.1.actionDecls.map Prod.fst)
    ha fun c hc o _ => ?_
  unfold synthesize ParserDecl.declareAction
  split
  · exact hc
  · rename_i hnot
    rw [if_neg hnot, List.map_append]
    exact List.mem_append_left _ hc

/-- What is declared and listed stays so. -/
theorem names_of_visitInstance (h : P.visitInstance initialOffsets s t p = some t') :
    (∀ a ∈ t.decls.actionDecls.map Prod.fst, a ∈ t'.decls.actionDecls.map Prod.fst) ∧
      (∀ a ∈ t.actionList, a ∈ t'.actionList) ∧
      ∀ o ∈ initialOffsets, P.getActionName p o ∈ t'.actionList := by
  unfold visitInstance at h
  dsimp only at h
  split at h
  · cases h
    refine ⟨fun a ha => names_foldl_synthesize _ _ ha, fun a ha => ?_, fun o ho => ?_⟩
    · exact mem_foldl_addActions.mpr (Or.inl (mem_addActions.mpr (Or.inl ha)))
    · exact mem_foldl_addActions.mpr (Or.inl (mem_addActions.mpr (Or.inr (List.mem_map_of_mem ho))))
  · cases h

theorem ActionsListed.step (h : ActionsListed initialOffsets done t)
    (hp : P.targetOf p = some (.state s))
    (hvisit : P.visitInstance initialOffsets s t p = some t')
    (hentries : ∀ o ∈ initialOffsets, ∀ x ∈ t'.entryListPerOffset o, x.action = .reject →
      ActName.reject ∈ t'.actionList) : ActionsListed initialOffsets (done ++ [p]) t' := by
  obtain ⟨hnames, hlisted, hnew⟩ := names_of_visitInstance hvisit
  refine ⟨fun q hq o ho => ?_, hnames _ h.reject, hentries⟩
  rcases List.mem_append.mp hq with hq | hq
  · exact hlisted _ (h.insts q hq o ho)
  · rw [List.mem_singleton.mp hq, ← getActionName_state hp o]
    exact hnew o ho

/-! ## The visit -/

variable (P) in
/-- What holds after the visit of `done`. -/
structure VisitInv (initialOffsets : List ℕ) (done : List (List ℕ)) (t : Tables H F X) : Prop where
  decls : P.Declared (done.flatMap fun q => initialOffsets.map fun o => (q, o)) t.decls
  actions : ActionsListed initialOffsets done t
  formed : ∀ root, P.IsRoot initialOffsets root → ∀ o ∈ initialOffsets, ∃ entries,
    P.Formed initialOffsets root done t o entries

theorem VisitInv.goto (h : P.VisitInv initialOffsets done t) (hnodup : initialOffsets.Nodup)
    (horder : P.order = done ++ p :: rest) (hp : P.targetOf p = some (.state s)) {g : Target S}
    (hg : P.transition s = .goto g) :
    ∃ t', P.visitInstance initialOffsets s t p = some t' ∧
      P.VisitInv initialOffsets (done ++ [p]) t' := by
  obtain ⟨t', hvisit, hdeclared, -, hkeys, hentries⟩ := P.visitInstance_goto hnodup hp h.decls
    (fun o _ => not_mem_flatMap_pairs (P.not_mem_of_order_eq horder) o)
    (fun o ho i q hq => mem_flatMap_pairs (P.mem_of_order_eq horder hq) ho) hg
  refine ⟨t', hvisit, ⟨by rw [flatMap_pairs_concat]; exact hdeclared,
    h.actions.step hp hvisit fun o ho x hx hact => ?_, fun root hroot o ho => ?_⟩⟩
  · rw [hentries o ho] at hx
    exact (names_of_visitInstance hvisit).2.1 _ (h.actions.entries o ho x hx hact)
  · obtain ⟨entries, hformed⟩ := h.formed root hroot o ho
    exact ⟨entries, hformed.goto hroot hp hg hkeys (hentries o ho)⟩

theorem VisitInv.select (h : P.VisitInv initialOffsets done t) (hnodup : initialOffsets.Nodup)
    (hne : initialOffsets ≠ []) (horder : P.order = done ++ p :: rest)
    (hp : P.targetOf p = some (.state s)) (ht : P.transition s = .select es cases) (hes : es ≠ [])
    (hcases : cases ≠ []) (hcheck : P.ChecksAt initialOffsets.length p es) :
    ∃ t', P.visitInstance initialOffsets s t p = some t' ∧
      P.VisitInv initialOffsets (done ++ [p]) t' := by
  obtain ⟨t', cols, hvisit, hdeclared, hlisted, hkeys, hcols⟩ := visitInstance_columns hnodup hp
    h.decls (fun o _ => not_mem_flatMap_pairs (P.not_mem_of_order_eq horder) o)
    (fun o ho i q hq => mem_flatMap_pairs (P.mem_of_order_eq horder hq) ho) ht hes hcases hne hcheck
  refine ⟨t', hvisit, ⟨by rw [flatMap_pairs_concat]; exact hdeclared,
    h.actions.step hp hvisit fun o ho x' hx' hact => ?_, fun root hroot o ho => ?_⟩⟩
  · obtain ⟨m, n, -, hentries⟩ := hcols o ho
    rw [hentries] at hx'
    split at hx'
    · rename_i hnil
      obtain ⟨k, hk, rfl⟩ := List.mem_map.mp hx'
      exact hact ▸ hlisted o ho (Or.inl hnil) k hk
    · obtain ⟨x, hx, hx'⟩ := List.mem_flatMap.mp hx'
      unfold rewriteEntry at hx'
      split at hx'
      · rename_i hbound
        obtain ⟨k, hk, rfl⟩ := List.mem_map.mp hx'
        exact hact ▸ hlisted o ho (Or.inr ⟨x, hx, hbound⟩) k hk
      · rw [List.mem_singleton.mp hx'] at hact
        exact (names_of_visitInstance hvisit).2.1 _ (h.actions.entries o ho x hx hact)
  · obtain ⟨entries, hformed⟩ := h.formed root hroot o ho
    obtain ⟨m, n, hcolumns, hentries⟩ := hcols o ho
    exact ⟨_, hformed.select horder hroot hp ht hcolumns hkeys hentries⟩

variable (P) in
/-- Every `select` passes the check. -/
def Checks (initialOffsets : List ℕ) : Prop :=
  ∀ p s es cases, P.targetOf p = some (.state s) → P.transition s = .select es cases →
    P.ChecksAt initialOffsets.length p es

/-- The conversion succeeds if every `select` passes the check. -/
theorem exists_visitInv (hnodup : initialOffsets.Nodup) (hne : initialOffsets ≠ [])
    (hselects : P.SelectsNonempty) (hchecks : P.Checks initialOffsets) :
    ∃ t, P.sorted.foldlM (P.stateIterator initialOffsets) (P.initTables initialOffsets) = some t ∧
      P.VisitInv initialOffsets P.order t := by
  refine P.foldlM_order (P.VisitInv initialOffsets) (fun done p rest s t horder hp h => ?_)
    ⟨P.declared_initTables, actionsListed_initTables,
      fun root hroot o ho => formed_initTables hroot ho⟩
  cases ht : P.transition s with
  | goto g => exact h.goto hnodup horder hp ht
  | select es cases =>
      obtain ⟨hes, hcases⟩ := hselects p s es cases hp ht
      exact h.select hnodup hne horder hp ht hes hcases (hchecks p s es cases hp ht)

/-- And only then. -/
theorem checks_of_foldlM (hnodup : initialOffsets.Nodup) (hne : initialOffsets ≠ [])
    (hselects : P.SelectsNonempty)
    (h : P.sorted.foldlM (P.stateIterator initialOffsets) (P.initTables initialOffsets) = some t) :
    P.Checks initialOffsets := by
  have hinv := P.of_foldlM_order (fun done t => P.VisitInv initialOffsets done t ∧ ∀ p ∈ done,
    ∀ s es cases, P.targetOf p = some (.state s) → P.transition s = .select es cases →
      P.ChecksAt initialOffsets.length p es) (fun done p rest s t t' horder hp hinv hvisit => ?_)
    ⟨⟨P.declared_initTables, actionsListed_initTables,
      fun root hroot o ho => formed_initTables hroot ho⟩, fun _ h => absurd h List.not_mem_nil⟩ h
  · exact fun p s es cases hp ht => hinv.2 p (P.mem_order.mpr ⟨s, hp⟩) s es cases hp ht
  · obtain ⟨h, hdone⟩ := hinv
    rw [forall_mem_concat]
    cases ht : P.transition s with
    | goto g =>
        obtain ⟨t₁, hvisit₁, h₁⟩ := h.goto hnodup horder hp ht
        rw [hvisit] at hvisit₁
        cases hvisit₁
        refine ⟨h₁, hdone, fun s' es cases hp' ht' => ?_⟩
        rw [hp] at hp'
        cases hp'
        rw [ht] at ht'
        cases ht'
    | select es cases =>
        obtain ⟨hes, hcases⟩ := hselects p s es cases hp ht
        have hcheck := check_of_visitInstance hnodup hp h.decls
          (fun o _ => not_mem_flatMap_pairs (P.not_mem_of_order_eq horder) o)
          (fun o ho i q hq => mem_flatMap_pairs (P.mem_of_order_eq horder hq) ho) ht hes hne hvisit
        obtain ⟨t₁, hvisit₁, h₁⟩ := h.select hnodup hne horder hp ht hes hcases hcheck
        rw [hvisit] at hvisit₁
        cases hvisit₁
        refine ⟨h₁, hdone, fun s' es' cases' hp' ht' => ?_⟩
        rw [hp] at hp'
        cases hp'
        rw [ht] at ht'
        cases ht'
        exact hcheck

/-! ## The table -/

omit [DecidableEq H] [DecidableEq F] [DecidableEq X] in
/-- The paths that have an entry at the end are the leaves. -/
theorem frontier_order_iff {leaf : List ℕ} : P.Frontier root P.order leaf ↔ P.IsLeaf root leaf := by
  constructor
  · intro h
    obtain ⟨t, ht, hacc⟩ := h.target
    refine ⟨h.below, h.byCases, ?_⟩
    cases t with
    | accept => exact absurd rfl hacc
    | reject => exact Or.inl ht
    | state s =>
        have hsel := h.last (P.mem_order.mpr ⟨s, ht⟩) s ht
        cases hs : P.transition s with
        | goto g => exact Or.inr ⟨s, g, ht, hs⟩
        | select es cases =>
            rw [hs] at hsel
            cases hsel
  · intro h
    refine ⟨h.below, h.byCases, fun q hroot hq hne => ?_, ?_, fun _ s hs => ?_⟩
    · obtain ⟨s, hs, -⟩ := h.byCases q hroot hq hne
      exact P.mem_order.mpr ⟨s, hs⟩
    · rcases h.target with ht | ⟨s, -, ht, -⟩
      · exact ⟨_, ht, nofun⟩
      · exact ⟨_, ht, nofun⟩
    · rcases h.target with ht | ⟨s', g, ht, hg⟩
      · rw [ht] at hs
        cases hs
      · rw [ht] at hs
        cases hs
        rw [hg]
        rfl

omit [DecidableEq S] [DecidableEq H] [DecidableEq F] [DecidableEq X] in
theorem mem_map_fst_of_lookup {K V : Type} [DecidableEq K] {l : List (K × V)} {k : K} {v : V}
    (h : lookup l k = some v) : k ∈ l.map Prod.fst := by
  obtain ⟨e, he, -⟩ := Option.map_eq_some_iff.mp h
  have hkey := List.find?_some he
  obtain rfl : e.1 = k := of_decide_eq_true hkey
  exact List.mem_map_of_mem (List.mem_of_find?_eq_some he)

variable (P) in
/-- The keysets of all leaves are allowed. -/
def Fits (initialOffsets root : List ℕ) : Prop :=
  ∀ leaf, P.IsLeaf root leaf → ∀ p, P.FitsAt initialOffsets root leaf p

omit [DecidableEq H] [DecidableEq F] [DecidableEq X] in
theorem forall_order_fitsAt {leaf : List ℕ} : (∀ p ∈ P.order, P.FitsAt initialOffsets root leaf p) ↔
    ∀ p, P.FitsAt initialOffsets root leaf p := by
  constructor
  · intro h p s es cases hp
    exact h p (P.mem_order.mpr ⟨s, hp⟩) s es cases hp
  · exact fun h p _ => h p

/-- The table of a conversion that succeeds is well formed if the keysets of all leaves are
allowed, and only then. -/
theorem wellFormed_iff_fits {c : Control H F X} (hnodup : initialOffsets.Nodup)
    (hne : initialOffsets ≠ []) (hselects : P.SelectsNonempty) (hchecks : P.Checks initialOffsets)
    (hroot : P.IsRoot initialOffsets root) (hrootmem : root ∈ P.order)
    (hc : P.convert initialOffsets = some c) : c.WellFormed ↔ P.Fits initialOffsets root := by
  obtain ⟨t, ht, h⟩ := exists_visitInv hnodup hne hselects hchecks
  rw [convert, ht, Option.map_some, Option.some.injEq] at hc
  subst hc
  have hsort : ∀ o, o ∈ initialOffsets.toFinset.sort (· ≤ ·) ↔ o ∈ initialOffsets := by
    simp
  have hmem : ∀ x, x ∈ (initialOffsets.toFinset.sort (· ≤ ·)).flatMap t.entryListPerOffset ↔
      ∃ o ∈ initialOffsets, x ∈ t.entryListPerOffset o := by
    intro x
    rw [List.mem_flatMap]
    exact exists_congr fun o => and_congr_left' (hsort o)
  have hreal : ∀ o ∈ initialOffsets,
      P.Formed initialOffsets root P.order t o (t.entryListPerOffset o) := by
    intro o ho
    obtain ⟨entries, hformed⟩ := h.formed root hroot o ho
    rw [(hformed.behind fun hfront => hfront.2 hrootmem).2]
    exact hformed
  constructor
  · intro hwell leaf hleaf
    obtain ⟨o, ho⟩ := List.exists_mem_of_ne_nil _ hne
    obtain ⟨x, hx, hrep⟩ := (hreal o ho).complete leaf (frontier_order_iff.mpr hleaf)
    have hx' := (hmem x).mpr ⟨o, ho, hx⟩
    exact forall_order_fitsAt.mp (hrep.fit.mp ⟨hwell.keysets x hx', hwell.ternary x hx'⟩)
  · intro hfits
    have hfit : ∀ x, x ∈ (initialOffsets.toFinset.sort (· ≤ ·)).flatMap t.entryListPerOffset →
        KeysetsFit x.keys t.keyElementList ∧ x.action ∈ t.decls.actionDecls.map Prod.fst ∧
          x.action ∈ t.actionList := by
      intro x hx
      obtain ⟨o, ho, hx⟩ := (hmem x).mp hx
      obtain ⟨leaf, hleaf, hrep⟩ := (hreal o ho).sound x hx
      have hleaf := frontier_order_iff.mp hleaf
      refine ⟨hrep.fit.mpr (forall_order_fitsAt.mpr (hfits leaf hleaf)), ?_⟩
      rcases hleaf.target with htarget | ⟨s, -, htarget, -⟩
      · have hact : x.action = .reject := hrep.action.trans (if_pos htarget)
        rw [hact]
        exact ⟨h.actions.reject, h.actions.entries o ho x hx hact⟩
      · have hleafmem := P.mem_order.mpr ⟨s, htarget⟩
        rw [hrep.action, getActionName_state htarget]
        refine ⟨mem_map_fst_of_lookup ((h.decls.actionDecls leaf s htarget o).trans
          (if_pos (mem_flatMap_pairs hleafmem ho))), h.actions.insts leaf hleafmem o ho⟩
    exact ⟨fun x hx => (hfit x hx).1.1, fun x hx => (hfit x hx).1.2, fun x hx => (hfit x hx).2.1,
      fun x hx => (hfit x hx).2.2⟩

/-! ## No entries -/

theorem exists_wellFormed_nil : ∃ c, P.convert [] = some c ∧ c.WellFormed := by
  have hstep : ∀ (done : List (List ℕ)) p rest s (t : Tables H F X), P.order = done ++ p :: rest →
      P.targetOf p = some (.state s) → True →
      ∃ t', P.visitInstance [] s t p = some t' ∧ True :=
    fun _ _ _ _ _ _ _ _ => ⟨_, rfl, trivial⟩
  obtain ⟨t, ht, -⟩ : ∃ t, P.sorted.foldlM (P.stateIterator []) (P.initTables []) = some t ∧ True :=
    P.foldlM_order (fun _ _ => True) hstep trivial
  exact ⟨_, by rw [convert, ht]; rfl, Control.wellFormed_of_nil (by simp)⟩

/-- Without a `select` there are no entries at offset 0. -/
theorem exists_wellFormed_of_no_select
    (hgoto : ∀ p s, P.targetOf p = some (.state s) → ∃ g, P.transition s = .goto g) :
    ∃ c, P.convert [0] = some c ∧ c.WellFormed := by
  have hstep : ∀ done p rest s t, P.order = done ++ p :: rest → P.targetOf p = some (.state s) →
      (P.Declared (done.flatMap fun q => [0].map fun o => (q, o)) t.decls ∧
        t.entryListPerOffset 0 = []) →
      ∃ t', P.visitInstance [0] s t p = some t' ∧
        P.Declared ((done ++ [p]).flatMap fun q => [0].map fun o => (q, o)) t'.decls ∧
        t'.entryListPerOffset 0 = [] := by
    rintro done p rest s t horder hp ⟨hd, hnil⟩
    obtain ⟨g, hg⟩ := hgoto p s hp
    obtain ⟨t', hvisit, hdeclared, -, -, hentries⟩ := P.visitInstance_goto
      (List.nodup_singleton 0) hp hd
      (fun o _ => not_mem_flatMap_pairs (P.not_mem_of_order_eq horder) o)
      (fun o ho i q hq => mem_flatMap_pairs (P.mem_of_order_eq horder hq) ho) hg
    exact ⟨t', hvisit, by rw [flatMap_pairs_concat]; exact hdeclared,
      (hentries 0 (List.mem_singleton_self 0)).trans hnil⟩
  obtain ⟨t, ht, -, hentries⟩ := P.foldlM_order _ hstep ⟨P.declared_initTables,
    (P.entryListPerOffset_initTables (List.mem_singleton_self 0)).trans (if_pos rfl)⟩
  have hnil : (([0] : List ℕ).toFinset.sort (· ≤ ·)).flatMap t.entryListPerOffset = [] := by
    rw [List.flatMap_eq_nil_iff]
    intro o ho
    obtain rfl : o = 0 := by simpa using ho
    exact hentries
  exact ⟨_, by rw [convert, ht]; rfl, Control.wellFormed_of_nil hnil⟩

/-! ## The condition -/

omit [DecidableEq S] [DecidableEq H] [DecidableEq F] [DecidableEq X] in
/-- The entries start somewhere, unless there is no `select` at offset 0. -/
theorem exists_isRoot_or (initialOffsets : List ℕ) : (∃ root, P.IsRoot initialOffsets root) ∨
    (initialOffsets = [0] ∧
      ∀ p s, P.targetOf p = some (.state s) → ∃ g, P.transition s = .goto g) := by
  have hleads : P.Leads [] := fun q hq hne => absurd (List.suffix_nil.mp hq) hne
  by_cases hzero : initialOffsets = [0]
  · obtain ⟨r, t, hr, ht, hcase⟩ := exists_leads (p := []) rfl (Nat.lt_succ_self _) hleads
    rcases hcase with hsel | ⟨g, hg, hout⟩
    · exact Or.inl ⟨r, fun hnot => absurd hzero hnot, fun _ => ⟨t, ht, hsel⟩, hr⟩
    · refine Or.inr ⟨hzero, fun p s hp => ?_⟩
      rcases hr.suffix_or ht hp with hbelow | ⟨hfront, hne⟩
      · by_cases hne : r = p
        · rw [hne, hp] at ht
          cases ht
          exact ⟨g, hg⟩
        · -- behind the last state there is none
          obtain ⟨i, hi⟩ := exists_cons_suffix hbelow hne
          obtain ⟨s₁, hs₁⟩ := P.exists_state_of_suffix hp hi
          obtain ⟨s₂, hs₂, hget⟩ := ParserDecl.targetOf_cons hs₁
          rw [ht] at hs₂
          cases hs₂
          rw [hg] at hget
          exact absurd (List.mem_singleton.mp (List.mem_of_getElem? hget)).symm (hout s₁)
      · obtain ⟨s', g', hs', hg'⟩ := hr p hfront hne
        rw [hp] at hs'
        cases hs'
        exact ⟨g', hg'⟩
  · exact Or.inl ⟨[], fun _ => rfl, fun h => absurd h hzero, hleads⟩

omit [DecidableEq H] [DecidableEq F] [DecidableEq X] in
theorem IsRoot.mem_order (h : P.IsRoot initialOffsets root) : root ∈ P.order := by
  by_cases hzero : initialOffsets = [0]
  · obtain ⟨s, hs, -⟩ := h.select hzero
    exact P.mem_order.mpr ⟨s, hs⟩
  · rw [h.nil hzero]
    exact P.mem_order.mpr ⟨P.start, rfl⟩

variable (P) in
/-- The condition: every `select` passes the check, and from where the entries start, the start
state or at offset 0 the first `select`, the keysets of all leaves are allowed. -/
structure MeetsForm (initialOffsets : List ℕ) : Prop where
  checks : P.Checks initialOffsets
  fits : ∀ root, P.IsRoot initialOffsets root → P.Fits initialOffsets root

/-- **The form of the table**: the conversion succeeds and gives a well-formed table if the
condition holds, and only then. -/
theorem wellFormed_iff (hnodup : initialOffsets.Nodup) (hselects : P.SelectsNonempty) :
    (∃ c, P.convert initialOffsets = some c ∧ c.WellFormed) ↔
      (initialOffsets ≠ [] → P.MeetsForm initialOffsets) := by
  constructor
  · rintro ⟨c, hc, hwell⟩ hne
    obtain ⟨t, ht, -⟩ := Option.map_eq_some_iff.mp hc
    have hchecks := checks_of_foldlM hnodup hne hselects ht
    exact ⟨hchecks, fun root hroot =>
      (wellFormed_iff_fits hnodup hne hselects hchecks hroot hroot.mem_order hc).mp hwell⟩
  · intro h
    by_cases hne : initialOffsets = []
    · rw [hne]
      exact exists_wellFormed_nil
    · rcases P.exists_isRoot_or initialOffsets with ⟨root, hroot⟩ | ⟨hzero, hgoto⟩
      · obtain ⟨hchecks, hfits⟩ := h hne
        obtain ⟨t, ht, -⟩ := exists_visitInv hnodup hne hselects hchecks
        have hc := congrArg (Option.map fun t : Tables H F X => (⟨t.decls.actionDecls, t.actionList,
          t.keyElementList, (initialOffsets.toFinset.sort (· ≤ ·)).flatMap
            t.entryListPerOffset⟩ : Control H F X)) ht
        exact ⟨_, hc, (wellFormed_iff_fits hnodup hne hselects hchecks hroot hroot.mem_order hc).mpr
          (hfits root hroot)⟩
      · rw [hzero]
        exact exists_wellFormed_of_no_select hgoto

omit [DecidableEq S] [DecidableEq H] [DecidableEq F] [DecidableEq X] in
/-- With a `default` case in every `select`, all keys that are added are ternary, and one
expression in every `select` is enough. -/
theorem meetsForm_of_default (h : ∀ p s es cases, P.targetOf p = some (.state s) →
    P.transition s = .select es cases →
    (∃ e, es = [e]) ∧ (P.transition s).hasDefaultSelectCase = true) :
    P.MeetsForm initialOffsets := by
  refine ⟨fun p s es cases hp ht => ?_, fun root _ leaf _ p s es cases hp ht => ?_⟩
  · obtain ⟨⟨e, rfl⟩, -⟩ := h p s es cases hp ht
    exact Or.inl rfl
  · obtain ⟨⟨e, rfl⟩, hdefault⟩ := h p s es cases hp ht
    refine ⟨e, rfl, fun _ hno => ?_⟩
    rw [hdefault] at hno
    cases hno

end Parser

/-! ## A select of two fields -/

theorem wellFormed_iff_acceptZero : ∃ c, acceptZero.convert [0, 8] = some c ∧ c.WellFormed := by
  refine (Parser.wellFormed_iff (by decide) fun p s es cases hp ht => ?_).mpr fun _ =>
    Parser.meetsForm_of_default fun p s es cases hp ht => ?_
  · obtain ⟨⟨e, rfl⟩, hcases⟩ := plain_acceptZero p s es cases hp ht
    exact ⟨List.cons_ne_nil _ _, hcases⟩
  · refine ⟨(plain_acceptZero p s es cases hp ht).1, ?_⟩
    match s, ht with
    | false, _ => rfl
    | true, ht => cases ht

/-- A parser that extracts two bytes, and accepts if both are 0 and rejects otherwise. -/
def acceptBothZero : Parser (Fin 1) Unit Bool Unit where
  headers := [()]
  fields _ := [(false, 8), (true, 8)]
  start := 0
  components _ := [.extract ()]
  transition _ := .select [.loc (.field () false), .loc (.field () true)]
    [(.list (List.replicate 2 fun v => v = .bits (List.replicate 8 false)), .accept),
      (.default, .reject)]
  fields_nodup _ := by decide
  extract_mem _ h _ := List.mem_singleton_self h
  extracted_nodup := ParserDecl.extracted_nodup_of_owner _ (fun _ => 0) (by decide)
    (fun _ => 0) (fun s _ _ => (Subsingleton.elim s 0).symm) (by decide)
  rank _ := 0
  rank_lt := by decide
  sorted := [0]
  sorted_head := rfl
  mem_sorted _ s _ := List.mem_singleton.mpr (Subsingleton.elim s 0)
  sorted_pairwise := List.pairwise_singleton _ _

/-- Its two keys do not pass the check. -/
theorem not_wellFormed_acceptBothZero :
    ¬ ∃ c, acceptBothZero.convert [0] = some c ∧ c.WellFormed := by
  rintro ⟨c, hc, -⟩
  have hnone : (acceptBothZero.convert [0]).isNone = true := by decide
  rw [hc] at hnone
  cases hnone

end Parsing
end MicroP4
