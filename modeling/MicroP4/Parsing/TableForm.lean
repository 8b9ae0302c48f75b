import MicroP4.Parsing.SelectKeys
import MicroP4.Parsing.TableRun

/-!
# The form of the generated table

At the end of the visit there is an entry for every leaf of the tree of selects: a path to
`reject`, or to a state without a `select`, that leaves every state in front of it by a case.
In the columns of a `select` on the path of its leaf the entry has the keyset of the case, with a
mask of ones unless it is the first column, and `default` in all other columns, whatever the
match type of the keys.  A `select` of several expressions adds as many keys, but every entry
gets one keyset (`Represents.case`, `Represents.pad`).
-/

namespace MicroP4
namespace Parsing

open BitString Assignments

variable {S H F X : Type}

/-! ## Columns -/

/-- A keyset that a key of match type `exact` does not allow. -/
def Keyset.needsTernary : Keyset → Bool
  | .default => true
  | .mask _ => true
  | _ => false

/-- A keyset of a case that is not a don't-care or a mask where it is put into the table, in the
first column or in another one. -/
def Keyset.isExact (first : Prop) [Decidable first] : Keyset → Bool
  | .default => false
  | .mask _ => false
  | .constant (.bits _) => decide first
  | _ => true

theorem needsTernary_caseKeyset (m : ℕ) (k : Keyset) :
    (Parser.caseKeyset m k).needsTernary = !k.isExact (m = 0) := by
  rw [Parser.caseKeyset]
  by_cases hm : m = 0
  · rw [if_pos hm]
    cases k with
    | constant v => cases v <;> simp [Keyset.needsTernary, Keyset.isExact, hm]
    | default => rfl
    | mask p => rfl
    | range p => rfl
    | list ps => rfl
  · rw [if_neg hm]
    cases k with
    | constant v =>
        cases v <;> simp [Keyset.withMask, Keyset.needsTernary, Keyset.isExact, hm]
    | default => rfl
    | mask p => rfl
    | range p => rfl
    | list ps => rfl

/-- Don't-cares and masks stand under ternary keys only. -/
def ColumnsFit (keysets : List Keyset) (keys : List (KeyElement H F X)) : Prop :=
  ∀ x ∈ keysets.zip keys, x.1.needsTernary = true → x.2.matchType = .ternary

theorem columnsFit_append {ks ks' : List Keyset} {es es' : List (KeyElement H F X)}
    (h : ks.length = es.length) :
    ColumnsFit (ks ++ ks') (es ++ es') ↔ ColumnsFit ks es ∧ ColumnsFit ks' es' := by
  unfold ColumnsFit
  rw [List.zip_append h]
  constructor
  · exact fun hall => ⟨fun x hx => hall x (List.mem_append_left _ hx),
      fun x hx => hall x (List.mem_append_right _ hx)⟩
  · rintro ⟨h₁, h₂⟩ x hx
    exact (List.mem_append.mp hx).elim (h₁ x) (h₂ x)

theorem exists_mem_zip {α β : Type} {a : α} : ∀ {l : List α} {l' : List β},
    l.length = l'.length → a ∈ l → ∃ b, (a, b) ∈ l.zip l'
  | [], _, _, ha => absurd ha List.not_mem_nil
  | _ :: _, [], hlen, _ => absurd hlen (Nat.succ_ne_zero _)
  | _ :: _, b :: _, hlen, ha => by
      rcases List.mem_cons.mp ha with rfl | ha
      · exact ⟨b, List.mem_cons_self⟩
      · obtain ⟨b', hb'⟩ := exists_mem_zip (Nat.succ.inj hlen) ha
        exact ⟨b', List.mem_cons_of_mem _ hb'⟩

/-- Under exact keys a keyset stands alone. -/
theorem forall_columns_exact (m n : ℕ) (k : Keyset) :
    (∀ k' ∈ List.replicate m Keyset.default ++ k :: List.replicate n Keyset.default,
      k'.needsTernary = false) ↔ (m = 0 ∧ n = 0) ∧ k.needsTernary = false := by
  constructor
  · intro h
    have hzero : ∀ l : ℕ, (∀ k' ∈ List.replicate l Keyset.default, k'.needsTernary = false) →
        l = 0 := by
      intro l hl
      by_contra hne
      exact Bool.noConfusion (hl .default (List.mem_replicate.mpr ⟨hne, rfl⟩))
    refine ⟨⟨hzero m fun k' hk' => h k' (List.mem_append_left _ hk'), hzero n fun k' hk' =>
      h k' (List.mem_append_right _ (List.mem_cons_of_mem k hk'))⟩, h k ?_⟩
    exact List.mem_append_right _ List.mem_cons_self
  · rintro ⟨⟨rfl, rfl⟩, hk⟩ k' hk'
    rw [List.mem_singleton.mp hk']
    exact hk

/-- Columns of one match type. -/
theorem columnsFit_iff {ks : List Keyset} {es : List (KeyElement H F X)} {m : MatchType}
    (hlen : ks.length = es.length) (hes : ∀ e ∈ es, e.matchType = m) :
    ColumnsFit ks es ↔ (m = .exact → ∀ k ∈ ks, k.needsTernary = false) := by
  constructor
  · rintro h rfl k hk
    obtain ⟨e, he⟩ := exists_mem_zip hlen hk
    by_contra hne
    have hternary := h (k, e) he (by simpa using hne)
    rw [hes e (List.of_mem_zip he).2] at hternary
    cases hternary
  · intro h x hx hneeds
    cases m with
    | ternary => exact hes _ (List.of_mem_zip hx).2
    | exact =>
        rw [h rfl _ (List.of_mem_zip hx).1] at hneeds
        cases hneeds

/-- There is a keyset under every key, and it is allowed there. -/
def KeysetsFit (keysets : List Keyset) (keys : List (KeyElement H F X)) : Prop :=
  keysets.length = keys.length ∧ ColumnsFit keysets keys

theorem keysetsFit_append {ks ks' : List Keyset} {es es' : List (KeyElement H F X)}
    (hle : ks.length ≤ es.length) (hle' : ks'.length ≤ es'.length) :
    KeysetsFit (ks ++ ks') (es ++ es') ↔
      KeysetsFit ks es ∧ ks'.length = es'.length ∧ ColumnsFit ks' es' := by
  unfold KeysetsFit
  constructor
  · rintro ⟨hlen, hfit⟩
    rw [List.length_append, List.length_append] at hlen
    have hks : ks.length = es.length := by omega
    rw [columnsFit_append hks] at hfit
    exact ⟨⟨hks, hfit.1⟩, by omega, hfit.2⟩
  · rintro ⟨⟨hlen, hfit⟩, hlen', hfit'⟩
    refine ⟨by rw [List.length_append, List.length_append, hlen, hlen'], ?_⟩
    exact (columnsFit_append hlen).mpr ⟨hfit, hfit'⟩

/-! ## Leaves -/

namespace Parser

variable (P : Parser S H F X)

/-- The expression of a `select` is a location that is assigned in the state. -/
def AssignedIn (p : List ℕ) : SelectExpr H F X → Prop
  | .loc l => ¬ P.Untouched (P.statsOf p) l
  | .expr _ => False

/-- A path that leaves every state in front of it by a case. -/
def LeavesByCases (root leaf : List ℕ) : Prop :=
  ∀ q, root <:+ q → q <:+ leaf → q ≠ leaf →
    ∃ s, P.targetOf q = some (.state s) ∧ (P.transition s).hasSelectExpression = true

/-- The paths that have an entry at the end. -/
structure IsLeaf (root leaf : List ℕ) : Prop where
  below : root <:+ leaf
  byCases : P.LeavesByCases root leaf
  target : P.targetOf leaf = some .reject ∨
    ∃ s g, P.targetOf leaf = some (.state s) ∧ P.transition s = .goto g

/-- The entry of a path has a keyset under every key of an instance, and one that is allowed: the
`select` has one expression, and if it is the only instance of its state, and the state has no
`default` case, so that its keys are exact, the path leaves it by a case that is put into the
table as an exact value, and there is one key. -/
def FitsAt (initialOffsets root : List ℕ) (leaf p : List ℕ) : Prop :=
  ∀ s es cases, P.targetOf p = some (.state s) → P.transition s = .select es cases →
    ∃ e, es = [e] ∧ ((∀ q, P.targetOf q = some (.state s) → q = p) →
      (P.transition s).hasDefaultSelectCase = false →
      ∃ i c, i :: p <:+ leaf ∧ cases[i]? = some c ∧
        c.1.isExact (initialOffsets = [0] ∧ p = root) = true ∧
        (initialOffsets.length = 1 ∨ ¬ P.AssignedIn p e))

section Match

variable [DecidableEq S]

theorem nodup_evaluatedInstances (s : S) : (P.evaluatedInstances s).Nodup :=
  P.nodup_instances.filter _

/-- When the keys of an instance are exact. -/
theorem matchType_eq_exact_iff {p : List ℕ} {s : S} (hp : P.targetOf p = some (.state s)) :
    P.matchType s = .exact ↔ (∀ q, P.targetOf q = some (.state s) → q = p) ∧
      (P.transition s).hasDefaultSelectCase = false := by
  have hmem : p ∈ P.evaluatedInstances s := P.mem_evaluatedInstances.mpr hp
  have hone : ¬ (P.evaluatedInstances s).length > 1 ↔
      ∀ q, P.targetOf q = some (.state s) → q = p := by
    constructor
    · intro hlen q hq
      obtain ⟨a, ha⟩ := List.length_eq_one_iff.mp (Nat.le_antisymm (Nat.le_of_not_lt hlen)
        (List.length_pos_of_mem hmem))
      have hq' := P.mem_evaluatedInstances.mpr hq
      rw [ha, List.mem_singleton] at hmem hq'
      rw [hq', hmem]
    · intro hall hlen
      have hnodup := P.nodup_evaluatedInstances s
      cases hl : P.evaluatedInstances s with
      | nil =>
          rw [hl] at hlen
          exact absurd hlen (Nat.not_lt_zero 1)
      | cons a l =>
          cases l with
          | nil =>
              rw [hl] at hlen
              exact absurd hlen (Nat.lt_irrefl 1)
          | cons b l =>
              have ha := hall a (P.mem_evaluatedInstances.mp (hl ▸ List.mem_cons_self))
              have hb := hall b (P.mem_evaluatedInstances.mp
                (hl ▸ List.mem_cons_of_mem a List.mem_cons_self))
              rw [hl, ha, hb] at hnodup
              exact (List.nodup_cons.mp hnodup).1 List.mem_cons_self
  rw [matchType, ← hone]
  split
  · rename_i h
    constructor
    · intro heq
      cases heq
    · rintro ⟨hnot, hdef⟩
      rw [hdef] at h
      exact absurd (h.resolve_right Bool.false_ne_true) hnot
  · rename_i h
    rw [not_or, Bool.not_eq_true] at h
    exact iff_of_true rfl h

end Match

/-! ## The entries during the visit -/

section Assigned

variable [DecidableEq H] [DecidableEq F] [DecidableEq X]

theorem isSome_substituted_iff {p : List ℕ} {o : ℕ} {e : SelectExpr H F X} :
    (substituted (P.asgnsOf p o) e).isSome = true ↔ P.AssignedIn p e := by
  cases e with
  | expr e => exact iff_of_false Bool.false_ne_true id
  | loc l =>
      have hmap := P.map_on_asgnsOf (fun _ _ => false) p o
      rw [substituted, Option.isSome_map, List.find?_isSome]
      constructor
      · rintro ⟨a, ha, htarget⟩ huntouched
        have hmem := List.mem_map_of_mem (f := Asgn.on fun _ _ => false) ha
        rw [hmap] at hmem
        exact huntouched.target_ne _ _ hmem (of_decide_eq_true htarget)
      · intro hassigned
        unfold AssignedIn ParserDecl.Untouched at hassigned
        push Not at hassigned
        obtain ⟨s, hs, hx⟩ := hassigned
        obtain ⟨a, ha, htarget⟩ := P.exists_mem_statAssigns (readSlices fun _ _ => false) hx hs
        rw [← hmap] at ha
        obtain ⟨b, hb, rfl⟩ := List.mem_map.mp ha
        exact ⟨b, hb, decide_eq_true htarget⟩

end Assigned

section Represents

variable [DecidableEq S]

/-- The paths that have an entry after the visit of `done`. -/
structure Frontier (root : List ℕ) (done : List (List ℕ)) (leaf : List ℕ) : Prop where
  below : root <:+ leaf
  byCases : P.LeavesByCases root leaf
  visited : ∀ q, root <:+ q → q <:+ leaf → q ≠ leaf → q ∈ done
  target : ∃ t, P.targetOf leaf = some t ∧ t ≠ .accept
  last : leaf ∈ done → ∀ s, P.targetOf leaf = some (.state s) →
    (P.transition s).hasSelectExpression = false

variable {P} {initialOffsets root : List ℕ} {done rest : List (List ℕ)} {p : List ℕ}
  {s : S} {o : ℕ}

omit [DecidableEq S] in
/-- The visit of an instance without a `select` does not change the paths. -/
theorem frontier_concat_goto {g : Target S} (hp : P.targetOf p = some (.state s))
    (hg : P.transition s = .goto g) (leaf : List ℕ) :
    P.Frontier root (done ++ [p]) leaf ↔ P.Frontier root done leaf := by
  constructor
  · intro h
    refine ⟨h.below, h.byCases, fun q hroot hq hne => ?_, h.target,
      fun hmem => h.last (List.mem_append_left _ hmem)⟩
    rcases List.mem_append.mp (h.visited q hroot hq hne) with hmem | hmem
    · exact hmem
    · obtain ⟨s', hs', hsel⟩ := h.byCases q hroot hq hne
      rw [List.mem_singleton.mp hmem, hp] at hs'
      cases hs'
      rw [hg] at hsel
      cases hsel
  · intro h
    refine ⟨h.below, h.byCases,
      fun q hroot hq hne => List.mem_append_left _ (h.visited q hroot hq hne),
      h.target, fun hmem s' hs' => ?_⟩
    rcases List.mem_append.mp hmem with hmem | hmem
    · exact h.last hmem s' hs'
    · rw [List.mem_singleton.mp hmem, hp] at hs'
      cases hs'
      rw [hg]
      rfl

omit [DecidableEq S] in
theorem ne_of_cons_suffix {q : List ℕ} {i : ℕ} (h : i :: p <:+ q) : p ≠ q := by
  rintro rfl
  exact Nat.not_succ_le_self _ h.length_le

/-- The paths after the visit of an instance with a `select`: those that do not end in it, and
those that leave it by a case that does not accept. -/
theorem frontier_concat_select (horder : P.order = done ++ p :: rest)
    (hp : P.targetOf p = some (.state s)) (hsel : (P.transition s).hasSelectExpression = true)
    (leaf : List ℕ) : P.Frontier root (done ++ [p]) leaf ↔
      (P.Frontier root done leaf ∧ leaf ≠ p) ∨ ∃ i t, leaf = i :: p ∧ P.Frontier root done p ∧
        P.targetOf leaf = some t ∧ t ≠ .accept := by
  have hnot : p ∉ done := P.not_mem_of_order_eq horder
  constructor
  · intro h
    have hleaf : leaf ≠ p := by
      rintro rfl
      have hlast := h.last (List.mem_append_right _ (List.mem_singleton_self _)) s hp
      rw [hsel] at hlast
      cases hlast
    by_cases hsuffix : root <:+ p ∧ p <:+ leaf
    · -- what follows is the last step, since the successor is not visited
      obtain ⟨i, hi⟩ := exists_cons_suffix hsuffix.2 (Ne.symm hleaf)
      have hend : leaf = i :: p := by
        by_contra hne
        have hmem := h.visited (i :: p) (hsuffix.1.trans (List.suffix_cons i p)) hi (Ne.symm hne)
        rcases List.mem_append.mp hmem with hmem | hmem
        · exact P.cons_not_mem_of_order_eq horder i hmem
        · exact List.cons_ne_self i p (List.mem_singleton.mp hmem)
      obtain ⟨t, ht, hta⟩ := h.target
      refine Or.inr ⟨i, t, hend, ⟨hsuffix.1, fun q hq hqp hne => ?_, fun q hq hqp hne => ?_,
        ⟨_, hp, nofun⟩, fun hmem => absurd hmem hnot⟩, ht, hta⟩
      · have hqleaf : q ≠ leaf := by
          rintro rfl
          exact ne_of_cons_suffix (hi.trans hqp) rfl
        exact h.byCases q hq (hqp.trans hsuffix.2) hqleaf
      · have hqleaf : q ≠ leaf := by
          rintro rfl
          exact ne_of_cons_suffix (hi.trans hqp) rfl
        rcases List.mem_append.mp (h.visited q hq (hqp.trans hsuffix.2) hqleaf) with hmem | hmem
        · exact hmem
        · exact absurd (List.mem_singleton.mp hmem) hne
    · refine Or.inl ⟨⟨h.below, h.byCases, fun q hq hql hne => ?_, h.target,
        fun hmem => h.last (List.mem_append_left _ hmem)⟩, hleaf⟩
      rcases List.mem_append.mp (h.visited q hq hql hne) with hmem | hmem
      · exact hmem
      · rw [List.mem_singleton.mp hmem] at hq hql
        exact absurd ⟨hq, hql⟩ hsuffix
  · rintro (⟨h, hne⟩ | ⟨i, t, rfl, h, ht, hta⟩)
    · refine ⟨h.below, h.byCases,
        fun q hq hql hqne => List.mem_append_left _ (h.visited q hq hql hqne),
        h.target, fun hmem => ?_⟩
      rcases List.mem_append.mp hmem with hmem | hmem
      · exact h.last hmem
      · exact absurd (List.mem_singleton.mp hmem) hne
    · refine ⟨h.below.trans (List.suffix_cons i p), fun q hq hql hqne => ?_,
        fun q hq hql hqne => ?_, ⟨t, ht, hta⟩, fun hmem => ?_⟩
      · by_cases hqp : q = p
        · exact ⟨s, hqp ▸ hp, hsel⟩
        · exact h.byCases q hq ((List.suffix_cons_iff.mp hql).resolve_left hqne) hqp
      · by_cases hqp : q = p
        · exact List.mem_append_right _ (List.mem_singleton.mpr hqp)
        · exact List.mem_append_left _
            (h.visited q hq ((List.suffix_cons_iff.mp hql).resolve_left hqne) hqp)
      · rcases List.mem_append.mp hmem with hmem | hmem
        · exact absurd hmem (P.cons_not_mem_of_order_eq horder i)
        · exact absurd (List.mem_singleton.mp hmem) (List.cons_ne_self i p)

omit [DecidableEq S] in
/-- The instance that is visited is below the root, since those in front of it have no `select`. -/
theorem IsRoot.suffix (hroot : P.IsRoot initialOffsets root) (hp : P.targetOf p = some (.state s))
    (hsel : (P.transition s).hasSelectExpression = true) : root <:+ p := by
  obtain ⟨s₀, hs₀⟩ : ∃ s₀, P.targetOf root = some (.state s₀) := by
    by_cases hzero : initialOffsets = [0]
    · obtain ⟨s₀, hs₀, -⟩ := hroot.select hzero
      exact ⟨s₀, hs₀⟩
    · exact ⟨P.start, by rw [hroot.nil hzero]; rfl⟩
  rcases hroot.leads.suffix_or hs₀ hp with hbelow | ⟨hfront, hne⟩
  · exact hbelow
  · obtain ⟨s', g, hs', hg⟩ := hroot.leads p hfront hne
    rw [hp] at hs'
    cases hs'
    rw [hg] at hsel
    cases hsel

/-! ## One entry -/

/-- An entry of the path `leaf` after the visit of `done`. -/
structure Represents (initialOffsets root : List ℕ) (done : List (List ℕ))
    (keys : List (KeyElement H F X)) (o : ℕ) (x : Entry) (leaf : List ℕ) : Prop where
  action : x.action = P.getActionName leaf o
  le : x.keys.length ≤ keys.length
  fit : KeysetsFit x.keys keys ↔ ∀ q ∈ done, P.FitsAt initialOffsets root leaf q

/-- The columns of the keys an instance adds: an entry gets the keyset of the case behind `m`
and in front of `n` don't-cares. -/
structure Columns (initialOffsets p : List ℕ) (s : S) (es : List (SelectExpr H F X)) (m n : ℕ)
    (cols : List (KeyElement H F X)) : Prop where
  matchType : ∀ c ∈ cols, c.matchType = P.matchType s
  le : m + (n + 1) ≤ cols.length
  eq_iff : m + (n + 1) = cols.length ↔ ∃ e, es = [e]
  alone : m = 0 ∧ n = 0 ↔ initialOffsets.length = 1 ∨ ∃ e ∈ es, ¬ P.AssignedIn p e

variable {keys cols : List (KeyElement H F X)} {es : List (SelectExpr H F X)}
  {cases : List (Keyset × Target S)} {m n : ℕ} {x : Entry} {leaf : List ℕ}

omit [DecidableEq S] in
theorem fitsAt_of_goto {g : Target S} (hp : P.targetOf p = some (.state s))
    (hg : P.transition s = .goto g) : P.FitsAt initialOffsets root leaf p := by
  intro s' es cases hp' ht
  rw [hp] at hp'
  cases hp'
  rw [hg] at ht
  cases ht

theorem fitsAt_iff (hp : P.targetOf p = some (.state s)) (ht : P.transition s = .select es cases) :
    P.FitsAt initialOffsets root leaf p ↔ ∃ e, es = [e] ∧ (P.matchType s = .exact →
      ∃ i c, i :: p <:+ leaf ∧ cases[i]? = some c ∧
        c.1.isExact (initialOffsets = [0] ∧ p = root) = true ∧
        (initialOffsets.length = 1 ∨ ¬ P.AssignedIn p e)) := by
  rw [P.matchType_eq_exact_iff hp]
  constructor
  · intro h
    obtain ⟨e, he, hexact⟩ := h s es cases hp ht
    exact ⟨e, he, fun hm => hexact hm.1 hm.2⟩
  · rintro ⟨e, he, hexact⟩ s' es' cases' hp' ht'
    rw [hp] at hp'
    cases hp'
    rw [ht] at ht'
    cases ht'
    exact ⟨e, he, fun hone hdef => hexact ⟨hone, hdef⟩⟩

theorem forall_mem_concat {α : Type} {C : α → Prop} {l : List α} {a : α} :
    (∀ b ∈ l ++ [a], C b) ↔ (∀ b ∈ l, C b) ∧ C a := by
  rw [List.forall_mem_append]
  exact and_congr_right fun _ => List.forall_mem_singleton

theorem Represents.goto (h : P.Represents initialOffsets root done keys o x leaf)
    (hp : P.targetOf p = some (.state s)) {g : Target S} (hg : P.transition s = .goto g) :
    P.Represents initialOffsets root (done ++ [p]) keys o x leaf := by
  refine ⟨h.action, h.le, h.fit.trans ?_⟩
  rw [forall_mem_concat]
  exact (and_iff_left (fitsAt_of_goto hp hg)).symm

/-- The keyset of a case is added. -/
theorem Represents.case (h : P.Represents initialOffsets root done keys o x p)
    (horder : P.order = done ++ p :: rest) (hroot : P.IsRoot initialOffsets root)
    (hp : P.targetOf p = some (.state s)) (ht : P.transition s = .select es cases)
    (hempty : keys = [] ↔ initialOffsets = [0] ∧ root ∉ done)
    (hcols : P.Columns initialOffsets p s es m n cols) {i : ℕ} {c : Keyset × Target S}
    (hc : cases[i]? = some c) :
    P.Represents initialOffsets root (done ++ [p]) (keys ++ cols) o
      ⟨x.keys ++ (List.replicate m .default ++
        caseKeyset x.keys.length c.1 :: List.replicate n .default), P.getActionName (i :: p) o⟩
      (i :: p) := by
  have hlen : (List.replicate m Keyset.default ++
      caseKeyset x.keys.length c.1 :: List.replicate n .default).length = m + (n + 1) := by
    simp
  have hnot : p ∉ done := P.not_mem_of_order_eq horder
  have hbelow : root <:+ p := hroot.suffix hp (by rw [ht]; rfl)
  -- the other instances see the same path
  have hdone : ∀ q ∈ done, (P.FitsAt initialOffsets root (i :: p) q ↔
      P.FitsAt initialOffsets root p q) := by
    intro q hq
    have hsuffix : ∀ j, j :: q <:+ i :: p ↔ j :: q <:+ p := by
      intro j
      rw [List.suffix_cons_iff]
      refine or_iff_right fun heq => ?_
      cases heq
      exact hnot hq
    unfold FitsAt
    simp only [hsuffix]
  refine ⟨rfl, ?_, ?_⟩
  · rw [List.length_append, hlen, List.length_append]
    exact Nat.add_le_add h.le hcols.le
  · rw [keysetsFit_append h.le (by rw [hlen]; exact hcols.le), forall_mem_concat,
      forall₂_congr hdone, ← h.fit, hlen, hcols.eq_iff, fitsAt_iff hp ht]
    refine and_congr_right fun hfit => ?_
    -- the first column is that of the root
    have hfirst : x.keys.length = 0 ↔ initialOffsets = [0] ∧ p = root := by
      rw [hfit.1, List.length_eq_zero_iff, hempty]
      refine and_congr_right fun _ => ⟨fun hr => ?_, fun hr => hr ▸ hnot⟩
      by_contra hne
      exact hr (P.mem_of_suffix horder hbelow (Ne.symm hne))
    have hfits : ∀ e, es = [e] → (ColumnsFit (List.replicate m .default ++
        caseKeyset x.keys.length c.1 :: List.replicate n .default) cols ↔ (P.matchType s = .exact →
          (initialOffsets.length = 1 ∨ ¬ P.AssignedIn p e) ∧
            c.1.isExact (initialOffsets = [0] ∧ p = root) = true)) := by
      rintro e rfl
      rw [columnsFit_iff (by rw [hlen]; exact hcols.eq_iff.mpr ⟨e, rfl⟩) hcols.matchType,
        forall_columns_exact, hcols.alone, needsTernary_caseKeyset, Bool.not_eq_false']
      simp only [hfirst, List.mem_singleton, exists_eq_left]
    constructor
    · rintro ⟨⟨e, he⟩, hcolumns⟩
      refine ⟨e, he, fun hexact => ?_⟩
      obtain ⟨halone, hcase⟩ := (hfits e he).mp hcolumns hexact
      exact ⟨i, c, List.suffix_rfl, hc, hcase, halone⟩
    · rintro ⟨e, he, hexact⟩
      refine ⟨⟨e, he⟩, (hfits e he).mpr fun hm => ?_⟩
      obtain ⟨j, c', hj, hc', hcase, halone⟩ := hexact hm
      obtain rfl : j = i := (List.cons.inj (hj.eq_of_length rfl)).1
      rw [hc] at hc'
      cases hc'
      exact ⟨halone, hcase⟩

/-- Don't-cares are added. -/
theorem Represents.pad (h : P.Represents initialOffsets root done keys o x leaf)
    (horder : P.order = done ++ p :: rest) (hroot : P.IsRoot initialOffsets root)
    (hp : P.targetOf p = some (.state s)) (ht : P.transition s = .select es cases)
    (hleaf : P.Frontier root done leaf)
    (hcols : P.Columns initialOffsets p s es m n cols) :
    P.Represents initialOffsets root (done ++ [p]) (keys ++ cols) o
      ⟨x.keys ++ List.replicate (m + (n + 1)) .default, x.action⟩ leaf := by
  have hlen : (List.replicate (m + (n + 1)) Keyset.default).length = m + (n + 1) :=
    List.length_replicate
  refine ⟨h.action, ?_, ?_⟩
  · rw [List.length_append, hlen, List.length_append]
    exact Nat.add_le_add h.le hcols.le
  · rw [keysetsFit_append h.le (by rw [hlen]; exact hcols.le), forall_mem_concat, ← h.fit, hlen,
      hcols.eq_iff, fitsAt_iff hp ht]
    refine and_congr_right fun _ => ?_
    -- a leaf below the instance is made when it is visited
    have hnot : ∀ i, ¬ i :: p <:+ leaf := fun i hi =>
      P.not_mem_of_order_eq horder (hleaf.visited p (hroot.suffix hp (by rw [ht]; rfl))
        ((List.suffix_cons i p).trans hi) (ne_of_cons_suffix hi))
    have hfits : ∀ e, es = [e] → (ColumnsFit (List.replicate (m + (n + 1)) .default) cols ↔
        P.matchType s ≠ .exact) := by
      rintro e rfl
      rw [columnsFit_iff (by rw [hlen]; exact hcols.eq_iff.mpr ⟨e, rfl⟩) hcols.matchType]
      refine forall_congr' fun _ => iff_false_intro fun hall => ?_
      exact Bool.noConfusion (hall .default (List.mem_replicate.mpr ⟨Nat.succ_ne_zero _, rfl⟩))
    constructor
    · rintro ⟨⟨e, he⟩, hcolumns⟩
      exact ⟨e, he, fun hexact => absurd hexact ((hfits e he).mp hcolumns)⟩
    · rintro ⟨e, he, hexact⟩
      refine ⟨⟨e, he⟩, (hfits e he).mpr fun hm => ?_⟩
      obtain ⟨i, c, hi, -⟩ := hexact hm
      exact hnot i hi

end Represents

end Parser

end Parsing
end MicroP4
