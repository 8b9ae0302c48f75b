import MicroP4.Parsing.Table

/-!
# The visit of an instance

Every instance is visited once, after its predecessor and before its successors.  Its visit
adds keys of which one belongs to a given initial offset, and rewrites the entries of that
offset (`Parser.visitInstance_select`); without a `select` it changes neither
(`Parser.visitInstance_goto`).
-/

namespace MicroP4
namespace Parsing

open BitString Assignments

variable {S H F X : Type}

/-! ## The order of the visit -/

namespace Parser

variable (P : Parser S H F X)

/-- The instances below one go on from it. -/
theorem exists_of_mem_created {fuel : ℕ} : ∀ {p q : List ℕ}, q ∈ P.created fuel p →
    ∃ r i, q = r ++ i :: p := by
  induction fuel with
  | zero => exact fun h => absurd h List.not_mem_nil
  | succ fuel ih =>
      intro p q hq
      rw [ParserDecl.created, List.mem_append] at hq
      rcases hq with hq | hq
      · obtain ⟨i, rfl⟩ := children_tail hq
        exact ⟨[], i, rfl⟩
      · obtain ⟨c, hc, hq⟩ := List.mem_flatMap.mp hq
        obtain ⟨i, rfl⟩ := children_tail (List.mem_reverse.mp hc)
        obtain ⟨r, j, rfl⟩ := ih hq
        exact ⟨r ++ [j], i, by simp⟩

theorem nodup_children (p : List ℕ) : (P.children p).Nodup := by
  rw [ParserDecl.children]
  split
  · exact List.nodup_range.map fun i j h => (List.cons.inj h).1
  · exact List.nodup_nil

/-- No instance is created twice. -/
theorem nodup_created (fuel : ℕ) : ∀ p, (P.created fuel p).Nodup := by
  induction fuel with
  | zero => exact fun p => List.nodup_nil
  | succ fuel ih =>
      intro p
      rw [ParserDecl.created]
      refine List.nodup_append.mpr ⟨P.nodup_children p, ?_, ?_⟩
      · rw [List.nodup_flatMap]
        refine ⟨fun c _ => ih c, (List.nodup_reverse.mpr (P.nodup_children p)).imp_of_mem ?_⟩
        intro a b ha hb hab q hqa hqb
        obtain ⟨i, rfl⟩ := children_tail (List.mem_reverse.mp ha)
        obtain ⟨j, rfl⟩ := children_tail (List.mem_reverse.mp hb)
        obtain ⟨r, k, rfl⟩ := P.exists_of_mem_created hqa
        obtain ⟨r', k', heq⟩ := P.exists_of_mem_created hqb
        have hsplit : (r ++ [k]) ++ i :: p = (r' ++ [k']) ++ j :: p := by
          rw [List.append_assoc, List.append_assoc]
          exact heq
        exact hab (List.append_inj' hsplit rfl).2
      · intro a ha b hb hab
        obtain ⟨i, rfl⟩ := children_tail ha
        obtain ⟨c, hc, hb⟩ := List.mem_flatMap.mp hb
        obtain ⟨j, rfl⟩ := children_tail (List.mem_reverse.mp hc)
        obtain ⟨r, k, rfl⟩ := P.exists_of_mem_created hb
        have hlen := congrArg List.length hab
        simp only [List.length_append, List.length_cons] at hlen
        omega

theorem nodup_instances : P.instances.Nodup := by
  refine List.nodup_cons.mpr ⟨fun h => ?_, P.nodup_created _ _⟩
  obtain ⟨r, i, hr⟩ := P.exists_of_mem_created h
  exact absurd hr.symm (List.append_ne_nil_of_right_ne_nil r (List.cons_ne_nil i []))

variable [DecidableEq S]

theorem mem_order {p : List ℕ} : p ∈ P.order ↔ ∃ s, P.targetOf p = some (.state s) := by
  rw [order, List.mem_flatMap]
  constructor
  · rintro ⟨s, -, hp⟩
    exact ⟨s, P.mem_evaluatedInstances.mp hp⟩
  · rintro ⟨s, hp⟩
    exact ⟨s, P.mem_sorted p s hp, P.mem_evaluatedInstances.mpr hp⟩

theorem nodup_order : P.order.Nodup := by
  rw [order, List.nodup_flatMap]
  refine ⟨fun s _ => P.nodup_instances.filter _, P.sorted_pairwise.imp fun hst p hs ht => ?_⟩
  have heq := (P.mem_evaluatedInstances.mp hs).symm.trans (P.mem_evaluatedInstances.mp ht)
  refine hst.1 ?_
  cases heq
  rfl

theorem visits_eq (initialOffsets : List ℕ) :
    P.visits initialOffsets = P.order.flatMap fun p => initialOffsets.map fun o => (p, o) := by
  rw [visits, order, List.flatMap_assoc]

/-- An instance is visited after its predecessor. -/
theorem mem_of_order_eq {done rest : List (List ℕ)} {p : List ℕ} (h : P.order = done ++ p :: rest)
    {i : ℕ} {q : List ℕ} (hp : p = i :: q) : q ∈ done := by
  obtain ⟨s, hs⟩ := P.mem_order.mp (h ▸ List.mem_append_right done List.mem_cons_self)
  rw [hp] at hs
  obtain ⟨t, ht, -⟩ := ParserDecl.targetOf_cons hs
  have hq : q ∈ done ++ p :: rest := h ▸ P.mem_order.mpr ⟨t, ht⟩
  have hpw := visits_pairwise (P := P) [0]
  rw [P.visits_eq, h] at hpw
  rcases List.mem_append.mp hq with hq | hq
  · exact hq
  rcases List.mem_cons.mp hq with hq | hq
  · rw [← hq] at hp
    exact absurd hp.symm (List.cons_ne_self i q)
  · simp only [List.map_cons, List.map_nil, List.flatMap_append, List.flatMap_cons] at hpw
    have hrel := (List.pairwise_cons.mp (List.pairwise_append.mp hpw).2.1).1 (q, 0)
      (List.mem_flatMap.mpr ⟨q, hq, List.mem_singleton.mpr rfl⟩) i
    exact absurd hp hrel

theorem not_mem_of_order_eq {done rest : List (List ℕ)} {p : List ℕ}
    (h : P.order = done ++ p :: rest) : p ∉ done := by
  have hnodup := P.nodup_order
  rw [h] at hnodup
  exact fun hp => (List.nodup_append.mp hnodup).2.2 p hp p List.mem_cons_self rfl

/-- An instance is visited before its successors. -/
theorem cons_not_mem_of_order_eq {done rest : List (List ℕ)} {p : List ℕ}
    (h : P.order = done ++ p :: rest) (i : ℕ) : i :: p ∉ done := by
  intro hmem
  obtain ⟨l₁, l₂, rfl⟩ := List.append_of_mem hmem
  rw [List.append_assoc, List.cons_append] at h
  have hp : p ∈ l₁ := P.mem_of_order_eq h rfl
  rw [← List.cons_append, ← List.append_assoc] at h
  exact P.not_mem_of_order_eq h (List.mem_append_left _ hp)

/-! ## The keys of an instance -/

section Keys

variable [DecidableEq H]

omit [DecidableEq H] in
theorem map_target_perFieldAsgns (h : H) (start start' : ℕ) (fs : List (F × ℕ)) :
    (perFieldAsgns h start fs : List (Asgn H F X)).map Asgn.target =
      (perFieldAsgns h start' fs : List (Asgn H F X)).map Asgn.target := by
  induction fs generalizing start start' with
  | nil => rfl
  | cons f fs ih =>
      rw [perFieldAsgns, perFieldAsgns, List.map_cons, List.map_cons, ih _ (start' + f.2)]

omit [DecidableEq S] in
/-- The initial offset has no influence on what is assigned. -/
theorem map_target_asgnsOf (p : List ℕ) (o o' : ℕ) :
    (P.asgnsOf p o).map Asgn.target = (P.asgnsOf p o').map Asgn.target := by
  rw [ParserDecl.asgnsOf, ParserDecl.asgnsOf, List.map_flatMap, List.map_flatMap]
  refine List.flatMap_congr fun s _ => ?_
  cases s with
  | extract h =>
      simp only [ParserDecl.substitute, ParserDecl.extractAsgns, List.map_append, List.map_cons]
      rw [map_target_perFieldAsgns h _ ((P.after p).2 h + o')]
  | assign x e => rfl

variable [DecidableEq F] [DecidableEq X]

omit [DecidableEq S] in
theorem isSome_substituted (p : List ℕ) (o o' : ℕ) (e : SelectExpr H F X) :
    (substituted (P.asgnsOf p o) e).isSome = (substituted (P.asgnsOf p o') e).isSome := by
  cases e with
  | expr e => rfl
  | loc l =>
      have hany : ∀ as : List (Asgn H F X), (substituted as (.loc l)).isSome =
          (as.map Asgn.target).any fun x => x = l := by
        intro as
        rw [substituted, Option.isSome_map, List.isSome_find?, List.any_map]
        rfl
      rw [hany, hany, P.map_target_asgnsOf p o o']

/-- The key for an expression of the `select` of an instance. -/
def keyRhs (p : List ℕ) (o : ℕ) (e : SelectExpr H F X) : Rhs H F X :=
  (substituted (P.asgnsOf p o) e).getD (.expr e.toExpr)

/-- The keys for one offset, without the declaration of the action. -/
def addKeys (p : List ℕ) (s : S) (n : NewKeys H F X) (o : ℕ) : NewKeys H F X :=
  if (P.transition s).hasSelectExpression && !n.unsubstKeyAdded then
    (P.transition s).selectExprs.foldl (addKey (P.matchType s) (P.asgnsOf p o)) n
  else n

/-- As no action of the instance is declared yet, the declarations are those of
`declareAction` and every offset adds its keys. -/
theorem foldl_synthesize {p : List ℕ} {s : S} (hp : P.targetOf p = some (.state s)) :
    ∀ {l : List ℕ} {done : List (List ℕ × ℕ)} {d : Decls H F X} (n : NewKeys H F X),
      P.Declared done d → l.Nodup → (∀ o ∈ l, (p, o) ∉ done) →
      (∀ o ∈ l, ∀ i q, p = i :: q → (q, o) ∈ done) →
      P.Declared (done ++ l.map fun o => (p, o)) (l.foldl (P.synthesize p s) (d, n)).1 ∧
        l.foldl (P.synthesize p s) (d, n) =
          (l.foldl (fun d o => P.declareAction d (p, o)) d, l.foldl (P.addKeys p s) n)
  | [], done, d, n, hd, _, _, _ => by
      rw [List.map_nil, List.append_nil]
      exact ⟨hd, rfl⟩
  | o :: l, done, d, n, hd, hnodup, hnot, hpred => by
      obtain ⟨hol, hl⟩ := List.nodup_cons.mp hnodup
      have hstep : P.synthesize p s (d, n) o = (P.declareAction d (p, o), P.addKeys p s n o) := by
        rw [synthesize, getActionName_state hp, hd.actionDecls p s hp,
          if_neg (hnot o List.mem_cons_self), if_neg (by simp)]
        rfl
      have hdeclared := hd.step hp fun i q hq => hpred o List.mem_cons_self i q hq
      rw [List.foldl_cons, hstep, List.map_cons, List.append_cons]
      refine foldl_synthesize hp (P.addKeys p s n o) hdeclared hl (fun o' ho' hmem => ?_)
        fun o' ho' i q hq => ?_
      · rcases List.mem_append.mp hmem with hmem | hmem
        · exact hnot o' (List.mem_cons_of_mem o ho') hmem
        · cases List.mem_singleton.mp hmem
          exact hol ho'
      · exact List.mem_append_left _ (hpred o' (List.mem_cons_of_mem o ho') i q hq)

theorem addKeys_substituted {p : List ℕ} {s : S} {e : SelectExpr H F X}
    {cases : List (Keyset × Target S)} (ht : P.transition s = .select [e] cases) {o : ℕ}
    {n : NewKeys H F X} (hn : n.unsubstKeyAdded = false) :
    P.addKeys p s n o = addKey (P.matchType s) (P.asgnsOf p o) n e := by
  rw [addKeys, hn, ht]
  rfl

/-- After a key that is not substituted no key is added. -/
theorem foldl_addKeys_of_unsubst (p : List ℕ) (s : S) (l : List ℕ) (ks : List (KeyElement H F X)) :
    l.foldl (P.addKeys p s) ⟨ks, true⟩ = ⟨ks, true⟩ := by
  induction l with
  | nil => rfl
  | cons o l ih =>
      rw [List.foldl_cons, addKeys, Bool.not_true, Bool.and_false, if_neg Bool.false_ne_true]
      exact ih

/-- A `select` of one expression has a key for every offset if the expression is assigned in
the state, and else one key. -/
theorem foldl_addKeys {p : List ℕ} {s : S} {e : SelectExpr H F X}
    {cases : List (Keyset × Target S)} (ht : P.transition s = .select [e] cases) (o : ℕ)
    (l : List ℕ) (hl : l ≠ []) : l.foldl (P.addKeys p s) ⟨[], false⟩ =
      if (substituted (P.asgnsOf p o) e).isSome then
        ⟨l.map fun o => ⟨P.keyRhs p o e, P.matchType s⟩, false⟩
      else ⟨[⟨P.keyRhs p o e, P.matchType s⟩], true⟩ := by
  by_cases h : (substituted (P.asgnsOf p o) e).isSome = true
  · have hall : ∀ (l : List ℕ) (ks : List (KeyElement H F X)),
        l.foldl (P.addKeys p s) ⟨ks, false⟩ =
          ⟨ks ++ l.map fun o => ⟨P.keyRhs p o e, P.matchType s⟩, false⟩ := by
      intro l
      induction l with
      | nil => exact fun ks => by simp
      | cons o' l ih =>
          intro ks
          rw [P.isSome_substituted p o o'] at h
          obtain ⟨r, hr⟩ := Option.isSome_iff_exists.mp h
          have hkey : P.keyRhs p o' e = r := by rw [keyRhs, hr, Option.getD_some]
          rw [List.foldl_cons, P.addKeys_substituted ht rfl, addKey, hr, ih]
          simp [hkey]
    rw [if_pos h, hall l [], List.nil_append]
  · have hnone : ∀ o', substituted (P.asgnsOf p o') e = none := by
      intro o'
      rw [P.isSome_substituted p o o'] at h
      exact Option.not_isSome_iff_eq_none.mp h
    obtain ⟨o', l, rfl⟩ := List.exists_cons_of_ne_nil hl
    rw [if_neg h, List.foldl_cons, P.addKeys_substituted ht rfl, addKey, hnone,
      P.foldl_addKeys_of_unsubst, keyRhs, hnone]
    rfl

theorem foldl_addKeys_goto {p : List ℕ} {s : S} {t : Target S} (ht : P.transition s = .goto t)
    (l : List ℕ) (n : NewKeys H F X) : l.foldl (P.addKeys p s) n = n := by
  induction l with
  | nil => rfl
  | cons o l ih =>
      rw [List.foldl_cons, addKeys, ht]
      exact ih

end Keys

/-! ## Visiting an instance -/

section Visit

theorem mem_addActions {names l : List ActName} {a : ActName} :
    a ∈ addActions l names ↔ a ∈ l ∨ a ∈ names := by
  unfold addActions
  induction names generalizing l with
  | nil => simp
  | cons b names ih =>
      rw [List.foldl_cons, ih]
      by_cases hb : b ∈ l
      · rw [if_pos hb, List.mem_cons]
        constructor
        · exact fun h => h.imp_right Or.inr
        · rintro (h | rfl | h)
          · exact Or.inl h
          · exact Or.inl hb
          · exact Or.inr h
      · rw [if_neg hb, List.mem_append, List.mem_singleton, List.mem_cons, or_assoc]

theorem mem_foldl_addActions {names : ℕ → List ActName} {l : List ℕ} {init : List ActName}
    {a : ActName} : a ∈ l.foldl (fun l o => addActions l (names o)) init ↔
      a ∈ init ∨ ∃ o ∈ l, a ∈ names o := by
  induction l generalizing init with
  | nil => simp
  | cons o l ih =>
      rw [List.foldl_cons, ih, mem_addActions]
      simp only [List.mem_cons, exists_eq_or_imp, or_assoc]

/-- Updating the entries of each offset in turn. -/
theorem foldl_update (f : ℕ × ℕ → List Entry → List Entry) {x : ℕ × ℕ} :
    ∀ {l : List (ℕ × ℕ)} (entries : ℕ → List Entry), (l.map Prod.fst).Nodup → x ∈ l →
      l.foldl (fun entries y => Function.update entries y.1 (f y (entries y.1))) entries x.1 =
        f x (entries x.1)
  | [], _, _, hx => absurd hx List.not_mem_nil
  | y :: l, entries, hnodup, hx => by
      obtain ⟨hy, hl⟩ := List.nodup_cons.mp hnodup
      rw [List.foldl_cons]
      rcases List.mem_cons.mp hx with rfl | hx
      · have hrest : ∀ (l : List (ℕ × ℕ)) (entries : ℕ → List Entry), x.1 ∉ l.map Prod.fst →
            l.foldl (fun entries y => Function.update entries y.1 (f y (entries y.1))) entries x.1 =
              entries x.1 := by
          intro l
          induction l with
          | nil => exact fun _ _ => rfl
          | cons z l ih =>
              intro entries hz
              rw [List.map_cons, List.mem_cons, not_or] at hz
              rw [List.foldl_cons, ih _ hz.2, Function.update_of_ne hz.1]
        rw [hrest l _ hy, Function.update_self]
      · have hne : x.1 ≠ y.1 := fun heq => hy (heq ▸ List.mem_map_of_mem hx)
        rw [foldl_update f _ hl hx, Function.update_of_ne hne]

variable [DecidableEq H] [DecidableEq F] [DecidableEq X]

variable {initialOffsets : List ℕ} {done : List (List ℕ × ℕ)} {t : Tables H F X} {p : List ℕ}
  {s : S} (hnodup : initialOffsets.Nodup) (hp : P.targetOf p = some (.state s))
  (hd : P.Declared done t.decls) (hnot : ∀ o ∈ initialOffsets, (p, o) ∉ done)
  (hpred : ∀ o ∈ initialOffsets, ∀ i q, p = i :: q → (q, o) ∈ done)

include hnodup hp hd hnot hpred

/-- What the visit of an instance does, in terms of the keys it adds. -/
theorem visitInstance_eq {n : NewKeys H F X}
    (hn : initialOffsets.foldl (P.addKeys p s) ⟨[], false⟩ = n)
    (hcheck : n.check initialOffsets.length = true) :
    ∃ t', P.visitInstance initialOffsets s t p = some t' ∧
      P.Declared (done ++ initialOffsets.map fun o => (p, o)) t'.decls ∧
      t'.decls = initialOffsets.foldl (fun d o => P.declareAction d (p, o)) t.decls ∧
      t'.actionList = initialOffsets.foldl (fun l o => addActions l (listedActions n
        (P.getActionName p o) (P.nextActions p s o) (t.entryListPerOffset o)))
        (addActions t.actionList (initialOffsets.map (P.getActionName p))) ∧
      t'.keyElementList = t.keyElementList ++ n.newKeyEles ∧
      ∀ a o b, initialOffsets = a ++ o :: b → t'.entryListPerOffset o =
        updateEntries n initialOffsets.length a.length (P.getActionName p o)
          (((P.transition s).nextParserStateInfo p).length ≠ 0) (P.nextActions p s o)
          (t.entryListPerOffset o) := by
  obtain ⟨hdeclared, hkeys⟩ := P.foldl_synthesize hp ⟨[], false⟩ hd hnodup hnot hpred
  rw [hn] at hkeys
  refine ⟨_, if_pos (by rw [hkeys]; exact hcheck), hdeclared, by rw [hkeys], by rw [hkeys],
    by rw [hkeys], ?_⟩
  intro a o b hab
  rw [hkeys]
  have hmem : (o, a.length) ∈ initialOffsets.zipIdx := by
    rw [hab, List.zipIdx_append, List.zipIdx_cons]
    simp
  refine foldl_update (fun y entries => updateEntries n initialOffsets.length y.2
    (P.getActionName p y.1) (((P.transition s).nextParserStateInfo p).length ≠ 0)
    (P.nextActions p s y.1) entries) t.entryListPerOffset ?_ hmem
  rw [List.zipIdx_map_fst]
  exact hnodup

/-- The visit of an instance without a `select` changes no key and no entry. -/
theorem visitInstance_goto {g : Target S} (hg : P.transition s = .goto g) :
    ∃ t', P.visitInstance initialOffsets s t p = some t' ∧
      P.Declared (done ++ initialOffsets.map fun o => (p, o)) t'.decls ∧
      t'.decls = initialOffsets.foldl (fun d o => P.declareAction d (p, o)) t.decls ∧
      t'.keyElementList = t.keyElementList ∧
      ∀ o ∈ initialOffsets, t'.entryListPerOffset o = t.entryListPerOffset o := by
  obtain ⟨t', hvisit, hdeclared, hdecls, -, hkeys, hentries⟩ := P.visitInstance_eq hnodup hp hd hnot
    hpred (P.foldl_addKeys_goto hg initialOffsets _) (by simp [NewKeys.check])
  refine ⟨t', hvisit, hdeclared, hdecls, by rw [hkeys, List.append_nil], fun o ho => ?_⟩
  obtain ⟨a, b, hab⟩ := List.append_of_mem ho
  rw [hentries a o b hab, updateEntries]
  exact if_pos rfl

/-- The visit of an instance with a `select` adds the key of each offset, and rewrites its
entries. -/
theorem visitInstance_select {e : SelectExpr H F X} {cases : List (Keyset × Target S)}
    (ht : P.transition s = .select [e] cases) (hcases : cases ≠ []) (hne : initialOffsets ≠ []) :
    ∃ t', P.visitInstance initialOffsets s t p = some t' ∧
      P.Declared (done ++ initialOffsets.map fun o => (p, o)) t'.decls ∧
      (∀ o ∈ initialOffsets, ((t.entryListPerOffset o).length = 0 ∨
        ∃ x ∈ t.entryListPerOffset o, x.action = .inst o p) →
        ∀ k ∈ P.nextActions p s o, k.2 ∈ t'.actionList) ∧
      ∀ a o b, initialOffsets = a ++ o :: b → ∃ l₁ l₂,
        (if (substituted (P.asgnsOf p o) e).isSome then
          l₁ = a.map (fun o => ⟨P.keyRhs p o e, P.matchType s⟩) ∧
            l₂ = b.map (fun o => ⟨P.keyRhs p o e, P.matchType s⟩)
        else l₁ = [] ∧ l₂ = []) ∧
        t'.keyElementList = t.keyElementList ++ (l₁ ++ ⟨P.keyRhs p o e, P.matchType s⟩ :: l₂) ∧
        t'.entryListPerOffset o =
          if (t.entryListPerOffset o).length = 0 then
            (P.nextActions p s o).map fun k => ⟨[k.1], k.2⟩
          else (t.entryListPerOffset o).flatMap (rewriteEntry (.inst o p) (P.nextActions p s o)
            l₁.length l₂.length (l₁.length + (l₂.length + 1))) := by
  have hnext : (((P.transition s).nextParserStateInfo p).length ≠ 0) := by
    rw [ht, Transition.nextParserStateInfo, List.length_map, List.length_zipIdx]
    exact fun h => hcases (List.length_eq_zero_iff.mp h)
  obtain ⟨o₀, ho₀⟩ := List.exists_mem_of_ne_nil _ hne
  have hkeys := P.foldl_addKeys ht o₀ initialOffsets hne (p := p)
  -- keys are added, so the next actions of the entries that are replaced are listed
  have hlisted : ∀ n : NewKeys H F X, n.newKeyEles.length ≠ 0 → ∀ o ∈ initialOffsets,
      ((t.entryListPerOffset o).length = 0 ∨ ∃ x ∈ t.entryListPerOffset o, x.action = .inst o p) →
      ∀ k ∈ P.nextActions p s o, k.2 ∈ initialOffsets.foldl (fun l o => addActions l
        (listedActions n (P.getActionName p o) (P.nextActions p s o) (t.entryListPerOffset o)))
        (addActions t.actionList (initialOffsets.map (P.getActionName p))) := by
    intro n hn o ho hentry k hk
    refine mem_foldl_addActions.mpr (Or.inr ⟨o, ho, ?_⟩)
    rw [listedActions, if_neg hn, getActionName_state hp]
    by_cases hnil : (t.entryListPerOffset o).length = 0
    · rw [if_pos hnil]
      exact List.mem_map_of_mem hk
    · obtain ⟨x, hx, hact⟩ := hentry.resolve_left hnil
      rw [if_neg hnil]
      refine List.mem_flatMap.mpr ⟨x, hx, ?_⟩
      rw [if_pos hact]
      exact List.mem_map_of_mem hk
  by_cases h : (substituted (P.asgnsOf p o₀) e).isSome = true
  · rw [if_pos h] at hkeys
    obtain ⟨t', hvisit, hdeclared, -, hlist, hkeyList, hentries⟩ :=
      P.visitInstance_eq hnodup hp hd hnot hpred hkeys (by simp [NewKeys.check])
    refine ⟨t', hvisit, hdeclared, ?_, fun a o b hab =>
      ⟨a.map fun o => ⟨P.keyRhs p o e, P.matchType s⟩,
        b.map fun o => ⟨P.keyRhs p o e, P.matchType s⟩, ?_, ?_, ?_⟩⟩
    · rw [hlist]
      exact hlisted _ (by simpa using hne)
    · rw [P.isSome_substituted p o o₀, if_pos h]
      exact ⟨rfl, rfl⟩
    · rw [hkeyList, hab, List.map_append, List.map_cons]
    · have hsuff : initialOffsets.length - (a.length + 1) = b.length := by
        rw [hab, List.length_append, List.length_cons]
        omega
      rw [hentries a o b hab, getActionName_state hp, updateEntries, hsuff]
      simp [hnext, hab]
  · rw [if_neg h] at hkeys
    obtain ⟨t', hvisit, hdeclared, -, hlist, hkeyList, hentries⟩ :=
      P.visitInstance_eq hnodup hp hd hnot hpred hkeys (by simp [NewKeys.check])
    refine ⟨t', hvisit, hdeclared, ?_, fun a o b hab => ⟨[], [], ?_, ?_, ?_⟩⟩
    · rw [hlist]
      exact hlisted _ (by simp)
    · rw [P.isSome_substituted p o o₀, if_neg h]
      exact ⟨rfl, rfl⟩
    · have hkey : P.keyRhs p o₀ e = P.keyRhs p o e := by
        have hnone := Option.not_isSome_iff_eq_none.mp h
        rw [P.isSome_substituted p o₀ o] at h
        rw [keyRhs, keyRhs, hnone, Option.not_isSome_iff_eq_none.mp h]
      rw [hkeyList, hkey]
      rfl
    · rw [hentries a o b hab, getActionName_state hp, updateEntries]
      simp [hnext]

end Visit

end Parser

end Parsing
end MicroP4
