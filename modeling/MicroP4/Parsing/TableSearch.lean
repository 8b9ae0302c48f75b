import MicroP4.Parsing.TableVisit

/-!
# What the table selects

An entry that is bound to the action of an instance with a `select` is replaced when the
instance is visited.  At the end the matching entries are those a depth-first trial of the
cases comes to (`ParserDecl.stops`): it takes every case whose keyset contains the value of the
key, skips `accept`, and stops at `reject` and at states without a `select`.  The table takes
the first one of them, so a state that none of whose cases matches is not rejected: the trial
goes back to the cases of the states in front of it.
-/

namespace MicroP4
namespace Parsing

open BitString Assignments

variable {S H F X : Type}

/-! ## The trial of the cases -/

namespace ParserDecl

variable (P : ParserDecl S H F X) [DecidableEq S]

/-- Where a depth-first trial of the cases stops, below an instance, if the values of the
`select` of an instance are `val`. -/
def stops (val : List ℕ → List Value) (o : ℕ) : ℕ → List ℕ → List ActName
  | 0, _ => []
  | fuel + 1, p =>
      match P.targetOf p with
      | some (.state s) =>
          if (P.transition s).hasSelectExpression then
            ((P.transition s).nextParserStateInfo p).flatMap fun n =>
              if n.1.contains (val p) then stops val o fuel n.2 else []
          else [.inst o p]
      | some .reject => [.reject]
      | _ => []

end ParserDecl

namespace Parser

variable (P : Parser S H F X) [DecidableEq S]

/-! ## Expanding names -/

section Expand

variable (val : List ℕ → List Value) (o : ℕ)

/-- What the name of an action becomes when an instance is visited. -/
def expand (p : List ℕ) (a : ActName) : List ActName :=
  match P.targetOf p with
  | some (.state s) =>
      if a = .inst o p ∧ (P.transition s).hasSelectExpression then
        ((P.nextActions p s o).filter fun n => n.1.contains (val p)).map Prod.snd
      else [a]
  | _ => [a]

/-- What names become when instances are visited in order. -/
def expandAll (l : List (List ℕ)) (names : List ActName) : List ActName :=
  l.foldl (fun names p => names.flatMap (P.expand val o p)) names

theorem expandAll_eq_flatMap (l : List (List ℕ)) (names : List ActName) :
    P.expandAll val o l names = names.flatMap fun a => P.expandAll val o l [a] := by
  induction l generalizing names with
  | nil => exact (List.flatMap_singleton' names).symm
  | cons p l ih =>
      show P.expandAll val o l (names.flatMap (P.expand val o p)) =
        names.flatMap fun a => P.expandAll val o l ([a].flatMap (P.expand val o p))
      rw [ih, List.flatMap_assoc]
      simp only [List.flatMap_singleton]
      congr 1
      funext a
      exact (ih _).symm

/-- Only the names of visited instances change. -/
theorem expandAll_of_not_mem {l : List (List ℕ)} {a : ActName} (h : ∀ p ∈ l, a ≠ .inst o p) :
    P.expandAll val o l [a] = [a] := by
  induction l with
  | nil => rfl
  | cons p l ih =>
      have hp : P.expand val o p a = [a] := by
        unfold expand
        split
        · rw [if_neg fun hc => h p List.mem_cons_self hc.1]
        · rfl
      show P.expandAll val o l ([a].flatMap (P.expand val o p)) = [a]
      rw [List.flatMap_singleton, hp]
      exact ih fun q hq => h q (List.mem_cons_of_mem p hq)

omit [DecidableEq S] in
theorem mem_nextParserStateInfo {p : List ℕ} {s : S} (hp : P.targetOf p = some (.state s))
    {n : Keyset × List ℕ} (hn : n ∈ (P.transition s).nextParserStateInfo p) :
    ∃ i t, n.2 = i :: p ∧ P.targetOf (i :: p) = some t := by
  cases ht : P.transition s with
  | goto t => simp [ht, Transition.nextParserStateInfo] at hn
  | select es cases =>
      rw [ht, Transition.nextParserStateInfo] at hn
      obtain ⟨c, hc, rfl⟩ := List.mem_map.mp hn
      have hi := List.mem_zipIdx' hc
      refine ⟨c.2, c.1.2, rfl, ?_⟩
      rw [ParserDecl.targetOf, hp]
      show (P.transition s).targets[c.2]? = some c.1.2
      rw [ht, Transition.targets, List.getElem?_map, List.getElem?_eq_getElem hi.1, ← hi.2]
      rfl

omit [DecidableEq S] in
/-- The names the trial comes to. -/
theorem mem_stops {o : ℕ} {val : List ℕ → List Value} {fuel : ℕ} : ∀ {p : List ℕ} {a : ActName},
    a ∈ P.stops val o fuel p → a = .reject ∨ ∃ q, a = .inst o q ∧ p <:+ q := by
  induction fuel with
  | zero => exact fun h => absurd h List.not_mem_nil
  | succ fuel ih =>
      intro p a ha
      rw [ParserDecl.stops] at ha
      split at ha
      · split at ha
        · rename_i s hp _
          obtain ⟨n, hn, ha⟩ := List.mem_flatMap.mp ha
          obtain ⟨i, t, hi, -⟩ := P.mem_nextParserStateInfo hp hn
          split at ha
          · refine (ih ha).imp_right ?_
            rintro ⟨q, rfl, hq⟩
            rw [hi] at hq
            exact ⟨q, rfl, (List.suffix_cons i p).trans hq⟩
          · exact absurd ha List.not_mem_nil
        · exact Or.inr ⟨p, List.mem_singleton.mp ha, List.suffix_rfl⟩
      · exact Or.inl (List.mem_singleton.mp ha)
      · exact absurd ha List.not_mem_nil

theorem nextActions_flatMap (p : List ℕ) (s : S) (f : ActName → List ActName) :
    (((P.nextActions p s o).filter fun n => n.1.contains (val p)).map Prod.snd).flatMap f =
      ((P.transition s).nextParserStateInfo p).flatMap fun n =>
        if n.1.contains (val p) ∧ P.targetOf n.2 ≠ some .accept then
          f (P.getActionName n.2 o) else [] := by
  unfold nextActions
  induction (P.transition s).nextParserStateInfo p with
  | nil => rfl
  | cons n l ih =>
      rw [List.flatMap_cons, ← ih]
      by_cases ha : P.targetOf n.2 = some .accept <;> by_cases hc : n.1.contains (val p) = true <;>
        simp [ha, hc]

/-- Expanding the name of an instance by all that are visited gives the trial below it. -/
theorem expandAll_inst {fuel : ℕ} : ∀ {p : List ℕ} {s : S} {done rest : List (List ℕ)},
    P.targetOf p = some (.state s) → P.rank s + 1 < fuel → P.order = done ++ rest → p ∉ done →
      P.expandAll val o rest [.inst o p] = P.stops val o fuel p := by
  induction fuel with
  | zero => exact fun _ h => absurd h (Nat.not_lt_zero _)
  | succ fuel ih =>
      intro p s done rest hp hs horder hdone
      have hrest : p ∈ rest :=
        (List.mem_append.mp (horder ▸ P.mem_order.mpr ⟨s, hp⟩)).resolve_left hdone
      obtain ⟨l₁, l₂, rfl⟩ := List.append_of_mem hrest
      have hmiddle : P.order = done ++ l₁ ++ p :: l₂ := by rw [horder, List.append_assoc]
      have hl₁ : p ∉ l₁ := fun h =>
        P.not_mem_of_order_eq hmiddle (List.mem_append_right done h)
      have hl₂ : p ∉ l₂ := by
        have hnodup := P.nodup_order
        rw [hmiddle] at hnodup
        exact (List.nodup_cons.mp (List.nodup_append.mp hnodup).2.1).1
      have hsplit : P.expandAll val o (l₁ ++ p :: l₂) [.inst o p] =
          P.expandAll val o l₂ (P.expand val o p (.inst o p)) := by
        rw [expandAll, List.foldl_append]
        show P.expandAll val o (p :: l₂) (P.expandAll val o l₁ [.inst o p]) = _
        rw [expandAll_of_not_mem P val o fun q hq heq => by cases heq; exact hl₁ hq]
        show P.expandAll val o l₂ ([ActName.inst o p].flatMap (P.expand val o p)) = _
        rw [List.flatMap_singleton]
      rw [hsplit, ParserDecl.stops, expand, hp]
      by_cases hsel : (P.transition s).hasSelectExpression = true
      · simp only [hsel, and_self, if_true]
        rw [expandAll_eq_flatMap, nextActions_flatMap]
        refine List.flatMap_congr fun n hn => ?_
        obtain ⟨i, t, hi, ht⟩ := P.mem_nextParserStateInfo hp hn
        obtain ⟨fuel, rfl⟩ : ∃ m, fuel = m + 1 := ⟨fuel - 1, by omega⟩
        rw [hi, ht]
        cases t with
        | accept => simp [ParserDecl.stops, ht]
        | reject =>
            have hname : P.getActionName (i :: p) o = .reject := if_pos ht
            have hstay := P.expandAll_of_not_mem val o (l := l₂) (a := .reject) fun q _ heq => by
              cases heq
            simp [ParserDecl.stops, ht, hname, hstay]
        | state t =>
            have hrank : P.rank t < P.rank s := P.rank_lt s t (mem_targets hp ht)
            have hchild : i :: p ∉ done ++ l₁ ++ [p] := by
              intro hmem
              rcases List.mem_append.mp hmem with hmem | hmem
              · exact P.cons_not_mem_of_order_eq hmiddle i hmem
              · exact List.cons_ne_self i p (List.mem_singleton.mp hmem)
            have hend : P.order = done ++ l₁ ++ [p] ++ l₂ := by
              rw [hmiddle, List.append_assoc (done ++ l₁)]
              rfl
            rw [getActionName_state ht, ih ht (by omega) hend hchild]
            simp
      · simp only [hsel, and_false, if_false, Bool.false_eq_true]
        exact P.expandAll_of_not_mem val o fun q hq heq => by
          cases heq
          exact hl₂ hq

end Expand

/-! ## Rewriting entries -/

/-- The keyset of a case, in an entry with `m` keysets. -/
def caseKeyset (m : ℕ) (k : Keyset) : Keyset := if m = 0 then k else k.withMask

theorem containsValue_caseKeyset (m : ℕ) (k : Keyset) :
    (caseKeyset m k).containsValue = k.containsValue := by
  rw [caseKeyset]
  split
  · rfl
  · unfold Keyset.withMask
    split
    · funext v
      rfl
    · rfl

/-- The further keysets, and actions, of what replaces an entry with `l` keysets that is bound
to an action. -/
def newColumns (name : ActName) (nexts : List (Keyset × ActName)) (l m n : ℕ) (a : ActName) :
    List Entry :=
  if a = name then
    nexts.map fun k =>
      ⟨List.replicate m .default ++ caseKeyset l k.1 :: List.replicate n .default, k.2⟩
  else [⟨List.replicate (m + (n + 1)) .default, a⟩]

theorem rewriteEntry_eq (name : ActName) (nexts : List (Keyset × ActName)) (m n : ℕ) (e : Entry) :
    rewriteEntry name nexts m n (m + (n + 1)) e =
      (newColumns name nexts e.keys.length m n e.action).map e.append := by
  rw [rewriteEntry, newColumns]
  split
  · rw [List.map_map]
    rfl
  · rfl

theorem hits_newColumns (name : ActName) (nexts : List (Keyset × ActName)) (l : ℕ)
    (vs vs' : List Value) (v : Value) (a : ActName) :
    MatchTable.hits Keyset.containsValue (vs ++ v :: vs')
      (newColumns name nexts l vs.length vs'.length a) =
        if a = name then (nexts.filter fun n => n.1.contains [v]).map Prod.snd else [a] := by
  have hdefault : ∀ v, Keyset.containsValue .default v = true := fun v => rfl
  rw [newColumns]
  by_cases ha : a = name
  · rw [if_pos ha, if_pos ha]
    induction nexts with
    | nil => rfl
    | cons n nexts ih =>
        rw [List.map_cons, MatchTable.hits_cons, ih, MatchTable.matchKeys_column _ hdefault,
          containsValue_caseKeyset, List.filter_cons, Keyset.containsValue]
        split <;> rfl
  · have hlen : vs.length + (vs'.length + 1) = (vs ++ v :: vs').length := by
      rw [List.length_append, List.length_cons]
    rw [if_neg ha, if_neg ha, MatchTable.hits_cons, hlen,
      if_pos (MatchTable.matchKeys_replicate _ hdefault _), MatchTable.hits_nil]

/-- What becomes of the matching entries when the entries are rewritten: the new column of the
offset decides which of the next actions match. -/
theorem hits_rewriteEntry {entries : List Entry} {vals vs vs' : List Value} {v : Value}
    (hshape : ∀ e ∈ entries, e.keys.length = vals.length) (name : ActName)
    (nexts : List (Keyset × ActName)) :
    MatchTable.hits Keyset.containsValue (vals ++ (vs ++ v :: vs')) (entries.flatMap
      (rewriteEntry name nexts vs.length vs'.length (vs.length + (vs'.length + 1)))) =
      (MatchTable.hits Keyset.containsValue vals entries).flatMap fun a =>
        if a = name then (nexts.filter fun n => n.1.contains [v]).map Prod.snd else [a] := by
  have heq : entries.flatMap (rewriteEntry name nexts vs.length vs'.length
      (vs.length + (vs'.length + 1))) = entries.flatMap fun e =>
        (newColumns name nexts vals.length vs.length vs'.length e.action).map e.append :=
    List.flatMap_congr fun e he => by rw [rewriteEntry_eq, hshape e he]
  rw [heq, MatchTable.hits_flatMap_append _ hshape]
  exact List.flatMap_congr fun a _ => hits_newColumns name nexts vals.length vs vs' v a

/-- The new entries have a keyset in every new column. -/
theorem length_of_mem_rewriteEntry {e e' : Entry} {name : ActName}
    {nexts : List (Keyset × ActName)} {m n : ℕ}
    (h : e' ∈ rewriteEntry name nexts m n (m + (n + 1)) e) :
    e'.keys.length = e.keys.length + (m + (n + 1)) := by
  unfold rewriteEntry at h
  split at h
  · obtain ⟨k, -, rfl⟩ := List.mem_map.mp h
    simp
  · rw [List.mem_singleton.mp h]
    simp

/-! ## Runs over the instances -/

section Runs

variable [DecidableEq H] [DecidableEq F] [DecidableEq X]

/-- What every visit preserves holds after all visits. -/
theorem foldlM_order {initialOffsets : List ℕ} (Inv : List (List ℕ) → Tables H F X → Prop)
    (hstep : ∀ done p rest s t, P.order = done ++ p :: rest → P.targetOf p = some (.state s) →
      Inv done t → ∃ t', P.visitInstance initialOffsets s t p = some t' ∧ Inv (done ++ [p]) t')
    {t₀ : Tables H F X} (h₀ : Inv [] t₀) :
    ∃ t, P.sorted.foldlM (P.stateIterator initialOffsets) t₀ = some t ∧ Inv P.order t := by
  have hinner : ∀ (ps done rest : List (List ℕ)) (s : S) (t : Tables H F X),
      P.order = done ++ (ps ++ rest) → (∀ p ∈ ps, P.targetOf p = some (.state s)) → Inv done t →
      ∃ t', ps.foldlM (P.visitInstance initialOffsets s) t = some t' ∧ Inv (done ++ ps) t' := by
    intro ps
    induction ps with
    | nil => exact fun done rest s t _ _ ht => ⟨t, rfl, by rwa [List.append_nil]⟩
    | cons p ps ih =>
        intro done rest s t horder hps ht
        obtain ⟨t₁, ht₁, hinv⟩ := hstep done p (ps ++ rest) s t horder (hps p List.mem_cons_self) ht
        obtain ⟨t₂, ht₂, hinv₂⟩ := ih (done ++ [p]) rest s t₁ (by rw [horder]; simp)
          (fun q hq => hps q (List.mem_cons_of_mem p hq)) hinv
        refine ⟨t₂, ?_, by rwa [List.append_assoc] at hinv₂⟩
        rw [List.foldlM_cons, ht₁]
        exact ht₂
  have houter : ∀ (ss : List S) (done : List (List ℕ)) (t : Tables H F X),
      P.order = done ++ ss.flatMap P.evaluatedInstances → Inv done t →
      ∃ t', ss.foldlM (P.stateIterator initialOffsets) t = some t' ∧ Inv P.order t' := by
    intro ss
    induction ss with
    | nil =>
        intro done t horder ht
        rw [List.flatMap_nil, List.append_nil] at horder
        exact ⟨t, rfl, horder ▸ ht⟩
    | cons s ss ih =>
        intro done t horder ht
        rw [List.flatMap_cons] at horder
        obtain ⟨t₁, ht₁, hinv⟩ := hinner _ done _ s t horder
          (fun p hp => P.mem_evaluatedInstances.mp hp) ht
        obtain ⟨t₂, ht₂, hinv₂⟩ := ih _ t₁ (by rw [horder, List.append_assoc]) hinv
        refine ⟨t₂, ?_, hinv₂⟩
        rw [List.foldlM_cons, stateIterator, ht₁]
        exact ht₂
  exact houter P.sorted [] t₀ rfl h₀

/-- What every visit that succeeds preserves holds if all visits do. -/
theorem of_foldlM_order {initialOffsets : List ℕ} (Inv : List (List ℕ) → Tables H F X → Prop)
    (hstep : ∀ done p rest s t t', P.order = done ++ p :: rest →
      P.targetOf p = some (.state s) → Inv done t →
      P.visitInstance initialOffsets s t p = some t' → Inv (done ++ [p]) t')
    {t₀ t : Tables H F X} (h₀ : Inv [] t₀)
    (h : P.sorted.foldlM (P.stateIterator initialOffsets) t₀ = some t) : Inv P.order t := by
  have hinner : ∀ (ps done rest : List (List ℕ)) (s : S) (t t' : Tables H F X),
      P.order = done ++ (ps ++ rest) → (∀ p ∈ ps, P.targetOf p = some (.state s)) → Inv done t →
      ps.foldlM (P.visitInstance initialOffsets s) t = some t' → Inv (done ++ ps) t' := by
    intro ps
    induction ps with
    | nil =>
        intro done rest s t t' _ _ ht hrun
        cases hrun
        rwa [List.append_nil]
    | cons p ps ih =>
        intro done rest s t t' horder hps ht hrun
        rw [List.foldlM_cons, Option.bind_eq_bind, Option.bind_eq_some_iff] at hrun
        obtain ⟨t₁, ht₁, hrun⟩ := hrun
        have hinv := hstep done p (ps ++ rest) s t t₁ horder (hps p List.mem_cons_self) ht ht₁
        have hrest := ih (done ++ [p]) rest s t₁ t' (by rw [horder]; simp)
          (fun q hq => hps q (List.mem_cons_of_mem p hq)) hinv hrun
        rwa [List.append_assoc] at hrest
  have houter : ∀ (ss : List S) (done : List (List ℕ)) (t t' : Tables H F X),
      P.order = done ++ ss.flatMap P.evaluatedInstances → Inv done t →
      ss.foldlM (P.stateIterator initialOffsets) t = some t' → Inv P.order t' := by
    intro ss
    induction ss with
    | nil =>
        intro done t t' horder ht hrun
        cases hrun
        rw [List.flatMap_nil, List.append_nil] at horder
        exact horder ▸ ht
    | cons s ss ih =>
        intro done t t' horder ht hrun
        rw [List.flatMap_cons] at horder
        rw [List.foldlM_cons, Option.bind_eq_bind, Option.bind_eq_some_iff] at hrun
        obtain ⟨t₁, ht₁, hrun⟩ := hrun
        have hinv := hinner _ done _ s t t₁ horder (fun p hp => P.mem_evaluatedInstances.mp hp)
          ht ht₁
        exact ih _ t₁ t' (by rw [horder, List.append_assoc]) hinv hrun
  exact houter P.sorted [] t₀ t rfl h₀ h

end Runs

/-! ## The root of the entries -/

omit [DecidableEq S] in
theorem exists_cons_suffix {p q : List ℕ} (h : p <:+ q) (hne : p ≠ q) : ∃ i, i :: p <:+ q := by
  obtain ⟨r, rfl⟩ := h
  have hr : r ≠ [] := by
    rintro rfl
    exact hne rfl
  obtain ⟨r', i, rfl⟩ := (List.eq_nil_or_concat r).resolve_left hr
  exact ⟨i, r', by rw [List.concat_eq_append, List.append_assoc, List.singleton_append]⟩

omit [DecidableEq S] in
/-- An instance on the way to a state leads to a state. -/
theorem exists_state_of_suffix {p q : List ℕ} {s : S} (hq : P.targetOf q = some (.state s))
    (h : p <:+ q) : ∃ t, P.targetOf p = some (.state t) := by
  obtain ⟨r, rfl⟩ := h
  by_cases hr : r = []
  · rw [hr] at hq
    exact ⟨s, hq⟩
  · exact P.targetOf_of_append hq hr

/-- Only unconditional transitions lead to an instance. -/
def Leads (root : List ℕ) : Prop :=
  ∀ q, q <:+ root → q ≠ root → ∃ s t, P.targetOf q = some (.state s) ∧ P.transition s = .goto t

variable {P} in
omit [DecidableEq S] in
/-- Instances are below such an instance or in front of it. -/
theorem Leads.suffix_or {root : List ℕ} {s₀ : S} (h : P.Leads root)
    (hroot : P.targetOf root = some (.state s₀)) :
    ∀ {p : List ℕ} {s : S}, P.targetOf p = some (.state s) →
      root <:+ p ∨ (p <:+ root ∧ p ≠ root)
  | [], _, _ => by
      by_cases hnil : root = []
      · rw [hnil]
        exact Or.inl List.suffix_rfl
      · exact Or.inr ⟨List.nil_suffix, Ne.symm hnil⟩
  | i :: p, s, hp => by
      obtain ⟨s', hs', hi⟩ := ParserDecl.targetOf_cons hp
      rcases Leads.suffix_or h hroot hs' with hbelow | ⟨hfront, hne⟩
      · exact Or.inl (hbelow.trans (List.suffix_cons i p))
      · -- the only transition of the instance is the one to the root
        obtain ⟨s'', t, hs'', ht⟩ := h p hfront hne
        obtain ⟨j, hj⟩ := exists_cons_suffix hfront hne
        obtain ⟨t', ht'⟩ := P.exists_state_of_suffix hroot hj
        obtain ⟨s₃, hs₃, hj'⟩ := ParserDecl.targetOf_cons ht'
        have hs₁ : s' = s'' := by
          rw [hs'] at hs''
          cases hs''
          rfl
        have hs₂ : s₃ = s'' := by
          rw [hs₃] at hs''
          cases hs''
          rfl
        subst hs₁ hs₂
        rw [ht, Transition.targets] at hi hj'
        have hi0 := (List.getElem?_eq_some_iff.mp hi).1
        have hj0 := (List.getElem?_eq_some_iff.mp hj').1
        obtain rfl : i = j := by
          rw [List.length_singleton] at hi0 hj0
          omega
        by_cases hroot' : i :: p = root
        · rw [hroot']
          exact Or.inl List.suffix_rfl
        · exact Or.inr ⟨hj, hroot'⟩

/-- An instance is visited after all in front of it. -/
theorem mem_of_suffix {q : List ℕ} : ∀ {done rest : List (List ℕ)} {p : List ℕ},
    P.order = done ++ p :: rest → q <:+ p → q ≠ p → q ∈ done
  | done, rest, [], _, h, hne => absurd (List.suffix_nil.mp h) hne
  | done, rest, i :: p, horder, h, hne => by
      have hp : p ∈ done := P.mem_of_order_eq horder rfl
      have hq : q <:+ p := (List.suffix_cons_iff.mp h).resolve_left hne
      by_cases hqp : q = p
      · rwa [hqp]
      · obtain ⟨l₁, l₂, rfl⟩ := List.append_of_mem hp
        rw [List.append_assoc, List.cons_append] at horder
        exact List.mem_append_left _ (mem_of_suffix horder hq hqp)

/-- The instance the entries start from: the start state, and where there are no entries in
front of the visit, because 0 is the only initial offset, the first state with a `select`. -/
structure IsRoot (initialOffsets : List ℕ) (root : List ℕ) : Prop where
  nil : initialOffsets ≠ [0] → root = []
  select : initialOffsets = [0] →
    ∃ s, P.targetOf root = some (.state s) ∧ (P.transition s).hasSelectExpression = true
  leads : P.Leads root

/-! ## The invariant of the visit -/

section Invariant

variable [DecidableEq H] [DecidableEq F] [DecidableEq X]

/-- The values of the keys that are synthesized for the `select` of an instance. -/
def keyValue (st : ℕ → Word) (σ : Store H F X) (o : ℕ) (p : List ℕ) : List Value :=
  match P.targetOf p with
  | some (.state s) =>
      (P.transition s).selectExprs.map fun e => ((P.keyRhs p o e).toExpr st).eval σ
  | _ => []

/-- The entries of an offset, after the visit of `done`.  In front of the visit of the root
the list may be empty, and stands for an entry without keys that is bound to the root. -/
structure Tabled (initialOffsets root : List ℕ) (st : ℕ → Word) (σ : Store H F X)
    (done : List (List ℕ)) (t : Tables H F X) (o : ℕ) (entries : List Entry) : Prop where
  entries_eq : (t.entryListPerOffset o = entries ∧ t.keyElementList ≠ []) ∨
    (initialOffsets = [0] ∧ t.keyElementList = [] ∧ t.entryListPerOffset o = [] ∧
      entries = [⟨[], .inst o root⟩] ∧ root ∉ done)
  shape : ∀ e ∈ entries, e.keys.length = t.keyElementList.length
  hits : MatchTable.hits Keyset.containsValue (keyValues st σ t.keyElementList) entries =
    P.expandAll (P.keyValue st σ o) o done
      (if initialOffsets = [0] ∨ σ .currOffset = .num o then [.inst o root] else [])
  covered : ∀ q s, P.targetOf q = some (.state s) → q ∉ done → root <:+ q →
    ∃ e ∈ entries, ∃ a, e.action = .inst o a ∧ a <:+ q

variable {P} {initialOffsets root : List ℕ} {st : ℕ → Word} {σ : Store H F X}
  {done rest : List (List ℕ)} {t t' : Tables H F X} {p : List ℕ} {s : S} {o : ℕ}
  {entries : List Entry}

omit [DecidableEq H] [DecidableEq F] [DecidableEq X] in
theorem expandAll_concat (val : List ℕ → List Value) (names : List ActName) :
    P.expandAll val o (done ++ [p]) names =
      (P.expandAll val o done names).flatMap (P.expand val o p) := by
  rw [expandAll, List.foldl_append]
  rfl

/-- A visit that changes nothing keeps the invariant. -/
theorem Tabled.goto (h : P.Tabled initialOffsets root st σ done t o entries)
    (hroot : P.IsRoot initialOffsets root) (hp : P.targetOf p = some (.state s)) {g : Target S}
    (hg : P.transition s = .goto g) (hkeys : t'.keyElementList = t.keyElementList)
    (hentries : t'.entryListPerOffset o = t.entryListPerOffset o) :
    P.Tabled initialOffsets root st σ (done ++ [p]) t' o entries := by
  refine ⟨?_, ?_, ?_, fun q s' hq hmem => ?_⟩
  · rw [hkeys, hentries]
    refine h.entries_eq.imp_right ?_
    rintro ⟨hzero, hnil, hnone, heq, hnot⟩
    refine ⟨hzero, hnil, hnone, heq, fun hmem => ?_⟩
    rcases List.mem_append.mp hmem with hmem | hmem
    · exact hnot hmem
    · -- the root has a `select`
      obtain ⟨s₀, hs₀, hsel⟩ := hroot.select hzero
      rw [List.mem_singleton.mp hmem, hp] at hs₀
      cases hs₀
      rw [hg] at hsel
      cases hsel
  · rw [hkeys]
    exact h.shape
  · have hexpand : P.expand (P.keyValue st σ o) o p = fun a => [a] := by
      funext a
      rw [expand, hp]
      exact if_neg fun hc => by
        rw [hg] at hc
        cases hc.2
    rw [hkeys, h.hits, expandAll_concat, hexpand, List.flatMap_singleton']
  · exact h.covered q s' hq fun hdone => hmem (List.mem_append_left _ hdone)

omit [DecidableEq H] [DecidableEq F] [DecidableEq X] in
theorem mem_nextActions {i : ℕ} {s' : S} (hp : P.targetOf p = some (.state s))
    (hsel : (P.transition s).hasSelectExpression = true)
    (hi : P.targetOf (i :: p) = some (.state s')) :
    ∃ k, (k, .inst o (i :: p)) ∈ P.nextActions p s o := by
  obtain ⟨s₁, hs₁, hget⟩ := ParserDecl.targetOf_cons hi
  rw [hp] at hs₁
  cases hs₁
  cases ht : P.transition s with
  | goto g =>
      rw [ht] at hsel
      cases hsel
  | select es cases =>
      rw [ht, Transition.targets, List.getElem?_map, Option.map_eq_some_iff] at hget
      obtain ⟨c, hc, -⟩ := hget
      refine ⟨c.1, List.mem_map.mpr ⟨(c.1, i :: p), List.mem_filter.mpr ⟨?_, ?_⟩, ?_⟩⟩
      · rw [ht, Transition.nextParserStateInfo]
        exact List.mem_map.mpr ⟨(c, i), List.mk_mem_zipIdx_iff_getElem?.mpr hc, rfl⟩
      · simp [hi]
      · rw [getActionName_state hi]

/-- A visit that rewrites the entries keeps the invariant. -/
theorem Tabled.select (h : P.Tabled initialOffsets root st σ done t o entries)
    (horder : P.order = done ++ p :: rest)
    (hroot : P.IsRoot initialOffsets root) (hp : P.targetOf p = some (.state s))
    {e : SelectExpr H F X} {cases : List (Keyset × Target S)}
    (ht : P.transition s = .select [e] cases) {l₁ l₂ : List (KeyElement H F X)}
    {m : MatchType} (hone : initialOffsets = [0] → l₁ = [] ∧ l₂ = [])
    (hkeys : t'.keyElementList = t.keyElementList ++ (l₁ ++ ⟨P.keyRhs p o e, m⟩ :: l₂))
    (hentries : t'.entryListPerOffset o =
      if (t.entryListPerOffset o).length = 0 then
        (P.nextActions p s o).map fun k => ⟨[k.1], k.2⟩
      else (t.entryListPerOffset o).flatMap (rewriteEntry (.inst o p) (P.nextActions p s o)
        l₁.length l₂.length (l₁.length + (l₂.length + 1)))) :
    P.Tabled initialOffsets root st σ (done ++ [p]) t' o (entries.flatMap (rewriteEntry (.inst o p)
      (P.nextActions p s o) l₁.length l₂.length (l₁.length + (l₂.length + 1)))) := by
  have hsel : (P.transition s).hasSelectExpression = true := by rw [ht]; rfl
  have hnot : p ∉ done := P.not_mem_of_order_eq horder
  -- the instance is not in front of the root, since these have no `select`
  have hbelow : root <:+ p := by
    obtain ⟨s₀, hs₀⟩ : ∃ s₀, P.targetOf root = some (.state s₀) := by
      by_cases hzero : initialOffsets = [0]
      · obtain ⟨s₀, hs₀, -⟩ := hroot.select hzero
        exact ⟨s₀, hs₀⟩
      · exact ⟨P.start, by rw [hroot.nil hzero]; rfl⟩
    rcases hroot.leads.suffix_or hs₀ hp with hbelow | ⟨hfront, hne⟩
    · exact hbelow
    · obtain ⟨s', g, hs', hg⟩ := hroot.leads p hfront hne
      rw [hp] at hs'
      cases hs'
      rw [hg] at ht
      cases ht
  refine ⟨Or.inl ⟨?_, ?_⟩, ?_, ?_, ?_⟩
  · rw [hentries]
    rcases h.entries_eq with ⟨heq, -⟩ | ⟨hzero, hnil, hnone, heq, hrootdone⟩
    · obtain ⟨e₀, he₀, -⟩ := h.covered p s hp hnot hbelow
      rw [heq, if_neg]
      intro hlen
      rw [List.length_eq_zero_iff.mp hlen] at he₀
      exact List.not_mem_nil he₀
    · -- this is the visit of the root
      obtain rfl : root = p := by
        by_contra hne
        exact hrootdone (P.mem_of_suffix horder hbelow hne)
      obtain ⟨rfl, rfl⟩ := hone hzero
      rw [hnone, heq]
      simp [rewriteEntry]
  · rw [hkeys]
    exact List.append_ne_nil_of_right_ne_nil _ (List.append_ne_nil_of_right_ne_nil _
      (List.cons_ne_nil _ _))
  · intro e' he'
    obtain ⟨e₀, he₀, he'⟩ := List.mem_flatMap.mp he'
    rw [length_of_mem_rewriteEntry he', h.shape e₀ he₀, hkeys]
    simp
  · have hvals : keyValues st σ t'.keyElementList = keyValues st σ t.keyElementList ++
        (keyValues st σ l₁ ++ ((P.keyRhs p o e).toExpr st).eval σ :: keyValues st σ l₂) := by
      rw [hkeys, keyValues, List.map_append, List.map_append]
      rfl
    have hlen : ∀ l : List (KeyElement H F X), l.length = (keyValues st σ l).length :=
      fun l => (List.length_map _).symm
    have hexpand : P.expand (P.keyValue st σ o) o p = fun a => if a = .inst o p then
        ((P.nextActions p s o).filter fun n =>
          n.1.contains [((P.keyRhs p o e).toExpr st).eval σ]).map Prod.snd else [a] := by
      funext a
      rw [expand, keyValue, hp]
      simp only [hsel, and_true]
      rw [ht]
      rfl
    rw [hvals, hlen l₁, hlen l₂, hits_rewriteEntry fun e he => by rw [h.shape e he, hlen], h.hits,
      expandAll_concat, hexpand]
  · intro q s' hq hmem hrootq
    rw [List.mem_append, not_or, List.mem_singleton] at hmem
    obtain ⟨e₀, he₀, a, ha, hsuffix⟩ := h.covered q s' hq hmem.1 hrootq
    by_cases hap : a = p
    · -- the entry of the next instance on the way
      rw [hap] at ha hsuffix
      obtain ⟨i, hi⟩ := exists_cons_suffix hsuffix (Ne.symm hmem.2)
      obtain ⟨s₁, hs₁⟩ := P.exists_state_of_suffix hq hi
      obtain ⟨k, hk⟩ := mem_nextActions (o := o) hp hsel hs₁
      obtain ⟨e', he', hact⟩ : ∃ e' ∈ rewriteEntry (.inst o p) (P.nextActions p s o) l₁.length
          l₂.length (l₁.length + (l₂.length + 1)) e₀, e'.action = .inst o (i :: p) := by
        rw [rewriteEntry, if_pos ha]
        exact ⟨_, List.mem_map_of_mem hk, rfl⟩
      exact ⟨e', List.mem_flatMap.mpr ⟨e₀, he₀, he'⟩, i :: p, hact, hi⟩
    · obtain ⟨e', he', hact⟩ : ∃ e' ∈ rewriteEntry (.inst o p) (P.nextActions p s o) l₁.length
          l₂.length (l₁.length + (l₂.length + 1)) e₀, e'.action = .inst o a := by
        rw [rewriteEntry, if_neg fun heq => hap (by rw [ha] at heq; cases heq; rfl)]
        exact ⟨_, List.mem_singleton_self _, ha⟩
      exact ⟨e', List.mem_flatMap.mpr ⟨e₀, he₀, he'⟩, a, hact, hsuffix⟩

end Invariant

end Parser

end Parsing
end MicroP4
