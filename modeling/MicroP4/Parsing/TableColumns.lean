import MicroP4.Parsing.TableForm

/-!
# The columns of an instance

A `select` of several expressions adds a key for each of them, and this for every offset unless
one of them is not assigned in the state.  The converter stops unless there is then one key, or
one for each offset; this leaves several expressions, as many as there are offsets, one of them
not assigned (`Parser.visitInstance_columns`, `Parser.visitInstance_eq_none`).  Each entry still
gets the columns of one expression.
-/

namespace MicroP4
namespace Parsing

open BitString Assignments

variable {S H F X : Type}

namespace Parser

variable (P : Parser S H F X) [DecidableEq S] [DecidableEq H] [DecidableEq F] [DecidableEq X]

/-! ## The keys of several expressions -/

omit [DecidableEq S] in
theorem foldl_addKey (m : MatchType) (as : List (Asgn H F X)) (es : List (SelectExpr H F X))
    (n : NewKeys H F X) : es.foldl (addKey m as) n =
      ⟨n.newKeyEles ++ es.map fun e => ⟨(substituted as e).getD (.expr e.toExpr), m⟩,
        n.unsubstKeyAdded || es.any fun e => (substituted as e).isNone⟩ := by
  induction es generalizing n with
  | nil => simp
  | cons e es ih =>
      rw [List.foldl_cons, ih, addKey, List.map_cons, List.any_cons]
      cases substituted as e <;> simp

variable {P} {p : List ℕ} {s : S} {es : List (SelectExpr H F X)}
  {cases : List (Keyset × Target S)} {n : NewKeys H F X} {l : List ℕ}

omit [DecidableEq S] in
theorem any_isNone_substituted_iff (o : ℕ) :
    (es.any fun e => (substituted (P.asgnsOf p o) e).isNone) = true ↔
      ∃ e ∈ es, ¬ P.AssignedIn p e := by
  rw [List.any_eq_true]
  refine exists_congr fun e => and_congr_right fun _ => ?_
  rw [← P.isSome_substituted_iff (o := o), Option.not_isSome_iff_eq_none, Option.isNone_iff_eq_none]

/-- The match type of the keys is that of the state. -/
theorem matchType_of_foldl_addKeys (hn : l.foldl (P.addKeys p s) ⟨[], false⟩ = n) :
    ∀ c ∈ n.newKeyEles, c.matchType = P.matchType s := by
  subst hn
  refine List.foldlRecOn l (P.addKeys p s) (motive := fun n => ∀ c ∈ n.newKeyEles,
    c.matchType = P.matchType s) ?_ fun n hn o _ => ?_
  · exact fun c hc => absurd hc List.not_mem_nil
  unfold addKeys
  split
  · rw [foldl_addKey]
    intro c hc
    rcases List.mem_append.mp hc with hc | hc
    · exact hn c hc
    · obtain ⟨e, -, rfl⟩ := List.mem_map.mp hc
      rfl
  · exact hn

/-- With an expression that is not assigned the keys are added once. -/
theorem foldl_addKeys_unassigned (ht : P.transition s = .select es cases)
    (hes : ∃ e ∈ es, ¬ P.AssignedIn p e) (hl : l ≠ [])
    (hn : l.foldl (P.addKeys p s) ⟨[], false⟩ = n) :
    n.unsubstKeyAdded = true ∧ n.newKeyEles.length = es.length := by
  obtain ⟨o, l, rfl⟩ := List.exists_cons_of_ne_nil hl
  have hstep : P.addKeys p s ⟨[], false⟩ o = es.foldl (addKey (P.matchType s) (P.asgnsOf p o))
      ⟨[], false⟩ := by
    rw [addKeys, ht]
    rfl
  rw [List.foldl_cons, hstep, foldl_addKey, (any_isNone_substituted_iff o).mpr hes, Bool.or_true,
    P.foldl_addKeys_of_unsubst] at hn
  rw [← hn]
  exact ⟨rfl, by simp⟩

/-- Else they are added for each offset. -/
theorem foldl_addKeys_assigned (ht : P.transition s = .select es cases)
    (hes : ∀ e ∈ es, P.AssignedIn p e) (ks : List (KeyElement H F X)) :
    (l.foldl (P.addKeys p s) ⟨ks, false⟩).unsubstKeyAdded = false ∧
      (l.foldl (P.addKeys p s) ⟨ks, false⟩).newKeyEles.length =
        ks.length + l.length * es.length := by
  induction l generalizing ks with
  | nil => simp
  | cons o l ih =>
      have hnone : (es.any fun e => (substituted (P.asgnsOf p o) e).isNone) = false := by
        rw [← Bool.not_eq_true, any_isNone_substituted_iff]
        rintro ⟨e, he, hnot⟩
        exact hnot (hes e he)
      have hstep : P.addKeys p s ⟨ks, false⟩ o =
          es.foldl (addKey (P.matchType s) (P.asgnsOf p o)) ⟨ks, false⟩ := by
        rw [addKeys, ht]
        rfl
      rw [List.foldl_cons, hstep, foldl_addKey, hnone, Bool.or_self]
      refine ⟨(ih _).1, (ih _).2.trans ?_⟩
      show (ks ++ es.map _).length + _ = _
      rw [List.length_append, List.length_map, List.length_cons, Nat.succ_mul, Nat.add_assoc,
        Nat.add_comm es.length]

/-! ## The visit -/

/-- A `select` that passes the `BUG_CHECK`, for the number of initial offsets. -/
def ChecksAt (P : Parser S H F X) (offsets : ℕ) (p : List ℕ) (es : List (SelectExpr H F X)) :
    Prop :=
  es.length = 1 ∨ (es.length = offsets ∧ ∃ e ∈ es, ¬ P.AssignedIn p e)

theorem check_foldl_addKeys (ht : P.transition s = .select es cases) (hes : es ≠ [])
    (hl : l ≠ []) (hn : l.foldl (P.addKeys p s) ⟨[], false⟩ = n) :
    n.check l.length = true ↔ P.ChecksAt l.length p es := by
  have hpos : 0 < es.length := List.length_pos_iff.mpr hes
  have hlpos : 0 < l.length := List.length_pos_iff.mpr hl
  unfold NewKeys.check ChecksAt
  by_cases hassigned : ∃ e ∈ es, ¬ P.AssignedIn p e
  · obtain ⟨hunsubst, hlen⟩ := foldl_addKeys_unassigned ht hassigned hl hn
    rw [hunsubst, hlen]
    simp [hassigned]
  · have hall : ∀ e ∈ es, P.AssignedIn p e := by
      intro e he
      by_contra hnot
      exact hassigned ⟨e, he, hnot⟩
    obtain ⟨hunsubst, hlen⟩ := foldl_addKeys_assigned (l := l) ht hall []
    rw [hn] at hunsubst hlen
    rw [hunsubst, hlen, List.length_nil, Nat.zero_add]
    have hmul : l.length * es.length = l.length ↔ es.length = 1 := by
      rw [Nat.mul_eq_left (Nat.ne_of_gt hlpos)]
    have hne : l.length * es.length ≠ 0 := Nat.ne_of_gt (Nat.mul_pos hlpos hpos)
    simp only [hassigned, hmul, hne, Bool.false_and, Bool.not_false, Bool.and_true, Bool.false_or,
      Bool.or_eq_true, decide_eq_true_eq, and_false, or_false]

/-- The visit of an instance with a `select` adds its columns. -/
theorem visitInstance_columns {initialOffsets : List ℕ} {done : List (List ℕ × ℕ)}
    {t : Tables H F X} (hnodup : initialOffsets.Nodup) (hp : P.targetOf p = some (.state s))
    (hd : P.Declared done t.decls) (hnot : ∀ o ∈ initialOffsets, (p, o) ∉ done)
    (hpred : ∀ o ∈ initialOffsets, ∀ i q, p = i :: q → (q, o) ∈ done)
    (ht : P.transition s = .select es cases) (hes : es ≠ []) (hcases : cases ≠ [])
    (hne : initialOffsets ≠ []) (hcheck : P.ChecksAt initialOffsets.length p es) :
    ∃ t' cols, P.visitInstance initialOffsets s t p = some t' ∧
      P.Declared (done ++ initialOffsets.map fun o => (p, o)) t'.decls ∧
      (∀ o ∈ initialOffsets, ((t.entryListPerOffset o).length = 0 ∨
        ∃ x ∈ t.entryListPerOffset o, x.action = .inst o p) →
        ∀ k ∈ P.nextActions p s o, k.2 ∈ t'.actionList) ∧
      t'.keyElementList = t.keyElementList ++ cols ∧
      ∀ o ∈ initialOffsets, ∃ m n, P.Columns initialOffsets p s es m n cols ∧
        t'.entryListPerOffset o =
          if (t.entryListPerOffset o).length = 0 then
            (P.nextActions p s o).map fun k => ⟨[k.1], k.2⟩
          else (t.entryListPerOffset o).flatMap
            (rewriteEntry (.inst o p) (P.nextActions p s o) m n (m + (n + 1))) := by
  obtain ⟨n, hn⟩ : ∃ n, initialOffsets.foldl (P.addKeys p s) ⟨[], false⟩ = n := ⟨_, rfl⟩
  have hpos : 0 < es.length := List.length_pos_iff.mpr hes
  have hnext : (((P.transition s).nextParserStateInfo p).length ≠ 0) := by
    rw [ht, Transition.nextParserStateInfo, List.length_map, List.length_zipIdx]
    exact fun h => hcases (List.length_eq_zero_iff.mp h)
  obtain ⟨t', hvisit, hdeclared, -, hlist, hkeys, hentries⟩ := P.visitInstance_eq hnodup hp hd hnot
    hpred hn ((check_foldl_addKeys ht hes hne hn).mpr hcheck)
  -- the number of the columns, and of those an entry gets
  have hcount : n.newKeyEles.length ≠ 0 ∧ ∀ a o b, initialOffsets = a ++ o :: b → ∃ k l,
      P.Columns initialOffsets p s es k l n.newKeyEles ∧
      (if n.unsubstKeyAdded then k = 0 ∧ l = 0
        else k = a.length ∧ l = initialOffsets.length - (a.length + 1) ∧
          k + (l + 1) = n.newKeyEles.length) := by
    by_cases hassigned : ∃ e ∈ es, ¬ P.AssignedIn p e
    · obtain ⟨hunsubst, hlen⟩ := foldl_addKeys_unassigned ht hassigned hne hn
      refine ⟨by omega,
        fun a o b _ => ⟨0, 0, ⟨matchType_of_foldl_addKeys hn, by omega, ?_, ?_⟩, ?_⟩⟩
      · rw [hlen, ← List.length_eq_one_iff]
        omega
      · exact iff_of_true ⟨rfl, rfl⟩ (Or.inr hassigned)
      · rw [hunsubst, if_pos rfl]
        exact ⟨rfl, rfl⟩
    · have hall : ∀ e ∈ es, P.AssignedIn p e := by
        intro e he
        by_contra hnot
        exact hassigned ⟨e, he, hnot⟩
      have hone : es.length = 1 := hcheck.resolve_right fun h => hassigned h.2
      obtain ⟨hunsubst, hlen⟩ := foldl_addKeys_assigned (l := initialOffsets) ht hall []
      rw [hn] at hunsubst hlen
      rw [hone, Nat.mul_one, List.length_nil, Nat.zero_add] at hlen
      refine ⟨by rw [hlen]; exact fun h => hne (List.length_eq_zero_iff.mp h), fun a o b hab => ?_⟩
      have hsplit : initialOffsets.length = a.length + (b.length + 1) := by
        rw [hab, List.length_append, List.length_cons]
      refine ⟨a.length, b.length, ⟨matchType_of_foldl_addKeys hn, by omega, ?_, ?_⟩, ?_⟩
      · exact iff_of_true (by omega) (List.length_eq_one_iff.mp hone)
      · constructor
        · exact fun h => Or.inl (by omega)
        · intro h
          have hlen := h.resolve_right hassigned
          omega
      · rw [hunsubst, if_neg Bool.false_ne_true]
        omega
  refine ⟨t', n.newKeyEles, hvisit, hdeclared, ?_, hkeys, ?_⟩
  · intro o ho hentry k hk
    rw [hlist]
    refine mem_foldl_addActions.mpr (Or.inr ⟨o, ho, ?_⟩)
    rw [listedActions, if_neg hcount.1, getActionName_state hp]
    by_cases hnil : (t.entryListPerOffset o).length = 0
    · rw [if_pos hnil]
      exact List.mem_map_of_mem hk
    · obtain ⟨x, hx, hact⟩ := hentry.resolve_left hnil
      rw [if_neg hnil]
      refine List.mem_flatMap.mpr ⟨x, hx, ?_⟩
      rw [if_pos hact]
      exact List.mem_map_of_mem hk
  · intro o ho
    obtain ⟨a, b, hab⟩ := List.append_of_mem ho
    obtain ⟨k, l, hcols, hkl⟩ := hcount.2 a o b hab
    refine ⟨k, l, hcols, ?_⟩
    rw [hentries a o b hab, getActionName_state hp, updateEntries, if_neg hcount.1]
    split
    · rfl
    · rw [if_pos (decide_eq_true hnext), List.nil_append]
      split at hkl
      · rename_i hunsubst
        rw [if_pos hunsubst, hkl.1, hkl.2]
      · rename_i hunsubst
        rw [if_neg hunsubst, hkl.2.2, hkl.2.1, hkl.1]

/-- The converter stops if an instance does not pass the check. -/
theorem check_of_visitInstance {initialOffsets : List ℕ} {done : List (List ℕ × ℕ)}
    {t t' : Tables H F X} (hnodup : initialOffsets.Nodup) (hp : P.targetOf p = some (.state s))
    (hd : P.Declared done t.decls) (hnot : ∀ o ∈ initialOffsets, (p, o) ∉ done)
    (hpred : ∀ o ∈ initialOffsets, ∀ i q, p = i :: q → (q, o) ∈ done)
    (ht : P.transition s = .select es cases) (hes : es ≠ []) (hne : initialOffsets ≠ [])
    (hvisit : P.visitInstance initialOffsets s t p = some t') :
    P.ChecksAt initialOffsets.length p es := by
  obtain ⟨-, hkeys⟩ := P.foldl_synthesize hp ⟨[], false⟩ hd hnodup hnot hpred
  rw [← check_foldl_addKeys ht hes hne rfl]
  by_contra hcheck
  rw [visitInstance, hkeys, if_neg hcheck] at hvisit
  cases hvisit

end Parser

end Parsing
end MicroP4
