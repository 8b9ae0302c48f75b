import Mathlib.Data.List.Basic

/-!
# Match-action tables

A table is a list of entries, each with a keyset for every key and an action.  A lookup takes
the action of the first entry all of whose keysets contain the values of the keys.  To see
what becomes of a lookup when entries are rewritten, we follow the actions of all matching
entries, in order (`hits`): if every entry is replaced by entries with further keysets, which
depend on its action only, then so is every hit (`hits_flatMap_append`).

Nothing here is about a particular program.
-/

namespace MicroP4
namespace MatchTable

/-- An entry of a table. -/
structure Entry (K A : Type) where
  keys : List K
  action : A

variable {K V A : Type}

/-- An entry with further keysets and another action. -/
def Entry.append (e e' : Entry K A) : Entry K A := ⟨e.keys ++ e'.keys, e'.action⟩

variable (contains : K → V → Bool)

/-- Whether there is a keyset for each value, and contains it. -/
def matchKeys : List K → List V → Bool
  | [], [] => true
  | k :: ks, v :: vs => contains k v && matchKeys ks vs
  | _, _ => false

/-- The action of the first matching entry. -/
def lookup (vs : List V) (entries : List (Entry K A)) : Option A :=
  (entries.find? fun e => matchKeys contains e.keys vs).map Entry.action

/-- The actions of all matching entries. -/
def hits (vs : List V) (entries : List (Entry K A)) : List A :=
  (entries.filter fun e => matchKeys contains e.keys vs).map Entry.action

theorem lookup_eq_head? (vs : List V) (entries : List (Entry K A)) :
    lookup contains vs entries = (hits contains vs entries).head? := by
  rw [lookup, hits, List.head?_map, List.head?_filter]

@[simp] theorem hits_nil (vs : List V) : hits contains vs ([] : List (Entry K A)) = [] := rfl

theorem hits_cons (vs : List V) (e : Entry K A) (l : List (Entry K A)) :
    hits contains vs (e :: l) =
      if matchKeys contains e.keys vs then e.action :: hits contains vs l
      else hits contains vs l := by
  unfold hits
  rw [List.filter_cons]
  split
  · exact List.map_cons
  · rfl

theorem hits_append (vs : List V) (l₁ l₂ : List (Entry K A)) :
    hits contains vs (l₁ ++ l₂) = hits contains vs l₁ ++ hits contains vs l₂ := by
  rw [hits, List.filter_append, List.map_append]
  rfl

theorem hits_flatMap {B : Type} (vs : List V) (f : B → List (Entry K A)) (l : List B) :
    hits contains vs (l.flatMap f) = l.flatMap fun b => hits contains vs (f b) := by
  induction l with
  | nil => rfl
  | cons b l ih => rw [List.flatMap_cons, List.flatMap_cons, hits_append, ih]

theorem matchKeys_append {ks ks' : List K} {vs vs' : List V} (h : ks.length = vs.length) :
    matchKeys contains (ks ++ ks') (vs ++ vs') =
      (matchKeys contains ks vs && matchKeys contains ks' vs') := by
  induction ks generalizing vs with
  | nil =>
      obtain rfl := List.length_eq_zero_iff.mp h.symm
      rfl
  | cons k ks ih =>
      cases vs with
      | nil => exact absurd h (Nat.succ_ne_zero _)
      | cons v vs =>
          have hlen : ks.length = vs.length := Nat.succ.inj h
          rw [List.cons_append, List.cons_append, matchKeys, matchKeys, ih hlen, Bool.and_assoc]

/-- A keyset that contains everything may be put in every column. -/
theorem matchKeys_replicate {k : K} (hk : ∀ v, contains k v = true) (vs : List V) :
    matchKeys contains (List.replicate vs.length k) vs = true := by
  induction vs with
  | nil => rfl
  | cons v vs ih => rw [List.length_cons, List.replicate_succ, matchKeys, hk, ih, Bool.and_self]

/-- With such keysets in all other columns, one column decides. -/
theorem matchKeys_column {k₀ : K} (hk₀ : ∀ v, contains k₀ v = true) (k : K) (v : V)
    (vs vs' : List V) : matchKeys contains (List.replicate vs.length k₀ ++
      k :: List.replicate vs'.length k₀) (vs ++ v :: vs') = contains k v := by
  rw [matchKeys_append contains List.length_replicate, matchKeys_replicate contains hk₀, matchKeys,
    matchKeys_replicate contains hk₀, Bool.and_true, Bool.true_and]

theorem hits_map_append (e : Entry K A) {vs vs' : List V} (h : e.keys.length = vs.length)
    (l : List (Entry K A)) : hits contains (vs ++ vs') (l.map e.append) =
      if matchKeys contains e.keys vs then hits contains vs' l else [] := by
  have hfilter : hits contains (vs ++ vs') (l.map e.append) =
      (l.filter fun e' => matchKeys contains e.keys vs && matchKeys contains e'.keys vs').map
        Entry.action := by
    rw [hits, List.filter_map, List.map_map]
    simp only [Function.comp_def, Entry.append, matchKeys_append contains h]
  rw [hfilter]
  by_cases hm : matchKeys contains e.keys vs = true
  · simp only [hm, Bool.true_and, if_true]
    rfl
  · simp [hm]

/-- When each entry is replaced by entries with further keysets, each hit is replaced by the
hits of what replaces it. -/
theorem hits_flatMap_append {vs vs' : List V} {entries : List (Entry K A)}
    (h : ∀ e ∈ entries, e.keys.length = vs.length) (f : A → List (Entry K A)) :
    hits contains (vs ++ vs') (entries.flatMap fun e => (f e.action).map e.append) =
      (hits contains vs entries).flatMap fun a => hits contains vs' (f a) := by
  induction entries with
  | nil => rfl
  | cons e entries ih =>
      rw [List.flatMap_cons, hits_append, ih fun e' he' => h e' (List.mem_cons_of_mem e he'),
        hits_map_append contains e (h e List.mem_cons_self), hits_cons]
      by_cases hm : matchKeys contains e.keys vs = true
      · rw [if_pos hm, if_pos hm, List.flatMap_cons]
      · rw [if_neg hm, if_neg hm, List.nil_append]

end MatchTable
end MicroP4
