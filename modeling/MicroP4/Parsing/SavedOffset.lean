import MicroP4.Parsing.Table

/-!
# The offset a converted parser saves

The init action copies `indices.curr_offset` to the parser meta if the parser is converted for
other offsets than `0` alone.  No other action assigns the copy, so it still has the value that
the parser started with when the deparser runs.
-/

namespace MicroP4
namespace Parsing

open BitString Assignments

variable {S H F X : Type}

/-! ## Running the converted parser -/

section Run

variable [DecidableEq H] [DecidableEq F] [DecidableEq X]

/-- Calling actions by name, in order. -/
def Control.call (c : Control H F X) (st : ℕ → Word) (σ : Store H F X) (names : List ActName) :
    Store H F X :=
  names.foldl
    (fun σ n => run (((lookup c.actionDecls n).getD []).map (Asgn.on st)) σ) σ

/-- The body of the converted parser: the init action, and the actions the table selects. -/
def Control.run (c : Control H F X) (st : ℕ → Word) (σ : Store H F X) : Store H F X :=
  let σ := c.call st σ [.init]
  c.call st σ (c.called st σ)

end Run

/-! ## What the actions assign -/

/-- The assignments leave the saved offset alone. -/
def KeepsOffset (as : List (Asgn H F X)) : Prop := ∀ a ∈ as, a.target ≠ .localOffset

theorem KeepsOffset.append {as bs : List (Asgn H F X)} (ha : KeepsOffset as)
    (hb : KeepsOffset bs) : KeepsOffset (as ++ bs) := by
  intro a h
  rcases List.mem_append.mp h with h | h
  · exact ha a h
  · exact hb a h

theorem KeepsOffset.popBack {as : List (Asgn H F X)} (h : KeepsOffset as) :
    KeepsOffset (popBack as) := by
  intro a ha
  unfold Parsing.popBack at ha
  split at ha
  · exact h a (List.mem_of_mem_dropLast ha)
  · exact h a ha

theorem keepsOffset_perFieldAsgns (h : H) : ∀ (start : ℕ) (fs : List (F × ℕ)),
    KeepsOffset (perFieldAsgns (X := X) h start fs)
  | _, [] => fun _ ha => absurd ha List.not_mem_nil
  | start, (f, w) :: fs => by
      intro a ha
      rcases List.mem_cons.mp ha with rfl | ha
      · exact fun heq => by cases heq
      · exact keepsOffset_perFieldAsgns h (start + w) fs a ha

namespace ParserDecl

variable (P : ParserDecl S H F X)

theorem keepsOffset_substitute (m : ValueMap H) (o : ℕ) (s : ParserStat H F X) :
    KeepsOffset (P.substitute m o s) := by
  cases s with
  | assign x e =>
      intro a ha
      obtain rfl := List.mem_singleton.mp ha
      exact fun heq => by cases heq
  | extract h =>
      show KeepsOffset (P.extractAsgns h (m.2 h + o))
      unfold extractAsgns
      refine KeepsOffset.append ?_ ?_
      · intro a ha
        rcases List.mem_cons.mp ha with rfl | ha
        · exact fun heq => by cases heq
        · exact keepsOffset_perFieldAsgns h _ _ a ha
      · intro a ha
        obtain rfl := List.mem_singleton.mp ha
        exact fun heq => by cases heq

theorem keepsOffset_asgnsOf [DecidableEq H] (p : List ℕ) (o : ℕ) :
    KeepsOffset (P.asgnsOf p o) := by
  intro a ha
  obtain ⟨s, -, ha⟩ := List.mem_flatMap.mp ha
  exact P.keepsOffset_substitute _ o s a ha

end ParserDecl

/-! ## Declared actions -/

/-- The init action is declared under its name, and the other actions leave the saved offset
alone. -/
structure Decls.Saves (d : Decls H F X) (init : List (Asgn H F X)) : Prop where
  init_eq : lookup d.actionDecls .init = some init
  keeps : ∀ n as, lookup d.actionDecls n = some as → n ≠ .init → KeepsOffset as
  appended : ∀ n as, lookup d.toAppendStats n = some as → KeepsOffset as

namespace Parser

variable {P : Parser S H F X} [DecidableEq S] [DecidableEq H]

theorem saves_declareAction {d : Decls H F X} {init : List (Asgn H F X)} (hd : d.Saves init)
    (v : List ℕ × ℕ) : (P.declareAction d v).Saves init := by
  unfold ParserDecl.declareAction
  by_cases hname : (lookup d.actionDecls (P.getActionName v.1 v.2)).isSome = true
  · rw [if_pos hname]
    exact hd
  · rw [if_neg hname]
    have hown := P.keepsOffset_asgnsOf v.1 v.2
    refine ⟨?_, fun n as h hn => ?_, fun n as h => ?_⟩
    · rw [lookup_append_singleton, hd.init_eq, Option.some_or]
    · rw [lookup_append_singleton] at h
      rcases Option.or_eq_some_iff.mp h with h | ⟨-, h⟩
      · exact hd.keeps n as h hn
      · split at h
        · cases h
          refine hown.append ?_
          cases happ : lookup d.toAppendStats (P.getActionName v.1 v.2) with
          | none => exact fun a ha => absurd ha List.not_mem_nil
          | some bs => exact hd.appended _ bs happ
        · cases h
    · rw [lookup_foldl_emplace] at h
      rcases Option.or_eq_some_iff.mp h with h | ⟨-, h⟩
      · exact hd.appended n as h
      · split at h
        · cases h
          exact hown.popBack
        · cases h

/-- What the visit keeps up: the declarations save the offset, and there is a key. -/
structure SavesTables (init : List (Asgn H F X)) (t : Tables H F X) : Prop where
  saves : t.decls.Saves init
  keys : t.keyElementList ≠ []

omit [DecidableEq H] in
theorem saves_initTables {initialOffsets : List ℕ} (hoff : initialOffsets ≠ [0]) :
    SavesTables (P.initAction initialOffsets) (P.initTables initialOffsets) where
  saves := by
    refine ⟨rfl, fun n as h hn => ?_, fun n as h => by cases h⟩
    -- besides the init action there is the reject action
    have hreject : n = .reject ∧ as = ParserDecl.rejectAction := by
      cases n with
      | init => exact absurd rfl hn
      | reject => exact ⟨rfl, (Option.some.inj h).symm⟩
      | inst o p => cases h
    rw [hreject.2]
    intro a ha
    obtain rfl := List.mem_singleton.mp ha
    exact fun heq => by cases heq
  keys := by
    show (if initialOffsets = [0] then [] else _) ≠ []
    rw [if_neg hoff]
    exact List.cons_ne_nil _ _

variable [DecidableEq F] [DecidableEq X]

theorem saves_foldl_synthesize {init : List (Asgn H F X)} {p : List ℕ} {s : S}
    (os : List ℕ) {c : Decls H F X × NewKeys H F X} (hc : c.1.Saves init) :
    (os.foldl (P.synthesize p s) c).1.Saves init := by
  induction os generalizing c with
  | nil => exact hc
  | cons o os ih =>
      refine ih ?_
      unfold synthesize
      split
      · exact hc
      · exact saves_declareAction hc (p, o)

theorem SavesTables.visitInstance {init : List (Asgn H F X)} {initialOffsets : List ℕ} {s : S}
    {t t' : Tables H F X} {p : List ℕ} (ht : SavesTables init t)
    (h : P.visitInstance initialOffsets s t p = some t') : SavesTables init t' := by
  unfold Parser.visitInstance at h
  dsimp only at h
  split at h
  · cases h
    refine ⟨saves_foldl_synthesize initialOffsets ht.saves, ?_⟩
    exact List.append_ne_nil_of_left_ne_nil ht.keys _
  · cases h

omit [DecidableEq H] [DecidableEq F] [DecidableEq X] in
theorem SavesTables.foldlM {α : Type} {init : List (Asgn H F X)}
    {f : Tables H F X → α → Option (Tables H F X)}
    (hf : ∀ t a t', SavesTables init t → f t a = some t' → SavesTables init t') :
    ∀ {l : List α} {t t' : Tables H F X}, SavesTables init t → l.foldlM f t = some t' →
      SavesTables init t'
  | [], t, t', ht, h => by
      cases h
      exact ht
  | a :: l, t, t', ht, h => by
      rw [List.foldlM_cons] at h
      obtain ⟨t₁, hstep, hrest⟩ := Option.bind_eq_some_iff.mp h
      exact SavesTables.foldlM hf (hf t a t₁ ht hstep) hrest

/-- The converted parser has a key, and only its init action assigns the saved offset. -/
theorem saves_of_convert {initialOffsets : List ℕ} (hoff : initialOffsets ≠ [0])
    {c : Control H F X} (h : P.convert initialOffsets = some c) :
    c.keyElementList ≠ [] ∧
      lookup c.actionDecls .init = some (P.initAction initialOffsets) ∧
      ∀ n as, lookup c.actionDecls n = some as → n ≠ .init → KeepsOffset as := by
  unfold convert at h
  obtain ⟨t, ht, rfl⟩ := Option.map_eq_some_iff.mp h
  have hinv : SavesTables (P.initAction initialOffsets) t := by
    refine SavesTables.foldlM (fun t s t' hs hstep => ?_) (saves_initTables hoff) ht
    exact SavesTables.foldlM (fun _ _ _ hp hvisit => hp.visitInstance hvisit) hs hstep
  exact ⟨hinv.keys, hinv.saves.init_eq, hinv.saves.keeps⟩

/-! ## Running them -/

omit [DecidableEq S] in
/-- The init action saves the offset and leaves it where it is. -/
theorem run_initAction_offsets {initialOffsets : List ℕ} (hoff : initialOffsets ≠ [0])
    (st : ℕ → Word) (σ : Store H F X) :
    run ((P.initAction initialOffsets).map (Asgn.on st)) σ .localOffset = σ .currOffset ∧
      run ((P.initAction initialOffsets).map (Asgn.on st)) σ .currOffset = σ .currOffset := by
  unfold ParserDecl.initAction
  rw [if_neg hoff, List.map_append, run_append]
  have hfront : run (((P.headers.map fun h => (⟨.valid h, .const (.flag false)⟩ : Asgn H F X)) ++
      ([⟨.rejectStatus, .const (.num 0)⟩] : List (Asgn H F X))).map (Asgn.on st)) σ .currOffset =
        σ .currOffset := by
    refine run_of_ne fun a ha htarget => ?_
    obtain ⟨b, hb, rfl⟩ := List.mem_map.mp ha
    rcases List.mem_append.mp hb with hb | hb
    · obtain ⟨h, -, rfl⟩ := List.mem_map.mp hb
      cases htarget
    · obtain rfl := List.mem_singleton.mp hb
      cases htarget
  generalize run _ σ = τ at hfront ⊢
  constructor
  · show Function.update τ .localOffset (τ .currOffset) .localOffset = _
    rw [Function.update_self, hfront]
  · show Function.update τ .localOffset (τ .currOffset) .currOffset = _
    rw [Function.update_of_ne (fun heq => by cases heq), hfront]

/-- **The converted parser leaves the offset it started with in the parser meta.** -/
theorem run_localOffset {initialOffsets : List ℕ} (hoff : initialOffsets ≠ [0])
    {c : Control H F X} (h : P.convert initialOffsets = some c) (st : ℕ → Word)
    (σ : Store H F X) : c.run st σ .localOffset = σ .currOffset := by
  obtain ⟨hkeys, hinit, hkeeps⟩ := saves_of_convert hoff h
  have hcall : c.call st σ [.init] = run ((P.initAction initialOffsets).map (Asgn.on st)) σ := by
    show run (((lookup c.actionDecls .init).getD []).map (Asgn.on st)) σ = _
    rw [hinit]
    rfl
  have hsaved := run_initAction_offsets (P := P) hoff st σ
  show c.call st (c.call st σ [.init]) (c.called st (c.call st σ [.init])) .localOffset = _
  rw [hcall]
  generalize run ((P.initAction initialOffsets).map (Asgn.on st)) σ = τ at hsaved
  unfold Control.called
  rw [if_neg fun hlen => hkeys (List.length_eq_zero_iff.mp hlen)]
  cases MatchTable.lookup Keyset.containsValue (keyValues st τ c.keyElementList) c.entries with
  | none => exact hsaved.1
  | some n =>
      show run (((lookup c.actionDecls n).getD []).map (Asgn.on st)) τ .localOffset = _
      by_cases hn : n = .init
      · rw [hn, hinit]
        exact (run_initAction_offsets hoff st τ).1.trans hsaved.2
      · refine (run_of_ne fun a ha htarget => ?_).trans hsaved.1
        obtain ⟨b, hb, rfl⟩ := List.mem_map.mp ha
        cases hlookup : lookup c.actionDecls n with
        | none =>
            rw [hlookup] at hb
            exact absurd hb List.not_mem_nil
        | some as =>
            rw [hlookup] at hb
            exact hkeeps n as hlookup hn b hb htarget

end Parser

end Parsing
end MicroP4
