import MicroP4.Parsing.PathComposition

/-!
# When the action of an instance is right

`Parser.Meets` is enough for the action of an instance to do what the parser does.  On a
path whose states only extract headers it is also needed (`action_correct`).
-/

namespace MicroP4
namespace Parsing

open BitString Assignments

variable {S H F X : Type}

/-! ## Values of locations -/

section Values

variable (P : ParserDecl S H F X) (rd : ℕ → ℕ → List Bool)

theorem target_of_mem_fieldAssigns {h : H} {a : Assignment (Loc H F X) Value} :
    ∀ {fs : List (F × ℕ)} {start : ℕ}, a ∈ fieldAssigns rd h start fs →
      ∃ f ∈ fs.map Prod.fst, a.target = .field h f
  | [], _, ha => absurd ha List.not_mem_nil
  | (f, w) :: fs, start, ha => by
      rcases List.mem_cons.mp ha with rfl | ha
      · exact ⟨f, List.mem_cons_self, rfl⟩
      · obtain ⟨f', hf', htarget⟩ := target_of_mem_fieldAssigns ha
        exact ⟨f', List.mem_cons_of_mem f hf', htarget⟩

theorem target_of_mem_extractAssigns {h : H} {start : ℕ} {a : Assignment (Loc H F X) Value}
    (ha : a ∈ extractAssigns P rd h start) :
    a.target = .valid h ∨ (∃ f, a.target = .field h f) ∨ a.target = .currOffset := by
  rw [extractAssigns, List.mem_append, List.mem_cons, List.mem_singleton] at ha
  rcases ha with (rfl | ha) | rfl
  · exact Or.inl rfl
  · obtain ⟨f, -, hf⟩ := target_of_mem_fieldAssigns rd ha
    exact Or.inr (Or.inl ⟨f, hf⟩)
  · exact Or.inr (Or.inr rfl)

/-- A location of a header that is not extracted is no target. -/
theorem target_ne_of_not_mem {h : H} {x : Loc H F X} (hx : x = .valid h ∨ ∃ f, x = .field h f) :
    ∀ {l : List (ParserStat H F X)} {start : ℕ}, h ∉ ParserDecl.extracted l →
      ∀ a ∈ statAssigns P rd start l, a.target ≠ x
  | [], _, _, a, ha => absurd ha List.not_mem_nil
  | .extract h' :: l, start, hl, a, ha => by
      rw [statAssigns, List.mem_append] at ha
      have hne : h' ≠ h := by
        rintro rfl
        exact hl List.mem_cons_self
      rcases ha with ha | ha
      · rintro rfl
        rcases target_of_mem_extractAssigns P rd ha with ht | ⟨f, ht⟩ | ht <;>
          rcases hx with hx | ⟨f', hx⟩ <;> rw [ht] at hx <;> cases hx <;> exact hne rfl
      · exact target_ne_of_not_mem hx (fun hh => hl (List.mem_cons_of_mem _ hh)) a ha
  | .assign y e :: l, start, hl, a, ha => by
      rw [statAssigns, List.mem_cons] at ha
      rcases ha with rfl | ha
      · rintro rfl
        rcases hx with hx | ⟨f', hx⟩ <;> cases hx
      · exact target_ne_of_not_mem (l := l) hx hl a ha

variable [DecidableEq H] [DecidableEq F] [DecidableEq X] {σ : Store H F X}

theorem run_extractAssigns_currOffset (h : H) (start : ℕ) :
    run (extractAssigns P rd h start) σ .currOffset = .num (start + P.width h) := by
  rw [extractAssigns, run_append]
  rfl

/-- A header that is extracted is valid afterwards. -/
theorem run_statAssigns_valid {h : H} : ∀ {l : List (ParserStat H F X)} {start : ℕ}
    {σ : Store H F X}, h ∈ ParserDecl.extracted l →
      run (statAssigns P rd start l) σ (.valid h) = .flag true
  | [], _, _, hmem => absurd hmem List.not_mem_nil
  | .extract h' :: l, start, σ, hmem => by
      rw [statAssigns, run_append]
      by_cases hl : h ∈ ParserDecl.extracted l
      · exact run_statAssigns_valid hl
      · obtain rfl : h = h' := (List.mem_cons.mp hmem).resolve_right hl
        rw [run_of_ne (target_ne_of_not_mem P rd (Or.inl rfl) hl)]
        refine run_eq_of_last (l := []) (fun _ => rfl) fun b hb heq => ?_
        rcases List.mem_append.mp hb with hb | hb
        · obtain ⟨f, -, hf⟩ := target_of_mem_fieldAssigns rd hb
          rw [hf] at heq
          cases heq
        · rw [List.mem_singleton] at hb
          rw [hb] at heq
          cases heq
  | .assign x e :: l, start, σ, hmem => run_statAssigns_valid (l := l) hmem

/-- A header that is not extracted keeps its validity flag. -/
theorem run_statAssigns_of_not_mem {h : H} {l : List (ParserStat H F X)} {start : ℕ}
    (hl : h ∉ ParserDecl.extracted l) :
    run (statAssigns P rd start l) σ (.valid h) = σ (.valid h) :=
  run_of_ne (target_ne_of_not_mem P rd (Or.inl rfl) hl)

/-- A field gets what is read at its place. -/
theorem run_statAssigns_field {h : H} {f : F} {w : ℕ} {l₁ l₂ : List (ParserStat H F X)}
    {fs₁ fs₂ : List (F × ℕ)} (start : ℕ) (hh : h ∉ ParserDecl.extracted l₂)
    (hfields : P.fields h = fs₁ ++ (f, w) :: fs₂) (hf : f ∉ fs₂.map Prod.fst) :
    run (statAssigns P rd start (l₁ ++ .extract h :: l₂)) σ (.field h f) =
      .bits (rd (start + advance P l₁ + (fs₁.map Prod.snd).sum) w) := by
  rw [statAssigns_append, statAssigns, run_append, run_append,
    run_of_ne (target_ne_of_not_mem P rd (Or.inr ⟨f, rfl⟩) hh), extractAssigns, hfields,
    fieldAssigns_append, fieldAssigns, ← List.cons_append, List.append_assoc, List.cons_append]
  refine run_eq_of_last (fun _ => rfl) fun b hb heq => ?_
  rcases List.mem_append.mp hb with hb | hb
  · obtain ⟨f', hf', htarget⟩ := target_of_mem_fieldAssigns rd hb
    rw [htarget] at heq
    cases heq
    exact hf hf'
  · rw [List.mem_singleton] at hb
    rw [hb] at heq
    cases heq

end Values

/-! ## Alignment is needed -/

section Alignment

variable (P : ParserDecl S H F X)

theorem exists_not_aligned_field : ∀ {fs : List (F × ℕ)} {start : ℕ}, ¬ AlignedFields start fs →
    ∃ fs₁ f w fs₂, fs = fs₁ ++ (f, w) :: fs₂ ∧ ¬ Aligned (start + (fs₁.map Prod.snd).sum) w
  | [], _, h => absurd trivial h
  | (f, w) :: fs, start, h => by
      by_cases hw : Aligned start w
      · obtain ⟨fs₁, f', w', fs₂, rfl, hal⟩ := exists_not_aligned_field fun hfs => h ⟨hw, hfs⟩
        refine ⟨(f, w) :: fs₁, f', w', fs₂, rfl, ?_⟩
        rw [List.map_cons, List.sum_cons, ← Nat.add_assoc]
        exact hal
      · exact ⟨[], f, w, fs, rfl, hw⟩

theorem exists_not_aligned : ∀ {l : List (ParserStat H F X)} {start : ℕ},
    ¬ AlignedStats P start l → ∃ l₁ h l₂, l = l₁ ++ .extract h :: l₂ ∧
      ¬ AlignedFields (start + advance P l₁) (P.fields h)
  | [], _, h => absurd trivial h
  | .extract h :: l, start, hl => by
      by_cases hh : AlignedFields start (P.fields h)
      · obtain ⟨l₁, h', l₂, rfl, hal⟩ := exists_not_aligned fun hrest => hl ⟨hh, hrest⟩
        refine ⟨.extract h :: l₁, h', l₂, rfl, ?_⟩
        rw [advance, ← Nat.add_assoc]
        exact hal
      · exact ⟨[], h, l, rfl, hh⟩
  | .assign x e :: l, start, hl => by
      obtain ⟨l₁, h', l₂, rfl, hal⟩ := exists_not_aligned (show ¬ AlignedStats P start l from hl)
      exact ⟨.assign x e :: l₁, h', l₂, rfl, hal⟩

variable [DecidableEq H] [DecidableEq F] [DecidableEq X]

/-- If slices and bits give the same stores on every packet, all fields are aligned. -/
theorem alignedStats_of_run_eq (P : Parser S H F X) {l : List (ParserStat H F X)} {start : ℕ}
    (hnodup : (ParserDecl.extracted l).Nodup) (σ : Store H F X)
    (h : ∀ st : ℕ → Word, run (statAssigns P.toParserDecl (readSlices st) start l) σ =
      run (statAssigns P.toParserDecl (readBits (bitAt st)) start l) σ) :
    AlignedStats P.toParserDecl start l := by
  by_contra hal
  obtain ⟨l₁, h', l₂, rfl, hfields⟩ := exists_not_aligned P.toParserDecl hal
  obtain ⟨fs₁, f, w, fs₂, hsplit, hw⟩ := exists_not_aligned_field hfields
  obtain ⟨st, hst⟩ := exists_readSlices_ne hw
  have hh : h' ∉ ParserDecl.extracted l₂ := by
    rw [ParserDecl.extracted, List.filterMap_append] at hnodup
    exact (List.nodup_cons.mp (List.nodup_append.mp hnodup).2.1).1
  have hf : f ∉ fs₂.map Prod.fst := by
    have hfn := P.fields_nodup h'
    rw [hsplit, List.map_append] at hfn
    exact (List.nodup_cons.mp (List.nodup_append.mp hfn).2.1).1
  have heq := congrFun (h st) (.field h' f)
  rw [run_statAssigns_field P.toParserDecl _ start hh hsplit hf,
    run_statAssigns_field P.toParserDecl _ start hh hsplit hf] at heq
  exact hst (Value.bits.inj heq)

end Alignment

/-! ## Paths of extracts -/

section Extracts

variable (P : ParserDecl S H F X)

theorem of_mem_perFieldAsgns {h : H} {a : Asgn H F X} : ∀ {fs : List (F × ℕ)} {start : ℕ},
    a ∈ perFieldAsgns h start fs → (∀ x, ¬ a.Reads x) ∧ ∃ f, a.target = .field h f
  | [], _, ha => absurd ha List.not_mem_nil
  | (f, w) :: fs, start, ha => by
      rcases List.mem_cons.mp ha with rfl | ha
      · exact ⟨fun _ => id, f, rfl⟩
      · exact of_mem_perFieldAsgns ha

/-- The assignments for an extract, but the last one, read nothing and fill the header. -/
theorem of_mem_header {h : H} {a : Asgn H F X} {fs : List (F × ℕ)} {start : ℕ}
    (ha : a ∈ ⟨.valid h, .const (.flag true)⟩ :: perFieldAsgns h start fs) :
    (∀ x, ¬ a.Reads x) ∧ (a.target = .valid h ∨ ∃ f, a.target = .field h f) := by
  rcases List.mem_cons.mp ha with rfl | ha
  · exact ⟨fun _ => id, Or.inl rfl⟩
  · obtain ⟨hreads, hf⟩ := of_mem_perFieldAsgns ha
    exact ⟨hreads, Or.inr hf⟩

variable [DecidableEq H]

/-- The assignments of an instance of a state that only extracts headers. -/
theorem of_mem_asgnsOf {p : List ℕ} {o : ℕ} (honly : ∀ s ∈ P.statsOf p, ∃ h, s = .extract h)
    {a : Asgn H F X} (ha : a ∈ P.asgnsOf p o) :
    (∀ x, ¬ a.Reads x) ∧ (a.target = .currOffset ∨ ∃ h ∈ ParserDecl.extracted (P.statsOf p),
      a.target = .valid h ∨ ∃ f, a.target = .field h f) := by
  obtain ⟨s, hs, ha⟩ := List.mem_flatMap.mp ha
  obtain ⟨h, rfl⟩ := honly s hs
  rw [ParserDecl.substitute, ParserDecl.extractAsgns] at ha
  rcases List.mem_append.mp ha with ha | ha
  · obtain ⟨hreads, ht⟩ := of_mem_header ha
    exact ⟨hreads, Or.inr ⟨h, ParserDecl.mem_extracted.mpr hs, ht⟩⟩
  · rw [List.mem_singleton.mp ha]
    exact ⟨fun _ => id, Or.inl rfl⟩

variable [DecidableEq F] [DecidableEq X] (rd : ℕ → ℕ → List Bool)

/-- The offset behind statements that only extract headers. -/
theorem run_statAssigns_currOffset {l : List (ParserStat H F X)}
    (honly : ∀ s ∈ l, ∃ h, s = .extract h) (hne : l ≠ []) (start : ℕ) (σ : Store H F X) :
    run (statAssigns P rd start l) σ .currOffset = .num (start + advance P l) := by
  obtain ⟨l', s, rfl⟩ := (List.eq_nil_or_concat l).resolve_left hne
  rw [List.concat_eq_append] at honly ⊢
  obtain ⟨h, rfl⟩ := honly s (List.mem_append_right l' List.mem_cons_self)
  rw [statAssigns_append, run_append, advance_append, ← Nat.add_assoc]
  show run (extractAssigns P rd h (start + advance P l') ++ []) _ .currOffset =
    .num (start + advance P l' + (P.width h + 0))
  rw [List.append_nil, run_extractAssigns_currOffset, Nat.add_zero]

end Extracts

theorem popBack_concat {α : Type} {l : List α} {a : α} (h : l ≠ []) : popBack (l ++ [a]) = l := by
  have hlen : (l ++ [a]).length > 1 := by
    rw [List.length_append]
    exact Nat.add_lt_add_right (List.length_pos_of_ne_nil h) 1
  rw [popBack, if_pos hlen, List.dropLast_concat]

theorem mem_of_mem_popBack {α : Type} {a : α} {l : List α} (h : a ∈ popBack l) : a ∈ l := by
  unfold popBack at h
  split at h
  · exact List.mem_of_mem_take (List.dropLast_eq_take ▸ h)
  · exact h

namespace Parser

variable (P : Parser S H F X)

/-- The states on a path only extract headers, of which none is empty. -/
def ExtractsOnly (p : List ℕ) : Prop := ∀ s ∈ P.statsTo p, ∃ h, s = .extract h ∧ 0 < P.width h

theorem mem_components {p : List ℕ} {s : ParserStat H F X} (h : s ∈ P.statsTo p) :
    ∃ t, s ∈ P.components t := by
  have hof : ∀ p, s ∈ P.statsOf p → ∃ t, s ∈ P.components t := by
    intro p h
    rw [ParserDecl.statsOf] at h
    split at h
    · exact ⟨_, h⟩
    · exact absurd h List.not_mem_nil
  induction p with
  | nil => exact hof [] h
  | cons i p ih =>
      rcases List.mem_append.mp h with h | h
      · exact ih h
      · exact hof (i :: p) h

variable {P} [DecidableEq H] [DecidableEq F] [DecidableEq X]

section Necessary

variable {i : ℕ} {q : List ℕ} {o : ℕ} (honly : P.ExtractsOnly (i :: q)) (st : ℕ → Word)
  (σ : Store H F X)
  (hrun : run ((P.asgnsOf (i :: q) o ++ popBack (P.asgnsOf q o)).map (Asgn.on st))
      (P.startStore σ o) =
    run (statAssigns P.toParserDecl (readBits (bitAt st)) o (P.statsTo (i :: q)))
      (P.startStore σ o))

include honly in
omit [DecidableEq H] [DecidableEq F] [DecidableEq X] in
theorem onlyExtracts_of_mem {s : ParserStat H F X} (hs : s ∈ P.statsTo (i :: q)) :
    ∃ h, s = .extract h := by
  obtain ⟨h, rfl, -⟩ := honly s hs
  exact ⟨h, rfl⟩

omit [DecidableEq H] [DecidableEq F] [DecidableEq X] in
/-- The headers extracted on the path, by states. -/
theorem extracted_statsTo : ParserDecl.extracted (P.statsTo (i :: q)) =
    ParserDecl.extracted (P.statsBefore q) ++ ParserDecl.extracted (P.statsOf q) ++
      ParserDecl.extracted (P.statsOf (i :: q)) := by
  rw [P.statsTo_eq, ParserDecl.statsBefore, P.statsTo_eq, ParserDecl.extracted,
    List.filterMap_append, List.filterMap_append]
  rfl

include honly in
omit [DecidableEq F] [DecidableEq X] in
/-- The action only fills headers of the last two states. -/
theorem mem_extracted_of_target {a : Asgn H F X} {h : H}
    (ha : a ∈ P.asgnsOf (i :: q) o ++ popBack (P.asgnsOf q o)) (htarget : a.target = .valid h) :
    h ∈ ParserDecl.extracted (P.statsOf q) ∨ h ∈ ParserDecl.extracted (P.statsOf (i :: q)) := by
  have hmem : ∀ p, (∀ s ∈ P.statsOf p, s ∈ P.statsTo (i :: q)) → a ∈ P.asgnsOf p o →
      h ∈ ParserDecl.extracted (P.statsOf p) := by
    intro p hp hap
    obtain ⟨-, ht⟩ := of_mem_asgnsOf P.toParserDecl
      (fun s hs => onlyExtracts_of_mem honly (hp s hs)) hap
    rcases ht with ht | ⟨h', hh', ht | ⟨f, ht⟩⟩
    · rw [ht] at htarget
      cases htarget
    · rw [ht] at htarget
      cases htarget
      exact hh'
    · rw [ht] at htarget
      cases htarget
  rcases List.mem_append.mp ha with ha | ha
  · refine Or.inr (hmem _ (fun s hs => ?_) ha)
    rw [P.statsTo_eq]
    exact List.mem_append_right _ hs
  · refine Or.inl (hmem _ (fun s hs => ?_) (mem_of_mem_popBack ha))
    rw [P.statsTo_eq, ParserDecl.statsBefore, P.statsTo_eq]
    exact List.mem_append_left _ (List.mem_append_right _ hs)

include honly hrun in
/-- A header extracted in front of the last two states would not be valid. -/
theorem statsBefore_eq_nil : P.statsBefore q = [] := by
  by_contra hne
  obtain ⟨s, hs⟩ := List.exists_mem_of_ne_nil _ hne
  have hmem : s ∈ P.statsTo (i :: q) := by
    rw [P.statsTo_eq, ParserDecl.statsBefore, P.statsTo_eq]
    exact List.mem_append_left _ (List.mem_append_left _ hs)
  obtain ⟨h, rfl⟩ := onlyExtracts_of_mem honly hmem
  obtain ⟨t, ht⟩ := P.mem_components hmem
  have hvalid := congrFun hrun (.valid h)
  rw [run_statAssigns_valid _ _ (ParserDecl.mem_extracted.mpr hmem), run_of_ne, startStore,
    if_pos (P.extract_mem t h ht)] at hvalid
  · exact absurd hvalid (by simp)
  · intro a ha htarget
    obtain ⟨b, hb, rfl⟩ := List.mem_map.mp ha
    have hnodup := P.extracted_nodup (i :: q)
    rw [extracted_statsTo, List.append_assoc] at hnodup
    refine (List.nodup_append.mp hnodup).2.2 h (ParserDecl.mem_extracted.mpr hs) h ?_ rfl
    exact List.mem_append.mpr (mem_extracted_of_target honly hb htarget)

omit [DecidableEq F] [DecidableEq X] in
/-- The assignments of an instance whose state ends with an extract. -/
theorem asgnsOf_eq_append {r : List (ParserStat H F X)} {h : H}
    (hq : P.statsOf q = r ++ [.extract h]) :
    P.asgnsOf q o = (r.flatMap (P.substitute (P.after q) o) ++
        ⟨.valid h, .const (.flag true)⟩ ::
          perFieldAsgns h ((P.after q).2 h + o) (P.fields h)) ++
      [⟨.currOffset, .const (.num ((P.after q).2 h + o + P.width h))⟩] := by
  rw [ParserDecl.asgnsOf, hq, List.flatMap_append, List.flatMap_singleton,
    ParserDecl.substitute, ParserDecl.extractAsgns, List.append_assoc]

omit [DecidableEq F] [DecidableEq X] in
/-- One extract can be exchanged with the extracts of another state: the assignment that is
left out is the one to the offset. -/
theorem exchangeable_of_extract {p q : List ℕ} {o : ℕ} {h : H} (hq : P.statsOf q = [.extract h])
    (hne : P.statsOf p ≠ []) (honlyp : ∀ s ∈ P.statsOf p, ∃ h, s = .extract h)
    (hh : h ∉ ParserDecl.extracted (P.statsOf p)) :
    Exchangeable (P.asgnsOf q o) (P.asgnsOf p o) := by
  rw [asgnsOf_eq_append (r := []) hq]
  refine ⟨fun l a hl _ => ?_, fun a ha b hb => ?_⟩
  · obtain ⟨-, hla⟩ := List.append_inj' hl rfl
    obtain ⟨s, hs⟩ := List.exists_mem_of_ne_nil _ hne
    obtain ⟨h', rfl⟩ := honlyp s hs
    rw [← List.singleton_inj.mp hla]
    refine ⟨⟨_, List.mem_flatMap.mpr ⟨_, hs, List.mem_append_right _ List.mem_cons_self⟩,
      rfl⟩, fun b hb => (of_mem_asgnsOf _ honlyp hb).1 _⟩
  · rw [popBack_concat (List.append_ne_nil_of_right_ne_nil _ (List.cons_ne_nil _ _))] at ha
    obtain ⟨hareads, hat⟩ := of_mem_header ha
    obtain ⟨hbreads, hbt⟩ := of_mem_asgnsOf _ honlyp hb
    refine ⟨fun heq => ?_, hareads _, hbreads _⟩
    rcases hbt with hbt | ⟨h', hh', hbt⟩
    · rw [hbt] at heq
      rcases hat with hat | ⟨f, hat⟩ <;> rw [hat] at heq <;> cases heq
    · refine hh ?_
      rcases hat with hat | ⟨f, hat⟩ <;> rcases hbt with hbt | ⟨f', hbt⟩ <;>
        rw [hat, hbt] at heq <;> cases heq <;> exact hh'

include honly hrun in
/-- Where an extract ends the state in front of the last one, it is the only one, and the
last state extracts a header: otherwise the offset would not be right. -/
theorem extracts_of_run (hbefore : P.statsBefore q = []) {r : List (ParserStat H F X)} {h : H}
    (hq : P.statsOf q = r ++ [.extract h]) : r = [] ∧ P.statsOf (i :: q) ≠ [] := by
  have hstats : P.statsTo (i :: q) = r ++ .extract h :: P.statsOf (i :: q) := by
    rw [P.statsTo_eq, ParserDecl.statsBefore, P.statsTo_eq, hbefore, List.nil_append, hq,
      List.append_assoc, List.singleton_append]
  have hwidth : 0 < P.width h := by
    obtain ⟨h', heq, hpos⟩ := honly (.extract h) (hstats ▸ List.mem_append_right r
      List.mem_cons_self)
    cases heq
    exact hpos
  have honlyr : ∀ s ∈ r, ∃ h, s = .extract h := fun s hs =>
    onlyExtracts_of_mem honly (hstats ▸ List.mem_append_left _ hs)
  -- what the action appends, on a byte stack
  have happ : (popBack (P.asgnsOf q o)).map (Asgn.on st) =
      statAssigns P.toParserDecl (readSlices st) o r ++ ⟨.valid h, Expr.const (.flag true)⟩ ::
        fieldAssigns (readSlices st) h (o + advance P.toParserDecl r) (P.fields h) := by
    have hmap := P.map_on_asgnsOf st q o
    rw [hbefore, advance, Nat.zero_add, hq, statAssigns_append, asgnsOf_eq_append hq,
      List.map_append] at hmap
    have hextract : statAssigns P.toParserDecl (readSlices st) (o + advance P.toParserDecl r)
        [.extract h] = (⟨.valid h, Expr.const (.flag true)⟩ ::
          fieldAssigns (readSlices st) h (o + advance P.toParserDecl r) (P.fields h)) ++
            [⟨.currOffset, Expr.const (.num (o + advance P.toParserDecl r + P.width h))⟩] :=
      List.append_nil _
    rw [hextract, ← List.append_assoc] at hmap
    rw [asgnsOf_eq_append hq, popBack_concat (List.append_ne_nil_of_right_ne_nil _
      (List.cons_ne_nil _ _))]
    exact List.append_inj_left' hmap rfl
  have hoffset := congrFun hrun .currOffset
  have hheader : ∀ τ : Store H F X, run (⟨.valid h, Expr.const (.flag true)⟩ ::
      fieldAssigns (readSlices st) h (o + advance P.toParserDecl r) (P.fields h)) τ .currOffset =
        τ .currOffset := by
    refine fun τ => run_of_ne fun a ha htarget => ?_
    rcases List.mem_cons.mp ha with rfl | ha
    · cases htarget
    · obtain ⟨f, -, hf⟩ := target_of_mem_fieldAssigns _ ha
      rw [hf] at htarget
      cases htarget
  rw [run_statAssigns_currOffset _ _ (fun s hs => onlyExtracts_of_mem honly hs)
      (by rw [hstats]; exact List.append_ne_nil_of_right_ne_nil r (List.cons_ne_nil _ _)),
    hstats, advance_append, advance, List.map_append, run_append, happ, run_append, hheader]
    at hoffset
  have hr : r = [] := by
    by_contra hne
    rw [run_statAssigns_currOffset _ _ honlyr hne] at hoffset
    have hnum := Value.num.inj hoffset
    omega
  refine ⟨hr, fun hnil => ?_⟩
  have hown : P.asgnsOf (i :: q) o = [] := by
    rw [ParserDecl.asgnsOf, hnil]
    rfl
  rw [hr, hown, hnil] at hoffset
  have hnum : o = o + (0 + (P.width h + 0)) := Value.num.inj hoffset
  omega

include honly hrun in
/-- The statements of the last two states can be exchanged. -/
theorem exchangeable_of_run (hbefore : P.statsBefore q = []) :
    Exchangeable (P.asgnsOf q o) (P.asgnsOf (i :: q) o) := by
  by_cases hq : P.statsOf q = []
  · have hnil : P.asgnsOf q o = [] := by
      rw [ParserDecl.asgnsOf, hq]
      rfl
    rw [hnil]
    refine ⟨fun l a hl => ?_, fun a ha => absurd (mem_of_mem_popBack ha) List.not_mem_nil⟩
    exact absurd hl.symm (List.append_ne_nil_of_right_ne_nil l (List.cons_ne_nil a []))
  · obtain ⟨r, s, hrs⟩ := (List.eq_nil_or_concat (P.statsOf q)).resolve_left hq
    rw [List.concat_eq_append] at hrs
    obtain ⟨h, rfl⟩ : ∃ h, s = .extract h := by
      refine onlyExtracts_of_mem honly ?_
      rw [P.statsTo_eq, ParserDecl.statsBefore, P.statsTo_eq, hrs]
      exact List.mem_append_left _ (List.mem_append_right _ (List.mem_append_right r
        List.mem_cons_self))
    obtain ⟨rfl, hne⟩ := extracts_of_run honly st σ hrun hbefore hrs
    have hnodup := P.extracted_nodup (i :: q)
    rw [extracted_statsTo, hbefore, hrs] at hnodup
    refine exchangeable_of_extract hrs hne (fun s hs => onlyExtracts_of_mem honly ?_)
      (List.nodup_cons.mp hnodup).1
    rw [P.statsTo_eq]
    exact List.mem_append_right _ hs

end Necessary

variable [DecidableEq S]

/-- On a path that only extracts headers the condition is needed. -/
theorem meets_of_actionCorrect {initialOffsets : List ℕ} {p : List ℕ} {s : S}
    (hp : P.targetOf p = some (.state s)) {o : ℕ} (ho : o ∈ initialOffsets)
    (honly : P.ExtractsOnly p) (h : P.ActionCorrect initialOffsets p o) : P.Meets p o := by
  obtain ⟨a, ha, hrun⟩ := h
  obtain rfl : P.asgnsOf p o ++ P.appended p o = a :=
    Option.some.inj ((findAction_inst initialOffsets hp ho).symm.trans ha)
  have hstart : ∀ st : ℕ → Word, run ((P.asgnsOf p o ++ P.appended p o).map (Asgn.on st))
      (P.startStore (fun _ => .num o) o) =
        run (statAssigns P.toParserDecl (readBits (bitAt st)) o (P.statsTo p))
          (P.startStore (fun _ => .num o) o) := by
    intro st
    rw [← execAll_statsTo, ← hrun st (fun _ => .num o) fun _ => rfl,
      run_initAction P st ho fun _ => rfl]
  have hex : ∀ i q, p = i :: q →
      P.statsBefore q = [] ∧ Exchangeable (P.asgnsOf q o) (P.asgnsOf p o) := by
    rintro i q rfl
    have hrun' := hstart fun _ _ => false
    have hbefore := statsBefore_eq_nil honly _ (fun _ => .num o) hrun'
    exact ⟨hbefore, exchangeable_of_run honly _ (fun _ => .num o) hrun' hbefore⟩
  refine ⟨alignedStats_of_run_eq P (P.extracted_nodup p) (P.startStore (fun _ => .num o) o)
    fun st => ?_, hex⟩
  rw [← P.run_action hex, hstart st]

/-- **The action of an instance.**  It does what the parser does along the path if the fields
are aligned, only the last two states have statements and these can be exchanged; on a path
that only extracts headers it does so only then. -/
theorem action_correct (P : Parser S H F X) {initialOffsets : List ℕ} {p : List ℕ} {s : S}
    (hp : P.targetOf p = some (.state s)) {o : ℕ} (ho : o ∈ initialOffsets) :
    (P.Meets p o → P.ActionCorrect initialOffsets p o) ∧
      (P.ExtractsOnly p → P.ActionCorrect initialOffsets p o → P.Meets p o) :=
  ⟨P.actionCorrect_of_meets hp ho, meets_of_actionCorrect hp ho⟩

end Parser

/-! ## Three headers in a row -/

/-- Three headers, and the states that extract them. -/
inductive InARow where
  | first
  | second
  | third
  deriving DecidableEq

/-- The number of headers that follow. -/
def InARow.following : InARow → ℕ
  | first => 2
  | second => 1
  | third => 0

/-- A parser that extracts one header of a byte in each of three states. -/
def threeHeaders : Parser InARow InARow Unit Unit where
  headers := [.first, .second, .third]
  fields _ := [((), 8)]
  start := .first
  components s := [.extract s]
  transition
    | .first => .goto (.state .second)
    | .second => .goto (.state .third)
    | .third => .goto .accept
  fields_nodup _ := by decide
  extract_mem _ h _ := by cases h <;> decide
  extracted_nodup := ParserDecl.extracted_nodup_of_owner _ InARow.following
    (fun s t => by cases s <;> cases t <;> decide) id
    (fun s h hh => by cases List.mem_singleton.mp hh; rfl) (fun s => by cases s <;> decide)
  rank := InARow.following
  rank_lt s t := by cases s <;> cases t <;> decide
  sorted := [.first, .second, .third]
  sorted_head := rfl
  mem_sorted _ s _ := by cases s <;> decide
  sorted_pairwise := by decide

/-- The action for the second header does what the parser does. -/
theorem action_correct_threeHeaders : threeHeaders.ActionCorrect [0] [0] 0 := by
  refine (Parser.action_correct threeHeaders (s := .second) rfl List.mem_cons_self).1 ⟨?_, ?_⟩
  · refine ⟨⟨Or.inl rfl, trivial⟩, ⟨Or.inl rfl, trivial⟩, trivial⟩
  · rintro i q ⟨⟩
    exact ⟨rfl, Parser.exchangeable_of_extract rfl (List.cons_ne_nil _ _)
      (fun s hs => ⟨.second, List.mem_singleton.mp hs⟩) (by decide)⟩

/-- The action for the third header does not set the first one valid. -/
theorem not_actionCorrect_threeHeaders : ¬ threeHeaders.ActionCorrect [0] [0, 0] 0 := by
  intro h
  have hmeets := Parser.meets_of_actionCorrect (s := .third) rfl List.mem_cons_self ?_ h
  · exact absurd (hmeets.2 0 [0] rfl).1 (List.cons_ne_nil _ _)
  · intro s hs
    obtain ⟨t, ht⟩ := threeHeaders.mem_components hs
    exact ⟨t, List.mem_singleton.mp ht, Nat.succ_pos 7⟩

end Parsing
end MicroP4
