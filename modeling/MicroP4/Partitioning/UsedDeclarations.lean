import MicroP4.Partitioning.SlicePipeControl

/-!
# The declarations of a half

The declarations that the statements of a half use are collected with all that they use
themselves (`usedDeclarations_spec`).  With what both halves use at the fields of the parameter,
the statements do in the half what they did in the control (`Half.bisim`).
-/

namespace MicroP4
namespace Partitioning

open CopyInCopyOut

variable {N O E : Type} [DecidableEq N]

/-! ## Collecting declarations -/

/-- Declarations as they are in the control, with all that they name. -/
structure Closed (locals used : List (Decl N O)) : Prop where
  declared : ∀ d ∈ used, getDeclaration locals d.name = some d
  names : ∀ d ∈ used, ∀ r ∈ d.names, ∀ d', getDeclaration locals r.name = some d' → d' ∈ used

/-- What is collected for some names. -/
structure Collects (locals : List (Decl N O)) (ns : List N) (used used' : List (Decl N O)) :
    Prop where
  closed : Closed locals used'
  subset : ∀ d ∈ used, d ∈ used'
  found : ∀ n ∈ ns, ∀ d, getDeclaration locals n = some d → d ∈ used'
  named : ∀ d ∈ used', d ∈ used ∨ d.name ∈ ns ∨ ∃ d' ∈ used', ∃ r ∈ d'.names, r.name = d.name

section Collect

variable {locals : List (Decl N O)}

theorem foldlM_collects {fuel : ℕ} (h : ∀ {used used' n}, Closed locals used →
    useName locals fuel used n = some used' → Collects locals [n] used used') :
    ∀ {ns : List N} {used used' : List (Decl N O)}, Closed locals used →
    ns.foldlM (useName locals fuel) used = some used' → Collects locals ns used used'
  | [], used, used', hc, hrun => by
      obtain rfl := Option.some.inj hrun
      exact ⟨hc, fun _ hd => hd, fun _ hn => absurd hn List.not_mem_nil, fun _ hd => Or.inl hd⟩
  | n :: ns, used, used', hc, hrun => by
      rw [List.foldlM_cons] at hrun
      obtain ⟨mid, hmid, hrest⟩ := Option.bind_eq_some_iff.mp hrun
      have h₁ := h hc hmid
      have h₂ := foldlM_collects h h₁.closed hrest
      refine ⟨h₂.closed, fun d hd => h₂.subset d (h₁.subset d hd), fun m hm d hd => ?_,
        fun d hd => ?_⟩
      · rcases List.mem_cons.mp hm with rfl | hm
        · exact h₂.subset d (h₁.found m (List.mem_singleton_self _) d hd)
        · exact h₂.found m hm d hd
      · rcases h₂.named d hd with hd | hd | hd
        · rcases h₁.named d hd with hd | hd | ⟨d', hd', hr⟩
          · exact Or.inl hd
          · rw [List.mem_singleton.mp hd]
            exact Or.inr (Or.inl List.mem_cons_self)
          · exact Or.inr (Or.inr ⟨d', h₂.subset d' hd', hr⟩)
        · exact Or.inr (Or.inl (List.mem_cons_of_mem _ hd))
        · exact Or.inr (Or.inr hd)

/-- **Using a name** adds its declaration behind those that it uses. -/
theorem useName_collects : ∀ {fuel : ℕ} {used used' : List (Decl N O)} {n : N},
    Closed locals used → useName locals fuel used n = some used' →
    Collects locals [n] used used'
  | 0, _, _, _, _, h => by cases h
  | fuel + 1, used, used', n, hc, h => by
      rw [useName] at h
      split at h
      · rename_i hnone
        obtain rfl := Option.some.inj h
        refine ⟨hc, fun _ hd => hd, fun m hm d hd => ?_, fun _ hd => Or.inl hd⟩
        rw [List.mem_singleton.mp hm, hnone] at hd
        cases hd
      · rename_i d hd
        have hname : d.name = n := (mem_of_getDeclaration hd).2
        split at h
        · -- it has been collected before
          rename_i hsome
          obtain rfl := Option.some.inj h
          obtain ⟨d', hd'⟩ := Option.isSome_iff_exists.mp hsome
          obtain ⟨hmem, hsame⟩ := mem_of_getDeclaration hd'
          have hdecl := hc.declared d' hmem
          rw [hsame, hname, hd] at hdecl
          refine ⟨hc, fun _ hd => hd, fun m hm e he => ?_, fun _ hd => Or.inl hd⟩
          rw [List.mem_singleton.mp hm, hd] at he
          rw [← Option.some.inj he, Option.some.inj hdecl]
          exact hmem
        · obtain ⟨mid, hmid, rfl⟩ := Option.map_eq_some_iff.mp h
          have hcollect := foldlM_collects useName_collects hc hmid
          have hlast : d ∈ mid ++ [d] := List.mem_append_right _ (List.mem_singleton_self _)
          refine ⟨⟨?_, ?_⟩, fun e he => List.mem_append_left _ (hcollect.subset e he),
            fun m hm e he => ?_, ?_⟩
          · rw [List.forall_mem_append, List.forall_mem_singleton, hname]
            exact ⟨hcollect.closed.declared, hd⟩
          · rw [List.forall_mem_append, List.forall_mem_singleton]
            refine ⟨fun e he r hr d' hd' => ?_, fun r hr d' hd' => ?_⟩
            · exact List.mem_append_left _ (hcollect.closed.names e he r hr d' hd')
            · exact List.mem_append_left _
                (hcollect.found r.name (List.mem_map_of_mem hr) d' hd')
          · rw [List.mem_singleton.mp hm, hd] at he
            exact Option.some.inj he ▸ hlast
          · rw [List.forall_mem_append, List.forall_mem_singleton]
            refine ⟨fun e he => ?_, Or.inr (Or.inl (List.mem_singleton.mpr hname))⟩
            rcases hcollect.named e he with he | he | ⟨d', hd', hr⟩
            · exact Or.inl he
            · obtain ⟨r, hr, heq⟩ := List.mem_map.mp he
              exact Or.inr (Or.inr ⟨d, hlast, r, hr, heq⟩)
            · exact Or.inr (Or.inr ⟨d', List.mem_append_left _ hd', hr⟩)

/-- What is collected for some statements. -/
theorem usedDeclarations_spec {l : List (Statement N O)} {used : List (Decl N O)}
    (h : usedDeclarations locals l = some used) :
    Collects locals ((namesOf l).map Ref.name) [] used :=
  foldlM_collects useName_collects ⟨fun _ hd => absurd hd List.not_mem_nil,
    fun _ hd => absurd hd List.not_mem_nil⟩ h

end Collect

/-! ## Controls in which all is declared -/

/-- A name is declared as what it is used for. -/
def Declares (params : List N) (locals : List (Decl N O)) (own : List N) : Ref N → Prop
  | .var x => x ∈ own ∨ x ∈ params ∨ ∃ type, getDeclaration locals x = some (.variable x type)
  | r => Declared locals r

theorem Declares.declared {params own : List N} {locals : List (Decl N O)} :
    ∀ {r : Ref N}, Declares params locals own r → Declared locals r
  | .var _, _ => trivial
  | .table _, h | .action _, h | .control _, h => h

/-- All names are declared, and different declarations have different names. -/
structure WellScoped (I : Interp N O E) (params : List N) (locals : List (Decl N O)) : Prop where
  params_nodup : params.Nodup
  locals_nodup : (locals.map Decl.name).Nodup
  locals_params : ∀ x ∈ locals.map Decl.name, x ∉ params
  own : ∀ d ∈ locals, ∀ p ∈ d.own, p ∉ params ∧ p ∉ locals.map Decl.name
  names : ∀ d ∈ locals, ∀ r ∈ d.names, Declares params locals d.own r
  select : ∀ t keys actions, .table t keys actions ∈ locals → ∀ vals a ws,
    I.select t vals = some (a, ws) → a ∈ actions

/-- A name that is not used yet. -/
structure Fresh (params : List N) (locals : List (Decl N O)) (x : N) : Prop where
  notParam : x ∉ params
  notLocal : x ∉ locals.map Decl.name
  notOwn : ∀ d ∈ locals, x ∉ d.own

/-- The names that some statements and the declarations they use name, but for the parameters of
actions. -/
def Mentioned (l : List (Statement N O)) (used : List (Decl N O)) : Set N :=
  {x | (∃ r ∈ namesOf l, r.name = x) ∨ ∃ d ∈ used, ∃ r ∈ d.names, r.name = x ∧ x ∉ d.own}

/-- Some statements of a control with the declarations they use, and the variables that are moved
to the fields of a parameter. -/
structure Half (I : Interp N O E) (params : List N) (locals : List (Decl N O)) (arg : N)
    (shared : List N) (l : List (Statement N O)) (used : List (Decl N O)) : Prop where
  wellScoped : WellScoped I params locals
  fresh : Fresh params locals arg
  names : ∀ r ∈ namesOf l, Declares params locals [] r
  used : usedDeclarations locals l = some used
  shared : ∀ x ∈ shared, ∃ type, getDeclaration locals x = some (.variable x type)

namespace Half

variable {I : Interp N O E} {params : List N} {locals : List (Decl N O)} {arg : N}
  {shared : List N} {l : List (Statement N O)} {used : List (Decl N O)}

variable (H : Half I params locals arg shared l used)
include H

theorem collects : Collects locals ((namesOf l).map Ref.name) [] used :=
  usedDeclarations_spec H.used

theorem mem_locals {d : Decl N O} (hd : d ∈ used) : d ∈ locals :=
  (mem_of_getDeclaration (H.collects.closed.declared d hd)).1

/-- What is mentioned and declared in the control is collected. -/
theorem mem_used {x : N} (hx : x ∈ Mentioned l used) {d : Decl N O}
    (hd : getDeclaration locals x = some d) : d ∈ used := by
  rcases hx with ⟨r, hr, rfl⟩ | ⟨d', hd', r, hr, rfl, -⟩
  · exact H.collects.found r.name (List.mem_map_of_mem hr) d hd
  · exact H.collects.closed.names d' hd' r hr d hd

/-- What is mentioned is a parameter, or declared in the control. -/
theorem declared_of_mentioned {x : N} (hx : x ∈ Mentioned l used) :
    x ∈ params ∨ ∃ d, getDeclaration locals x = some d := by
  have hdecl : ∀ {own : List N} {r : Ref N}, Declares params locals own r → r.name ∉ own →
      r.name ∈ params ∨ ∃ d, getDeclaration locals r.name = some d := by
    intro own r hr hown
    cases r with
    | var x => exact (hr.resolve_left hown).imp id fun ⟨type, hd⟩ => ⟨_, hd⟩
    | table t => exact Or.inr ⟨_, hr.choose_spec.choose_spec⟩
    | action a => exact Or.inr ⟨_, hr.choose_spec.choose_spec⟩
    | control c => exact Or.inr ⟨_, hr.choose_spec⟩
  rcases hx with ⟨r, hr, rfl⟩ | ⟨d, hd, r, hr, rfl, hown⟩
  · exact hdecl (H.names r hr) List.not_mem_nil
  · exact hdecl (H.wellScoped.names d (H.mem_locals hd) r hr) hown

theorem arg_notMem : arg ∉ Mentioned l used := by
  intro h
  rcases H.declared_of_mentioned h with hp | ⟨d, hd⟩
  · exact H.fresh.notParam hp
  · obtain ⟨hmem, rfl⟩ := mem_of_getDeclaration hd
    exact H.fresh.notLocal (List.mem_map_of_mem hmem)

/-- What is collected is mentioned. -/
theorem mentioned_of_used {d : Decl N O} (hd : d ∈ used) : d.name ∈ Mentioned l used := by
  rcases H.collects.named d hd with hd | hname | ⟨d', hd', r, hr, heq⟩
  · exact absurd hd List.not_mem_nil
  · obtain ⟨r, hr, heq⟩ := List.mem_map.mp hname
    exact Or.inl ⟨r, hr, heq⟩
  · refine Or.inr ⟨d', hd', r, hr, heq, fun hown => ?_⟩
    exact (H.wellScoped.own d' (H.mem_locals hd') _ hown).2 (List.mem_map_of_mem (H.mem_locals hd))

theorem names_mem : ∀ r ∈ namesOf l, r.name ∈ Mentioned l used ∧ Declared locals r :=
  fun r hr => ⟨Or.inl ⟨r, hr, rfl⟩, (H.names r hr).declared⟩

theorem scope : Scope I locals (Mentioned l used) where
  names := fun n hn d hd r hr => by
    have hmem := H.mem_used hn hd
    by_cases hown : r.name ∈ d.own
    · exact Or.inr hown
    · exact Or.inl ⟨Or.inr ⟨d, hmem, r, hr, rfl, hown⟩,
        (H.wellScoped.names d (H.mem_locals hmem) r hr).declared⟩
  select := fun t _ keys actions hd =>
    H.wellScoped.select t keys actions (mem_of_getDeclaration hd).1

theorem getDeclaration_used (x : N) : getDeclaration used x =
    if x ∈ used.map Decl.name then getDeclaration locals x else none := by
  split
  · rename_i hx
    obtain ⟨d, hd, rfl⟩ := List.mem_map.mp hx
    rw [H.collects.closed.declared d hd]
    cases hfind : getDeclaration used d.name with
    | none =>
        have hne := List.find?_eq_none.mp hfind d hd
        simp at hne
    | some d' =>
        obtain ⟨hd', hname⟩ := mem_of_getDeclaration hfind
        have hdecl := H.collects.closed.declared d' hd'
        rw [hname, H.collects.closed.declared d hd] at hdecl
        exact hdecl.symm
  · rename_i hx
    exact getDeclaration_eq_none hx

omit H in
theorem getDeclaration_half (x : N) : getDeclaration (halfLocals arg shared used) x
    = if x ∈ shared then none
      else (getDeclaration used x).map (Decl.under (moved shared arg)) := by
  have hname : (fun d : Decl N O => decide (d.name = x)) ∘ Decl.under (moved shared arg)
      = fun d => decide (d.name = x) := funext fun d => by
    rw [Function.comp_apply, Decl.name_under]
  rw [getDeclaration, halfLocals, List.find?_map, hname, List.find?_filter]
  split
  · rename_i hx
    rw [Option.map_eq_none_iff, List.find?_eq_none]
    intro d _ h
    simp only [decide_eq_true_eq] at h
    exact h.1 (h.2 ▸ hx)
  · rename_i hx
    have hkeep : (fun d : Decl N O => decide ((decide (d.name ∉ shared)) = true ∧
        (decide (d.name = x)) = true)) = fun d => decide (d.name = x) := funext fun d => by
      by_cases hdx : d.name = x
      · simp [hdx, hx]
      · simp [hdx]
    rw [hkeep]
    rfl

/-- The declarations of the half are those of the control, with their variables moved. -/
theorem moves : Moves I (moved shared arg) (Mentioned l used) (Mentioned l used) locals
    (halfLocals arg shared used) where
  scope := H.scope
  sub := fun _ hn => hn
  separate := separate_moved H.arg_notMem
  own := fun n hn d hd p hp => by
    have hd' := H.mem_locals (H.mem_used hn hd)
    have hps : p ∉ shared := fun hs => by
      obtain ⟨type, hdecl⟩ := H.shared p hs
      obtain ⟨hmem, hname⟩ := mem_of_getDeclaration hdecl
      exact (H.wellScoped.own d hd' p hp).2 (hname ▸ List.mem_map_of_mem hmem)
    refine ⟨moved_of_notMem hps, fun x _ hne => ?_⟩
    by_cases hxs : x ∈ shared
    · rw [moved_of_mem hxs]
      exact fun heq : arg = p => H.fresh.notOwn d hd' (heq ▸ hp)
    · rw [moved_of_notMem hxs]
      exact hne
  decl := fun n hn d hd hvar => by
    have hmem := H.mem_used hn hd
    have hname := (mem_of_getDeclaration hd).2
    have hns : n ∉ shared := fun hs => by
      obtain ⟨type, hdecl⟩ := H.shared n hs
      rw [hd] at hdecl
      obtain rfl := Option.some.inj hdecl
      cases hvar
    have hused : n ∈ used.map Decl.name := hname ▸ List.mem_map_of_mem hmem
    rw [getDeclaration_half, if_neg hns, H.getDeclaration_used, if_pos hused, hd]
    rfl

/-- **The statements do the same in the half.** -/
theorem bisim (program : N → Option (Callee N E)) :
    Bisim (Located (moved shared arg) (Mentioned l used)) (runIn I program locals l)
      (runIn I program (halfLocals arg shared used) (underOf (moved shared arg) l)) :=
  H.moves.runIn_bisim program H.names_mem

/-- What is mentioned, is mentioned in the half. -/
theorem ref_under {r : Ref N} (hr : r.name ∈ Mentioned l used ∧ Declared locals r) :
    (r.under (moved shared arg)).name ∈ Mentioned l used ∪ {arg} ∧
      Declared (halfLocals arg shared used) (r.under (moved shared arg)) := by
  obtain ⟨hmem, hdecl⟩ := hr
  cases r with
  | var x =>
      refine ⟨?_, trivial⟩
      show (moved shared arg x).var ∈ _
      by_cases hx : x ∈ shared
      · rw [moved_of_mem hx]
        exact Or.inr rfl
      · rw [moved_of_notMem hx]
        exact Or.inl hmem
  | table t =>
      obtain ⟨keys, actions, hd⟩ := hdecl
      exact ⟨Or.inl hmem, _, _, H.moves.decl t hmem _ hd rfl⟩
  | action a =>
      obtain ⟨params, body, hd⟩ := hdecl
      exact ⟨Or.inl hmem, _, _, H.moves.decl a hmem _ hd rfl⟩
  | control c =>
      obtain ⟨type, hd⟩ := hdecl
      exact ⟨Or.inl hmem, _, H.moves.decl c hmem _ hd rfl⟩

/-- The declarations of the half name nothing but what was mentioned, and the parameter. -/
theorem scope' : Scope I (halfLocals arg shared used) (Mentioned l used ∪ {arg}) where
  names := by
    intro n _ d' hd' r' hr'
    rw [getDeclaration_half] at hd'
    split at hd'
    · cases hd'
    · obtain ⟨d, hd, rfl⟩ := Option.map_eq_some_iff.mp hd'
      obtain ⟨hmem, hname⟩ := mem_of_getDeclaration hd
      have hn := H.mentioned_of_used hmem
      have hdl := H.collects.closed.declared d hmem
      rw [Decl.names_under] at hr'
      obtain ⟨r, hr, rfl⟩ := List.mem_map.mp hr'
      rw [Decl.own_under]
      exact (H.scope.names _ hn d hdl r hr).elim (fun hr => Or.inl (H.ref_under hr)) fun hown => by
        cases r with
        | var x =>
            refine Or.inr ?_
            show (moved shared arg x).var ∈ d.own
            rw [(H.moves.own _ hn d hdl x hown).1]
            exact hown
        | table | action | control => exact Or.inr hown
  select := by
    intro t _ keys actions hd'
    rw [getDeclaration_half] at hd'
    split at hd'
    · cases hd'
    · obtain ⟨d, hd, hunder⟩ := Option.map_eq_some_iff.mp hd'
      obtain ⟨hmem, hname⟩ := mem_of_getDeclaration hd
      rcases d with _ | _ | ⟨t', keys', actions'⟩ | _
      · cases hunder
      · cases hunder
      · obtain ⟨rfl, -, rfl⟩ := Decl.table.inj hunder
        exact H.wellScoped.select _ _ _ (H.mem_locals hmem)
      · cases hunder

/-- The statements assign nothing else. -/
theorem keeps (program : N → Option (Callee N E)) {x : N} (hx : x ∉ Mentioned l used) :
    (runIn I program locals l).Keeps x :=
  H.scope.runIn_keeps_of_notMem program H.names_mem hx

theorem keeps' (program : N → Option (Callee N E)) {x : N} (hx : x ∉ Mentioned l used)
    (hne : x ≠ arg) :
    (runIn I program (halfLocals arg shared used) (underOf (moved shared arg) l)).Keeps x := by
  refine H.scope'.runIn_keeps_of_notMem program (fun r' hr' => ?_) fun h => h.elim hx hne
  rw [namesOf_under] at hr'
  obtain ⟨r, hr, rfl⟩ := List.mem_map.mp hr'
  exact H.ref_under (H.names_mem r hr)

/-- The variables of the half. -/
theorem mem_variables {x : N} : x ∈ variablesOf (halfLocals arg shared used) ↔
    x ∈ variablesOf locals ∧ x ∈ Mentioned l used ∧ x ∉ shared := by
  rw [mem_variablesOf, mem_variablesOf]
  constructor
  · rintro ⟨type, h⟩
    obtain ⟨d, hd, hunder⟩ := List.mem_map.mp h
    obtain ⟨hmem, hns⟩ := List.mem_filter.mp hd
    rw [decide_eq_true_eq] at hns
    rcases d with ⟨y, type'⟩ | _ | _ | _
    · obtain ⟨rfl, rfl⟩ := Decl.variable.inj hunder
      exact ⟨⟨_, H.mem_locals hmem⟩, H.mentioned_of_used hmem, hns⟩
    · cases hunder
    · cases hunder
    · cases hunder
  · rintro ⟨⟨type, hx⟩, hmem, hns⟩
    have hd := getDeclaration_of_mem H.wellScoped.locals_nodup hx
    refine ⟨type, List.mem_map.mpr ⟨_, List.mem_filter.mpr ⟨H.mem_used hmem hd, ?_⟩, rfl⟩⟩
    rw [decide_eq_true_eq]
    exact hns

/-- They have the types they had. -/
theorem typesOf_eq {x : N} (hx : x ∈ variablesOf (halfLocals arg shared used)) :
    typesOf (halfLocals arg shared used) x = typesOf locals x := by
  obtain ⟨hvar, hmem, hns⟩ := H.mem_variables.mp hx
  obtain ⟨type, hvar⟩ := mem_variablesOf.mp hvar
  have hd := getDeclaration_of_mem H.wellScoped.locals_nodup hvar
  have hd' : getDeclaration (halfLocals arg shared used) x = some (.variable x type) := by
    have hused : x ∈ used.map Decl.name := List.mem_map_of_mem (H.mem_used hmem hd)
    rw [getDeclaration_half, if_neg hns, H.getDeclaration_used, if_pos hused]
    exact congrArg (Option.map (Decl.under (moved shared arg))) hd
  have hd'' : getDeclaration locals x = some (.variable x type) := hd
  rw [typesOf, typesOf, hd', hd'']

end Half

end Partitioning
end MicroP4
