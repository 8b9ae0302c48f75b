import MicroP4.Partitioning.CutPlaces
import MicroP4.Partitioning.UsedDeclarations

/-!
# The halves of a control

A control that is cut does what its halves do one after the other
(`Control.splitInto_of_slice`), if no call at which it is to be cut stands in a branch or a case,
if a parameter that is only copied out is not used in front of the cut, and if the packet is not
read again between the halves.
-/

namespace MicroP4
namespace Partitioning

open CopyInCopyOut

variable {N O E : Type} [DecidableEq N]

/-! ## The struct that is shared -/

/-- The type of a struct. -/
def structShape (fields : List (N × Shape N)) : Shape N :=
  .struct fun x => ((fields.find? fun f => f.1 = x).map Prod.snd).getD .any

theorem structShape_shared (shape : N → Shape N) (shared : List N) :
    structShape (shared.map fun x => (x, shape x)) = sharedShape shape shared := by
  refine congrArg Shape.struct (funext fun x => ?_)
  rw [List.find?_map]
  split
  · rename_i hx
    have hfind : shared.find? ((fun f : N × Shape N => decide (f.1 = x)) ∘ fun x => (x, shape x))
        = some x := by
      cases hfind : shared.find? ((fun f : N × Shape N => decide (f.1 = x)) ∘
          fun x => (x, shape x)) with
      | none =>
          have hne := List.find?_eq_none.mp hfind x hx
          simp at hne
      | some y =>
          have hy := List.find?_some hfind
          rw [Function.comp_apply, decide_eq_true_eq] at hy
          exact congrArg some hy
    rw [hfind]
    rfl
  · rename_i hx
    have hfind : shared.find? ((fun f : N × Shape N => decide (f.1 = x)) ∘ fun x => (x, shape x))
        = none := by
      rw [List.find?_eq_none]
      intro y hy heq
      rw [Function.comp_apply, decide_eq_true_eq] at heq
      exact hx (heq ▸ hy)
    rw [hfind]
    rfl

/-- All that a control names. -/
def Control.names (c : Control N O) : List (Ref N) :=
  namesOf c.body ++ c.controlLocals.flatMap Decl.names

/-- What is mentioned and not moved is named in the half. -/
theorem Half.mem_names {I : Interp N O E} {params : List (Param N)} {locals : List (Decl N O)}
    {arg : N} {shared : List N} {l : List (Statement N O)} {used : List (Decl N O)}
    (H : Half I (params.map Param.name) locals arg shared l used) {x : N} (hx : x ∉ shared)
    (hmem : x ∈ Mentioned l used) :
    ∃ r ∈ (Control.half params arg shared used l).names, r.name = x := by
  have hunder : ∀ {r : Ref N}, r.name = x → (r.under (moved shared arg)).name = x := by
    rintro r rfl
    cases r with
    | var y =>
        show (moved shared arg y).var = y
        have hy : y ∉ shared := hx
        rw [moved_of_notMem hy]
        rfl
    | table | action | control => rfl
  rcases hmem with ⟨r, hr, hname⟩ | ⟨d, hd, r, hr, hname, -⟩
  · refine ⟨r.under (moved shared arg), List.mem_append_left _ ?_, hunder hname⟩
    show _ ∈ namesOf (underOf (moved shared arg) l)
    rw [namesOf_under]
    exact List.mem_map_of_mem hr
  · refine ⟨r.under (moved shared arg), List.mem_append_right _ ?_, hunder hname⟩
    have hns : d.name ∉ shared := fun hs => by
      obtain ⟨type, hdecl⟩ := H.shared _ hs
      rw [H.collects.closed.declared d hd] at hdecl
      rw [Option.some.inj hdecl] at hr
      exact absurd hr List.not_mem_nil
    refine List.mem_flatMap.mpr ⟨d.under (moved shared arg), ?_, ?_⟩
    · refine List.mem_map_of_mem (List.mem_filter.mpr ⟨hd, ?_⟩)
      rw [decide_eq_true_eq]
      exact hns
    · rw [Decl.names_under]
      exact List.mem_map_of_mem hr

section Create

variable {I : Interp N O E} {params : List (Param N)} {arg : N} {s : Slice N O}
  {h₁ h₂ : Control N O} {fields : List (N × Shape N)}

/-- What `createSharedStructType` makes: both halves move what they use together and is not
replicated to the struct, and these are variables. -/
structure Creates (params : List (Param N)) (arg : N) (s : Slice N O) (replicateDecls : List N)
    (h₁ h₂ : Control N O) (fields : List (N × Shape N)) (used₁ used₂ : List (Decl N O))
    (shared : List N) : Prop where
  uses₁ : usedDeclarations s.controlLocals s.part1Body = some used₁
  uses₂ : usedDeclarations s.controlLocals s.part2Body = some used₂
  mem_shared : ∀ x, x ∈ shared ↔
    (∃ d ∈ used₁, d.name = x) ∧ (getDeclaration used₂ x).isSome ∧ x ∉ replicateDecls
  declared : ∀ x ∈ shared, ∃ type, getDeclaration s.controlLocals x = some (.variable x type)
  half₁ : h₁ = .half params arg shared used₁ s.part1Body
  half₂ : h₂ = .half params arg shared used₂ s.part2Body
  fields_eq : fields = s.newFieldsInfo.map (fun f => (f.1, .any)) ++
    shared.map fun x => (x, typesOf s.controlLocals x)

theorem exists_creates {replicateDecls : List N}
    (h : createSharedStructType params arg s replicateDecls = some (h₁, h₂, fields)) :
    ∃ used₁ used₂ shared,
      Creates params arg s replicateDecls h₁ h₂ fields used₁ used₂ shared := by
  unfold createSharedStructType at h
  split at h
  rotate_left
  · cases h
  rename_i used₁ used₂ hused₁ hused₂
  dsimp only at h
  split at h
  rotate_left
  · cases h
  rename_i hvars
  obtain ⟨rfl, rfl, rfl⟩ : _ ∧ _ ∧ _ := by
    simpa only [Prod.mk.injEq, Option.some.injEq] using h
  refine ⟨used₁, used₂, _, hused₁, hused₂, fun x => ?_, fun x hx => ?_, rfl, rfl, rfl⟩
  · rw [List.mem_map]
    constructor
    · rintro ⟨d, hd, rfl⟩
      obtain ⟨hd, hboth⟩ := List.mem_filter.mp hd
      rw [Bool.and_eq_true, decide_eq_true_eq] at hboth
      exact ⟨⟨d, hd, rfl⟩, hboth⟩
    · rintro ⟨⟨d, hd, rfl⟩, hboth⟩
      refine ⟨d, List.mem_filter.mpr ⟨hd, ?_⟩, rfl⟩
      rw [Bool.and_eq_true, decide_eq_true_eq]
      exact hboth
  · obtain ⟨d, hd, rfl⟩ := List.mem_map.mp hx
    have hdv := List.all_eq_true.mp hvars d hd
    have hdecl := (usedDeclarations_spec hused₁).closed.declared d (List.mem_filter.mp hd).1
    rcases d with ⟨x, type⟩ | _ | _ | _
    · exact ⟨type, hdecl⟩
    · cases hdv
    · cases hdv
    · cases hdv

/-- The halves of a control, with what is known of each of them, are halves of the bodies one
after the other. -/
theorem Half.halves {locals used₁ used₂ : List (Decl N O)} {shared : List N}
    {l₁ l₂ : List (Statement N O)}
    (H₁ : Half I (params.map Param.name) locals arg shared l₁ used₁)
    (H₂ : Half I (params.map Param.name) locals arg shared l₂ used₂)
    (hmem : ∀ x, x ∈ shared ↔ (∃ d ∈ used₁, d.name = x) ∧ (getDeclaration used₂ x).isSome)
    (program : N → Option (Callee N E))
    (hinputs : ∀ p ∈ params, p.dir.copiesOut = false → (runIn I program locals l₁).Keeps p.name)
    (houtputs : ∀ p ∈ params, p.dir.copiesIn = false → p.name ∉ Mentioned l₁ used₁) :
    Halves params ⟨arg, .inout⟩ (typesOf locals) (variablesOf locals)
      (variablesOf (halfLocals arg shared used₁)) (variablesOf (halfLocals arg shared used₂)) shared
      (Mentioned l₁ used₁) (Mentioned l₂ used₂) (runIn I program locals l₁)
      (runIn I program locals l₂)
      (runIn I program (halfLocals arg shared used₁) (underOf (moved shared arg) l₁))
      (runIn I program (halfLocals arg shared used₂) (underOf (moved shared arg) l₂)) := by
  have hlocal : ∀ x ∈ variablesOf locals, x ∈ locals.map Decl.name := by
    intro x hx
    obtain ⟨type, hx⟩ := mem_variablesOf.mp hx
    exact List.mem_map.mpr ⟨_, hx, rfl⟩
  exact
    { inout := rfl
      nodup := H₁.wellScoped.params_nodup
      arg_params := H₁.fresh.notParam
      arg_locals := fun h => H₁.fresh.notLocal (hlocal _ h)
      arg₁ := H₁.arg_notMem
      arg₂ := H₂.arg_notMem
      local_params := fun x hx => H₁.wellScoped.locals_params x (hlocal x hx)
      shared_locals := fun x hx => by
        obtain ⟨type, hd⟩ := H₁.shared x hx
        exact mem_variablesOf.mpr ⟨type, (mem_of_getDeclaration hd).1⟩
      shared₁ := fun x hx => by
        obtain ⟨⟨d, hd, rfl⟩, -⟩ := (hmem x).mp hx
        exact H₁.mentioned_of_used hd
      both := fun x hx₁ hx₂ => by
        refine (H₁.declared_of_mentioned hx₁).imp id fun ⟨d, hd⟩ => ?_
        have hd₂ := H₂.mem_used hx₂ hd
        obtain rfl := (mem_of_getDeclaration hd).2
        refine (hmem _).mpr ⟨⟨d, H₁.mem_used hx₁ hd, rfl⟩, ?_⟩
        rw [H₂.getDeclaration_used, if_pos (List.mem_map_of_mem hd₂), hd]
        rfl
      sub₁ := fun x hx => H₁.mem_variables.mp hx
      sub₂ := fun x hx => H₂.mem_variables.mp hx
      cover₁ := fun x hx hV => or_iff_not_imp_left.mpr fun hns => H₁.mem_variables.mpr ⟨hx, hV, hns⟩
      cover₂ := fun x hx hV => or_iff_not_imp_left.mpr fun hns => H₂.mem_variables.mpr ⟨hx, hV, hns⟩
      bisim₁ := H₁.bisim program
      bisim₂ := H₂.bisim program
      keeps₁ := fun x hx => H₁.keeps program hx
      keeps₂ := fun x hx => H₂.keeps program hx
      keeps₁' := fun x hx hne => H₁.keeps' program hx hne
      keeps₂' := fun x hx hne => H₂.keeps' program hx hne
      inputs := hinputs
      outputs := houtputs }

/-- **What the bodies of a slice do one after the other, the halves do.** -/
theorem createSharedStructType_halves
    (hcreate : createSharedStructType params arg s [] = some (h₁, h₂, fields))
    (hinfo : s.newFieldsInfo = [])
    (hscope : WellScoped I (params.map Param.name) s.controlLocals)
    (hfresh : Fresh (params.map Param.name) s.controlLocals arg)
    (hnames₁ : ∀ r ∈ namesOf s.part1Body,
      Declares (params.map Param.name) s.controlLocals [] r)
    (hnames₂ : ∀ r ∈ namesOf s.part2Body,
      Declares (params.map Param.name) s.controlLocals [] r)
    (program : N → Option (Callee N E))
    (hinputs : ∀ p ∈ params, p.dir.copiesOut = false →
      (runIn I program s.controlLocals s.part1Body).Keeps p.name)
    (houtputs : ∀ p ∈ params, p.dir.copiesIn = false → ∀ r ∈ h₁.names, r.name ≠ p.name) :
    Callee.SplitInto I ⟨params, ((runIn I program s.controlLocals s.part1Body).andThen
        (runIn I program s.controlLocals s.part2Body)).initially (typesOf s.controlLocals)
          (variablesOf s.controlLocals)⟩
      (h₁.callee I program) (h₂.callee I program) ⟨arg, .inout⟩ (structShape fields) := by
  obtain ⟨used₁, used₂, shared, hc⟩ := exists_creates hcreate
  obtain rfl := hc.half₁
  obtain rfl := hc.half₂
  obtain rfl := hc.fields_eq
  rw [hinfo, List.map_nil, List.nil_append, structShape_shared]
  have H₁ : Half I (params.map Param.name) s.controlLocals arg shared s.part1Body used₁ :=
    ⟨hscope, hfresh, hnames₁, hc.uses₁, hc.declared⟩
  have H₂ : Half I (params.map Param.name) s.controlLocals arg shared s.part2Body used₂ :=
    ⟨hscope, hfresh, hnames₂, hc.uses₂, hc.declared⟩
  have hmem : ∀ x, x ∈ shared ↔ (∃ d ∈ used₁, d.name = x) ∧ (getDeclaration used₂ x).isSome :=
    fun x => (hc.mem_shared x).trans
      (and_congr_right fun _ => and_iff_left (List.not_mem_nil (a := x)))
  have hparam : ∀ x ∈ shared, x ∉ params.map Param.name := fun x hx => by
    obtain ⟨type, hd⟩ := hc.declared x hx
    obtain ⟨hd, hname⟩ := mem_of_getDeclaration hd
    exact hscope.locals_params x (hname ▸ List.mem_map_of_mem hd)
  have hsplit := (H₁.halves H₂ hmem program hinputs fun p hp hdir hmentioned => by
    obtain ⟨r, hr, hname⟩ := H₁.mem_names
      (fun hs => hparam _ hs (List.mem_map_of_mem hp)) hmentioned
    exact houtputs p hp hdir r hr hname).splitInto (I := I)
  rw [← Rel.initially_congr _ fun x hx => H₁.typesOf_eq hx,
    ← Rel.initially_congr _ fun x hx => H₂.typesOf_eq hx] at hsplit
  exact hsplit

end Create

/-! ## The declarations for a call in halves -/

namespace ApplySplit

variable {I : Interp N O E} {params : List N} {locals : List (Decl N O)} {sp : ApplySplit N}

/-- The names of the declarations that are added. -/
def newNames (sp : ApplySplit N) : List N := [sp.varName, sp.inst₁, sp.inst₂]

omit [DecidableEq N] in
theorem map_name_decls : (sp.decls (O := O)).map Decl.name = sp.newNames := rfl

omit [DecidableEq N] in
theorem own_decls : ∀ {d : Decl N O}, d ∈ sp.decls → d.own = [] := by
  simp [decls, Decl.own]

omit [DecidableEq N] in
theorem names_decls : ∀ {d : Decl N O}, d ∈ sp.decls → d.names = [] := by
  simp [decls, Decl.names]

theorem getDeclaration_of_notMem {n : N} (hn : n ∉ sp.newNames) :
    getDeclaration (locals ++ sp.decls) n = getDeclaration locals n := by
  have hnone : getDeclaration (sp.decls (O := O)) n = none := getDeclaration_eq_none hn
  rw [getDeclaration_append, hnone, Option.or_none]

theorem getDeclaration_of_mem {n : N} (hn : n ∉ locals.map Decl.name) :
    getDeclaration (locals ++ sp.decls) n = getDeclaration sp.decls n := by
  rw [getDeclaration_append, getDeclaration_eq_none hn, Option.none_or]

theorem declared_decls {r : Ref N} (h : Declared locals r) :
    Declared (locals ++ sp.decls) r := by
  cases r with
  | var x => trivial
  | table t => exact ⟨_, _, by rw [getDeclaration_append, h.choose_spec.choose_spec]; rfl⟩
  | action a => exact ⟨_, _, by rw [getDeclaration_append, h.choose_spec.choose_spec]; rfl⟩
  | control c => exact ⟨_, by rw [getDeclaration_append, h.choose_spec]; rfl⟩

theorem declares_decls {own : List N} {r : Ref N} (h : Declares params locals own r) :
    Declares params (locals ++ sp.decls) own r := by
  cases r with
  | var x =>
      refine h.imp id fun h => h.imp id fun ⟨type, hd⟩ => ⟨type, ?_⟩
      rw [getDeclaration_append, hd]
      rfl
  | table t => exact declared_decls (r := .table t) h
  | action a => exact declared_decls (r := .action a) h
  | control c => exact declared_decls (r := .control c) h

variable (hscope : WellScoped I params locals) (hfresh : ∀ x ∈ sp.newNames, Fresh params locals x)
include hfresh

/-- What was declared before is not a new name. -/
theorem notMem_newNames {own : List N} {r : Ref N}
    (h : Declares params locals own r) (hown : r.name ∉ own) : r.name ∉ sp.newNames := by
  have hlocal : ∀ {d : Decl N O}, getDeclaration locals r.name = some d →
      r.name ∈ locals.map Decl.name := fun hd => by
    obtain ⟨hmem, hname⟩ := mem_of_getDeclaration hd
    exact hname ▸ List.mem_map_of_mem hmem
  intro hnew
  cases r with
  | var x =>
      rcases h with h | h | ⟨type, hd⟩
      · exact hown h
      · exact (hfresh x hnew).notParam h
      · exact (hfresh x hnew).notLocal (hlocal hd)
  | table t => exact (hfresh t hnew).notLocal (hlocal h.choose_spec.choose_spec)
  | action a => exact (hfresh a hnew).notLocal (hlocal h.choose_spec.choose_spec)
  | control c => exact (hfresh c hnew).notLocal (hlocal h.choose_spec)

include hscope

theorem wellScoped (hnodup : sp.newNames.Nodup) :
    WellScoped I params (locals ++ sp.decls) where
  params_nodup := hscope.params_nodup
  locals_nodup := by
    rw [List.map_append, map_name_decls, List.nodup_append]
    exact ⟨hscope.locals_nodup, hnodup, fun x hx y hy heq => (hfresh y hy).notLocal (heq ▸ hx)⟩
  locals_params := by
    rw [List.map_append, map_name_decls, List.forall_mem_append]
    exact ⟨hscope.locals_params, fun x hx => (hfresh x hx).notParam⟩
  own := by
    rw [List.forall_mem_append]
    refine ⟨fun d hd p hp => ⟨(hscope.own d hd p hp).1, ?_⟩, fun d hd p hp => ?_⟩
    · rw [List.map_append, map_name_decls, List.mem_append, not_or]
      exact ⟨(hscope.own d hd p hp).2, fun hnew => (hfresh p hnew).notOwn d hd hp⟩
    · rw [own_decls hd] at hp
      exact absurd hp List.not_mem_nil
  names := by
    rw [List.forall_mem_append]
    refine ⟨fun d hd r hr => declares_decls (hscope.names d hd r hr), fun d hd r hr => ?_⟩
    rw [names_decls hd] at hr
    exact absurd hr List.not_mem_nil
  select := fun t keys actions hd => by
    refine hscope.select t keys actions ((List.mem_append.mp hd).resolve_right fun hd => ?_)
    simp [ApplySplit.decls] at hd

theorem scope : Scope I locals {x | x ∉ sp.newNames} where
  names := fun n _ d hd r hr => by
    have hmem := (mem_of_getDeclaration hd).1
    have hdecl := hscope.names d hmem r hr
    by_cases hown : r.name ∈ d.own
    · exact Or.inr hown
    · exact Or.inl ⟨notMem_newNames hfresh hdecl hown, hdecl.declared⟩
  select := fun t _ keys actions hd => hscope.select t keys actions (mem_of_getDeclaration hd).1

theorem scope' : Scope I (locals ++ sp.decls) {x | x ∉ sp.newNames} where
  names := fun n hn d hd r hr => by
    rw [getDeclaration_of_notMem hn] at hd
    exact ((scope hscope hfresh).names n hn d hd r hr).imp
      (fun h => ⟨h.1, declared_decls h.2⟩) id
  select := fun t ht keys actions hd => by
    rw [getDeclaration_of_notMem ht] at hd
    exact (scope hscope hfresh).select t ht keys actions hd

/-- Nothing changes for what was there before. -/
theorem moves : Moves I .ofVar {x | x ≠ sp.varName} {x | x ∉ sp.newNames} locals
    (locals ++ sp.decls) where
  scope := scope hscope hfresh
  sub := fun n hn heq => hn (heq ▸ List.mem_cons_self)
  separate := separate_ofVar _
  own := fun _ _ _ _ _ _ => ⟨rfl, fun _ _ hne => hne⟩
  decl := fun n hn d hd _ => by rw [getDeclaration_of_notMem hn, hd, Decl.under_ofVar]

omit hscope in
/-- The new declarations are found. -/
theorem getDeclaration_new (hnodup : sp.newNames.Nodup) :
    getDeclaration (locals ++ sp.decls) sp.varName = some (.variable sp.varName sp.structType) ∧
    getDeclaration (locals ++ sp.decls) sp.inst₁ = some (.instance sp.inst₁ sp.type₁) ∧
    getDeclaration (locals ++ sp.decls) sp.inst₂ = some (.instance sp.inst₂ sp.type₂) := by
  have hne : sp.varName ≠ sp.inst₁ ∧ sp.varName ≠ sp.inst₂ ∧ sp.inst₁ ≠ sp.inst₂ := by
    simpa [newNames, and_assoc] using hnodup
  have hnew : ∀ x ∈ sp.newNames, getDeclaration (locals ++ sp.decls) x
      = getDeclaration sp.decls x := fun x hx => getDeclaration_of_mem (hfresh x hx).notLocal
  rw [hnew _ (by simp [newNames]), hnew sp.inst₁ (by simp [newNames]),
    hnew sp.inst₂ (by simp [newNames])]
  simp [getDeclaration, decls, Decl.name, hne]

omit [DecidableEq N] hscope hfresh in
/-- A name that is none of the new ones stays new. -/
theorem fresh_decls {x : N} (hx : Fresh params locals x) (hne : x ∉ sp.newNames) :
    Fresh params (locals ++ sp.decls) x where
  notParam := hx.notParam
  notLocal := by
    rw [List.map_append, map_name_decls, List.mem_append, not_or]
    exact ⟨hx.notLocal, hne⟩
  notOwn := by
    rw [List.forall_mem_append]
    exact ⟨hx.notOwn, fun d hd => own_decls hd ▸ List.not_mem_nil⟩

end ApplySplit

/-! ## Calling a control in halves -/

theorem bindings_withShared {params : List (Param N)} {args : List (Arg N O)} {a : Param N}
    (hnodup : (params.map Param.name).Nodup) (ha : a.name ∉ params.map Param.name)
    (horder : InOrder params args) (sp : ApplySplit N) :
    bindings (params ++ [a]) (sp.args args)
      = withShared (bindings params args) a sp.varName := by
  have hnodup' : ((params ++ [a]).map Param.name).Nodup := by
    rw [List.map_append, List.nodup_append]
    refine ⟨hnodup, List.nodup_singleton _, fun x hx y hy heq => ?_⟩
    rw [List.mem_singleton.mp hy] at heq
    exact ha (heq ▸ hx)
  have horder' : InOrder (params ++ [a]) (sp.args args) :=
    List.rel_append horder (.cons (Or.inl rfl) .nil)
  rw [bindings_eq_zip hnodup' horder', bindings_eq_zip hnodup horder, ApplySplit.args,
    List.map_append, List.zip_append (horder.length_eq.trans (List.length_map _).symm)]
  rfl

theorem map_fst_bindings {params : List (Param N)} {args : List (Arg N O)}
    (hnodup : (params.map Param.name).Nodup) (horder : InOrder params args) :
    (bindings params args).map Prod.fst = params := by
  rw [bindings_eq_zip hnodup horder]
  exact List.map_fst_zip (Nat.le_of_eq (horder.length_eq.trans (List.length_map _).symm))

/-- Running a call. -/
theorem runIn_apply (I : Interp N O E) {program : N → Option (Callee N E)}
    {locals : List (Decl N O)} {k : N} {C : Callee N E} (h : ctrlsOf program locals k = some C)
    (args : List (Arg N O)) : runIn I program locals [.apply k args]
      = callApply I (bindings C.params args) C.body := by
  have hexec : (Stmt.apply k args).exec I (ctrlsOf program locals) (actsOf I locals)
      (keysOf locals) = callApply I (bindings C.params args) C.body := by
    ext σ e σ' e'
    rw [Stmt.exec, h]
  ext σ e σ' e'
  refine ⟨?_, fun hrun => ⟨σ', e', ?_, rfl, rfl⟩⟩
  · rintro ⟨τ, d, hrun, rfl, rfl⟩
    rw [Statement.exec, hexec] at hrun
    exact hrun
  · rw [Statement.exec, hexec]
    exact hrun

theorem runIn_append (I : Interp N O E) (program : N → Option (Callee N E))
    (locals : List (Decl N O)) (l l' : List (Statement N O)) :
    runIn I program locals (l ++ l')
      = (runIn I program locals l).andThen (runIn I program locals l') := execOf_append I _ _ _ l l'

omit [DecidableEq N] in
theorem namesOf_append (l l' : List (Statement N O)) :
    namesOf (l ++ l') = namesOf l ++ namesOf l' := by
  rw [namesOf, leavesOf_append, List.flatMap_append]
  rfl

theorem SameRuns.namesOf_eq {l l' : List (Statement N O)} (h : SameRuns l l') :
    namesOf l = namesOf l' := congrArg (List.flatMap Stmt.names) h.leaves

theorem SameRuns.runIn_eq {l l' : List (Statement N O)} (h : SameRuns l l') (I : Interp N O E)
    (program : N → Option (Callee N E)) (locals : List (Decl N O)) :
    runIn I program locals l = runIn I program locals l' := h.exec I _ _ _

namespace ApplySplit

variable {I : Interp N O E} {params : List N} {locals : List (Decl N O)} {sp : ApplySplit N}

/-- The call of a half passes on what the halves share. -/
theorem runIn_half (sp : ApplySplit N) {program : N → Option (Callee N E)}
    {inst type : N} (hinst : getDeclaration locals inst = some (.instance inst type))
    {C : Callee N E} (hC : program type = some C) {params : List (Param N)} {a : Param N}
    (hparams : C.params = params ++ [a]) (hnodup : (params.map Param.name).Nodup)
    (ha : a.name ∉ params.map Param.name) {args : List (Arg N O)} (horder : InOrder params args) :
    runIn I program locals [.apply inst (sp.args args)]
      = callApply I (withShared (bindings params args) a sp.varName) C.body := by
  have hctrl : ctrlsOf program locals inst = some C := by
    rw [ctrlsOf, hinst]
    exact hC
  rw [runIn_apply I hctrl, hparams, bindings_withShared hnodup ha horder]

/-- The names in the call of a half are declared. -/
theorem declares_half (hvar : getDeclaration (locals ++ sp.decls) sp.varName
      = some (.variable sp.varName sp.structType)) {inst type : N}
    (hinst : getDeclaration (locals ++ sp.decls) inst = some (.instance inst type))
    {args : List (Arg N O)} (hargs : ∀ r ∈ argNames args, Declares params locals [] r) :
    ∀ r ∈ namesOf [Statement.apply inst (sp.args args)],
      Declares params (locals ++ sp.decls) [] r := by
  intro r hr
  obtain ⟨s, hs, hr⟩ := List.mem_flatMap.mp hr
  rw [List.mem_singleton.mp hs, Stmt.names, ApplySplit.args, argNames, List.flatMap_append] at hr
  rcases List.mem_cons.mp hr with rfl | hr
  · exact ⟨type, hinst⟩
  rcases List.mem_append.mp hr with hr | hr
  · exact declares_decls (hargs r hr)
  · rw [List.mem_singleton.mp hr]
    exact Or.inr (Or.inr ⟨_, hvar⟩)

section Runs

variable (hscope : WellScoped I params locals) (hfresh : ∀ x ∈ sp.newNames, Fresh params locals x)
  {l : List (Statement N O)} (hl : ∀ r ∈ namesOf l, Declares params locals [] r)
include hfresh hl

/-- What was there before does not name the new declarations. -/
theorem declared_namesOf : ∀ r ∈ namesOf l,
    r.name ∈ {x | x ∉ sp.newNames} ∧ Declared locals r := fun r hr =>
  ⟨notMem_newNames hfresh (hl r hr) List.not_mem_nil, (hl r hr).declared⟩

include hscope

/-- What was there before does the same next to the new declarations. -/
theorem runIn_bisim (program : N → Option (Callee N E)) : Bisim (Off sp.varName)
    (runIn I program locals l) (runIn I program (locals ++ sp.decls) l) := by
  have hrun := (moves hscope hfresh).runIn_bisim program (declared_namesOf hfresh hl)
  rwa [underOf_ofVar] at hrun

theorem runIn_keeps (program : N → Option (Callee N E)) :
    (runIn I program locals l).Keeps sp.varName :=
  (scope hscope hfresh).runIn_keeps_of_notMem program (declared_namesOf hfresh hl)
    fun h => h List.mem_cons_self

theorem runIn_keeps' (program : N → Option (Callee N E)) :
    (runIn I program (locals ++ sp.decls) l).Keeps sp.varName :=
  (scope' hscope hfresh).runIn_keeps_of_notMem program
    (fun r hr => (declared_namesOf hfresh hl r hr).imp id declared_decls)
    fun h => h List.mem_cons_self

end Runs

end ApplySplit

/-- All is declared, and what is only copied in is not assigned.  A call has its arguments in the
order of the parameters, and those that are assigned are variables that no other argument
mentions. -/
structure Control.WellFormed (I : Interp N O E) (program : N → Option (Callee N E))
    (c : Control N O) : Prop where
  scope : WellScoped I (c.params.map Param.name) c.controlLocals
  body : ∀ r ∈ namesOf c.body, Declares (c.params.map Param.name) c.controlLocals [] r
  assigned : ∀ p ∈ c.params, p.dir.copiesOut = false → ∀ s ∈ leavesOf c.body,
    p.name ∉ s.assigned (ctrlsOf program c.controlLocals) (actsOf I c.controlLocals)
  actions : ∀ p ∈ c.params, p.dir.copiesOut = false → ∀ a params body,
    .action a params body ∈ c.controlLocals → ∀ s ∈ leavesOf body,
      p.name ∉ s.assigned (fun _ => none) fun _ => (none : Option (Callee N E))
  calls : ∀ k args, .apply k args ∈ leavesOf c.body → ∀ C,
    ctrlsOf program c.controlLocals k = some C → (C.params.map Param.name).Nodup ∧
      InOrder C.params args ∧ ArgsApart (bindings C.params args)

/-- The names that are made are new. -/
structure Control.NewNames (arg : N) (callee : N → Option (ApplySplit N)) (c : Control N O) :
    Prop where
  freshArg : Fresh (c.params.map Param.name) c.controlLocals arg
  nodup : ∀ k sp, callee k = some sp → (arg :: sp.newNames).Nodup
  fresh : ∀ k sp, callee k = some sp → ∀ x ∈ sp.newNames,
    Fresh (c.params.map Param.name) c.controlLocals x

/-- An instance is split into the halves of its control. -/
def ApplySplit.Splits (I : Interp N O E) (program : N → Option (Callee N E))
    (locals : List (Decl N O)) (k : N) (sp : ApplySplit N) : Prop :=
  ∃ C C₁ C₂ a, ctrlsOf program locals k = some C ∧ program sp.type₁ = some C₁ ∧
    program sp.type₂ = some C₂ ∧ C.SplitInto I C₁ C₂ a sp.structType

/-- Nothing at which a control is to be cut stands in a branch or a case. -/
def Control.Plain (cut : O → Bool) (callee : N → Option (ApplySplit N)) (c : Control N O) : Prop :=
  plainOf cut callee c.body ∧
    ∀ a params body, .action a params body ∈ c.controlLocals → plainOf cut callee body

/-- The bodies of a slice, one after the other, are the body of the control. -/
structure Slice.Covers (I : Interp N O E) (program : N → Option (Callee N E)) (arg : N)
    (c : Control N O) (s : Slice N O) : Prop where
  scope : WellScoped I (c.params.map Param.name) s.controlLocals
  fresh : Fresh (c.params.map Param.name) s.controlLocals arg
  names₁ : ∀ r ∈ namesOf s.part1Body, Declares (c.params.map Param.name) s.controlLocals [] r
  names₂ : ∀ r ∈ namesOf s.part2Body, Declares (c.params.map Param.name) s.controlLocals [] r
  inputs : ∀ p ∈ c.params, p.dir.copiesOut = false →
    (runIn I program s.controlLocals s.part1Body).Keeps p.name
  calls : ∀ {binds : List (Param N × Expr N O)} {σ σ' : Frame N} {e e' : E},
    binds.map Prod.fst = c.params → (callApply I binds (c.callee I program).body σ e σ' e' ↔
      callApply I binds (((runIn I program s.controlLocals s.part1Body).andThen
        (runIn I program s.controlLocals s.part2Body)).initially (typesOf s.controlLocals)
          (variablesOf s.controlLocals)) σ e σ' e')

section Covers

variable {I : Interp N O E} {program : N → Option (Callee N E)} {arg : N} {c : Control N O}
  {l₁ l₂ A B : List (Statement N O)} {info : List (N × ℕ)}

/-- What is only copied in is kept. -/
theorem Control.WellFormed.keeps (hwf : c.WellFormed I program)
    (hA : ∀ s ∈ leavesOf A, s ∈ leavesOf c.body) {p : Param N} (hp : p ∈ c.params)
    (hdir : p.dir.copiesOut = false) : (runIn I program c.controlLocals A).Keeps p.name := by
  have hscope : Scope I c.controlLocals Set.univ :=
    { names := fun n _ d hd r hr =>
        Or.inl ⟨trivial, (hwf.scope.names d (mem_of_getDeclaration hd).1 r hr).declared⟩
      select := fun t _ keys actions hd =>
        hwf.scope.select t keys actions (mem_of_getDeclaration hd).1 }
  have hbody := forall_mem_namesOf.mp hwf.body
  refine hscope.runIn_keeps program (forall_mem_namesOf.mpr fun s hs r hr => ?_)
    (fun s hs => hwf.assigned p hp hdir s (hA s hs)) fun a _ params body hd => Or.inr ?_
  · exact ⟨trivial, (hbody s (hA s hs) r hr).declared⟩
  · exact hwf.actions p hp hdir a params body (mem_of_getDeclaration hd).1

/-- The control is cut in front of a statement. -/
theorem covers_of_parts (hwf : c.WellFormed I program)
    (hfresh : Fresh (c.params.map Param.name) c.controlLocals arg)
    (hl : SameRuns c.body (A ++ B)) (hl₁ : SameRuns l₁ A) (hl₂ : SameRuns l₂ B) :
    Slice.Covers I program arg c ⟨l₁, [.block l₂], c.controlLocals, info⟩ := by
  have hbody := hwf.body
  rw [hl.namesOf_eq, namesOf_append, List.forall_mem_append] at hbody
  have hl₂' : SameRuns [.block l₂] B := (SameRuns.block l₂).trans hl₂
  refine ⟨hwf.scope, hfresh, ?_, ?_, fun p hp hdir => ?_, fun _ => ?_⟩
  · rw [hl₁.namesOf_eq]
    exact hbody.1
  · rw [hl₂'.namesOf_eq]
    exact hbody.2
  · rw [hl₁.runIn_eq]
    refine hwf.keeps (fun s hs => ?_) hp hdir
    rw [hl.leaves, leavesOf_append]
    exact List.mem_append_left _ hs
  · rw [hl₁.runIn_eq, hl₂'.runIn_eq, ← runIn_append, ← hl.runIn_eq]
    rfl

/-- The names in front of a call, in it and behind it are declared. -/
theorem Control.WellFormed.declares_parts (hwf : c.WellFormed I program) {S : List (Statement N O)}
    (hl : SameRuns c.body (A ++ (S ++ B))) :
    (∀ r ∈ namesOf A, Declares (c.params.map Param.name) c.controlLocals [] r) ∧
    (∀ r ∈ namesOf S, Declares (c.params.map Param.name) c.controlLocals [] r) ∧
    ∀ r ∈ namesOf B, Declares (c.params.map Param.name) c.controlLocals [] r := by
  have hbody := hwf.body
  rwa [hl.namesOf_eq, namesOf_append, namesOf_append, List.forall_mem_append,
    List.forall_mem_append] at hbody

section Call

variable {k : N} {args : List (Arg N O)} {sp : ApplySplit N} {C C₁ C₂ : Callee N E} {a : Param N}

theorem mem_leavesOf_call (hl : SameRuns c.body (A ++ ([.apply k args] ++ B))) :
    Stmt.apply k args ∈ leavesOf c.body := by
  rw [hl.leaves, leavesOf_append, leavesOf_append]
  exact List.mem_append_right _ (List.mem_append_left _ (List.mem_singleton_self _))

/-- What is only copied in is kept in front of the call and by the first half. -/
theorem keeps_of_call (hwf : c.WellFormed I program)
    (hnew : ∀ x ∈ sp.newNames, Fresh (c.params.map Param.name) c.controlLocals x)
    (hC : ctrlsOf program c.controlLocals k = some C)
    (hl : SameRuns c.body (A ++ ([.apply k args] ++ B))) {p : Param N} (hp : p ∈ c.params)
    (hdir : p.dir.copiesOut = false) :
    ((runIn I program (c.controlLocals ++ sp.decls) A).andThen
      (callApply I (withShared (bindings C.params args) a sp.varName) C₁.body)).Keeps p.name := by
  have hpsv : p.name ≠ sp.varName := fun heq =>
    (hnew _ List.mem_cons_self).notParam (heq ▸ List.mem_map_of_mem hp)
  have hA := hwf.keeps (A := A) (fun s hs => by
    rw [hl.leaves, leavesOf_append]
    exact List.mem_append_left _ hs) hp hdir
  have hcopied := hwf.assigned p hp hdir (.apply k args) (mem_leavesOf_call hl)
  rw [Stmt.assigned, hC] at hcopied
  have hbisim := ApplySplit.runIn_bisim hwf.scope hnew (hwf.declares_parts hl).1 program
  refine (hA.off hbisim hpsv).andThen ?_
  rintro σ e _ _ ⟨φ, φ', -, -, rfl⟩
  exact copyOut_keeps (notMem_copiedOut_withShared hcopied hpsv)

/-- Calling the halves between what is in front and what is behind is running the body. -/
theorem callApply_of_call (hwf : c.WellFormed I program) (hnodup : sp.newNames.Nodup)
    (hnew : ∀ x ∈ sp.newNames, Fresh (c.params.map Param.name) c.controlLocals x)
    (hC : ctrlsOf program c.controlLocals k = some C)
    (hsplit : C.SplitInto I C₁ C₂ a sp.structType)
    (hl : SameRuns c.body (A ++ ([.apply k args] ++ B))) {binds : List (Param N × Expr N O)}
    (hbinds : binds.map Prod.fst = c.params) {σ σ' : Frame N} {e e' : E} :
    callApply I binds (c.callee I program).body σ e σ' e' ↔
      callApply I binds (((runIn I program (c.controlLocals ++ sp.decls) A).andThen
        (((callApply I (withShared (bindings C.params args) a sp.varName) C₁.body).andThen
          (callApply I (withShared (bindings C.params args) a sp.varName) C₂.body)).andThen
            (runIn I program (c.controlLocals ++ sp.decls) B))).initially
              (typesOf (c.controlLocals ++ sp.decls)) (variablesOf (c.controlLocals ++ sp.decls)))
        σ e σ' e' := by
  obtain ⟨hbodyA, hbodyCall, hbodyB⟩ := hwf.declares_parts hl
  obtain ⟨hCnodup, horder, hapart⟩ := hwf.calls k args (mem_leavesOf_call hl) C hC
  have hargs : ∀ r ∈ argNames args, r ∈ namesOf [Statement.apply k args] := fun r hr =>
    List.mem_flatMap.mpr ⟨_, List.mem_singleton_self _, List.mem_cons_of_mem _ hr⟩
  have hsv : ∀ b ∈ bindings C.params args, sp.varName ∉ b.2.refs := fun b hb hmem =>
    refs_of_mem_bindings (P := fun r => r.name ∉ sp.newNames)
      (fun r hr => (ApplySplit.declared_namesOf hnew hbodyCall r (hargs r hr)).1) b hb _ hmem
      List.mem_cons_self
  have heq := (hsplit.eqOff (map_fst_bindings hCnodup horder) hapart hsv).between
    (ApplySplit.runIn_bisim hwf.scope hnew hbodyA program)
    (ApplySplit.runIn_keeps hwf.scope hnew hbodyA program)
    (ApplySplit.runIn_keeps' hwf.scope hnew hbodyA program)
    (ApplySplit.runIn_bisim hwf.scope hnew hbodyB program)
    (ApplySplit.runIn_keeps hwf.scope hnew hbodyB program)
  have hwhole : runIn I program c.controlLocals c.body
      = (runIn I program c.controlLocals A).andThen ((callApply I (bindings C.params args)
        C.body).andThen (runIn I program c.controlLocals B)) := by
    rw [hl.runIn_eq, runIn_append, runIn_append, runIn_apply I hC]
  have hvars : variablesOf (c.controlLocals ++ sp.decls)
      = variablesOf c.controlLocals ++ [sp.varName] := List.filterMap_append
  have hlocal : ∀ x ∈ variablesOf c.controlLocals, x ∉ sp.newNames := fun x hx hmem => by
    obtain ⟨type, hx⟩ := mem_variablesOf.mp hx
    exact (hnew x hmem).notLocal (List.mem_map_of_mem hx)
  rw [hvars]
  show callApply I binds ((runIn I program c.controlLocals c.body).initially
    (typesOf c.controlLocals) (variablesOf c.controlLocals)) σ e σ' e' ↔ _
  rw [hwhole]
  refine heq.callApply_iff I (fun b hb hbsv => ?_) (fun h => hlocal _ h List.mem_cons_self)
    (fun x hx => ?_) ?_
  · refine (hnew _ List.mem_cons_self).notParam (hbsv ▸ ?_)
    rw [← hbinds, List.map_map]
    exact List.mem_map_of_mem hb
  · rw [typesOf, typesOf, ApplySplit.getDeclaration_of_notMem (hlocal x hx)]
  · rw [typesOf, (ApplySplit.getDeclaration_new hnew hnodup).1]

/-- **The control is cut at the call of a control that is cut.** -/
theorem covers_of_call (hwf : c.WellFormed I program)
    (hfresh : Fresh (c.params.map Param.name) c.controlLocals arg)
    (hnodup : (arg :: sp.newNames).Nodup)
    (hnew : ∀ x ∈ sp.newNames, Fresh (c.params.map Param.name) c.controlLocals x)
    (hsplits : sp.Splits I program c.controlLocals k)
    (hl : SameRuns c.body (A ++ ([.apply k args] ++ B)))
    (hl₁ : SameRuns l₁ (A ++ [.apply sp.inst₁ (sp.args args)]))
    (hl₂ : SameRuns l₂ ([.apply sp.inst₂ (sp.args args)] ++ B)) :
    Slice.Covers I program arg c ⟨l₁, [.block l₂], c.controlLocals ++ sp.decls, info⟩ := by
  obtain ⟨C, C₁, C₂, a, hC, hC₁, hC₂, hsplit⟩ := hsplits
  obtain ⟨harg, hnames⟩ := List.nodup_cons.mp hnodup
  obtain ⟨hbodyA, hbodyCall, hbodyB⟩ := hwf.declares_parts hl
  obtain ⟨hCnodup, horder, -⟩ := hwf.calls k args (mem_leavesOf_call hl) C hC
  obtain ⟨hdecl, hdecl₁, hdecl₂⟩ :
      getDeclaration (c.controlLocals ++ sp.decls) sp.varName
        = some (.variable sp.varName sp.structType) ∧
      getDeclaration (c.controlLocals ++ sp.decls) sp.inst₁ = some (.instance sp.inst₁ sp.type₁) ∧
      getDeclaration (c.controlLocals ++ sp.decls) sp.inst₂ = some (.instance sp.inst₂ sp.type₂) :=
    ApplySplit.getDeclaration_new hnew hnames
  -- the calls of the halves
  have hfirst := sp.runIn_half (I := I) hdecl₁ hC₁ hsplit.params₁ hCnodup hsplit.name horder
  have hsecond := sp.runIn_half (I := I) hdecl₂ hC₂ hsplit.params₂ hCnodup hsplit.name horder
  have hhalf : ∀ {x : N} {type : N}, getDeclaration (c.controlLocals ++ sp.decls) x
      = some (.instance x type) → ∀ r ∈ namesOf [Statement.apply x (sp.args args)],
      Declares (c.params.map Param.name) (c.controlLocals ++ sp.decls) [] r := fun hx =>
    ApplySplit.declares_half hdecl hx fun r hr => hbodyCall r
      (List.mem_flatMap.mpr ⟨_, List.mem_singleton_self _, List.mem_cons_of_mem _ hr⟩)
  have hl₂' : SameRuns [.block l₂] ([.apply sp.inst₂ (sp.args args)] ++ B) :=
    (SameRuns.block l₂).trans hl₂
  refine ⟨ApplySplit.wellScoped hwf.scope hnew hnames, ApplySplit.fresh_decls hfresh harg,
    ?_, ?_, fun p hp hdir => ?_, fun hbinds => ?_⟩
  · rw [hl₁.namesOf_eq, namesOf_append, List.forall_mem_append]
    exact ⟨fun r hr => ApplySplit.declares_decls (hbodyA r hr), hhalf hdecl₁⟩
  · rw [hl₂'.namesOf_eq, namesOf_append, List.forall_mem_append]
    exact ⟨hhalf hdecl₂, fun r hr => ApplySplit.declares_decls (hbodyB r hr)⟩
  · rw [hl₁.runIn_eq, runIn_append, hfirst]
    exact keeps_of_call hwf hnew hC hl hp hdir
  · rw [hl₁.runIn_eq, hl₂'.runIn_eq, runIn_append, runIn_append, hfirst, hsecond,
      Rel.andThen_assoc, ← Rel.andThen_assoc (callApply I _ C₁.body)]
    exact callApply_of_call hwf hnames hnew hC hsplit hl hbinds

end Call

end Covers

/-! ## The traversal of a control -/

section Traverse

variable {names : SliceNames N O} {cut : O → Bool} {callee : N → Option (ApplySplit N)}

omit [DecidableEq N] in
/-- The bodies of actions are not cut. -/
theorem visitLocals_plain : ∀ {locals : List (Decl N O)} {st st' : SliceState N O},
    (∀ a params body, .action a params body ∈ locals → plainOf cut callee body) →
    st.slice = false → st.slicedHalf = none →
    visitLocals names cut callee locals st = some st' → st' = st
  | [], _, _, _, _, _, h => (Option.some.inj h).symm
  | .action a params body :: locals, st, st', hplain, hslice, hhalf, h => by
      rw [visitLocals] at h
      rcases plainOf_cases body (hplain a params body List.mem_cons_self) with hno | ⟨l₁, l₂, o, hc⟩
      · rw [visit_noCut (.block body) hno hslice hhalf] at h
        exact visitLocals_plain (fun a params body hd =>
          hplain a params body (List.mem_cons_of_mem _ hd)) hslice hhalf h
      · rw [visit_block_cut hc] at h
        cases h
  | .variable _ _ :: locals, _, _, hplain, hslice, hhalf, h
  | .table _ _ _ :: locals, _, _, hplain, hslice, hhalf, h
  | .instance _ _ :: locals, _, _, hplain, hslice, hhalf, h =>
      visitLocals_plain (fun a params body hd =>
        hplain a params body (List.mem_cons_of_mem _ hd)) hslice hhalf h

omit [DecidableEq N] in
/-- **The traversal cuts the body.** -/
theorem Control.traverse_plain {c : Control N O} (hplain : c.Plain cut callee) {s : Slice N O}
    (h : c.traverse names cut callee = some (some s)) :
    ∃ l₁ l₂ o, CutsInto cut callee c.body l₁ l₂ o ∧
      s = ⟨l₁, [.block l₂], c.controlLocals ++ o.splits.flatMap ApplySplit.decls, []⟩ := by
  rw [Control.traverse] at h
  split at h
  · cases h
  split at h
  · cases h
  rename_i st hst
  obtain rfl := visitLocals_plain hplain.2 rfl rfl hst
  rcases plainOf_cases c.body hplain.1 with hno | ⟨l₁, l₂, o, hc⟩
  · rw [visit_noCut (.block c.body) hno rfl rfl] at h
    cases h
  · rw [visit_block_cut hc] at h
    exact ⟨l₁, l₂, o, hc, (Option.some.inj (Option.some.inj h)).symm⟩

variable {I : Interp N O E} {program : N → Option (Callee N E)}

/-- The bodies that the traversal leaves are the body of the control. -/
theorem Control.covers_of_traverse {c : Control N O} {s : Slice N O}
    (h : c.traverse names cut callee = some (some s)) (hplain : c.Plain cut callee)
    (hwf : c.WellFormed I program) (hnew : c.NewNames names.sharedStructInstArgName callee)
    (hcallee : ∀ k sp, callee k = some sp → sp.Splits I program c.controlLocals k) :
    s.Covers I program names.sharedStructInstArgName c ∧ s.newFieldsInfo = [] := by
  obtain ⟨l₁, l₂, o, hc, rfl⟩ := Control.traverse_plain hplain h
  refine ⟨?_, rfl⟩
  obtain ⟨A, B, hl, hl₁, hl₂⟩ := hc.exists_parts
  rcases o with _ | ⟨k, args, sp⟩
  · rw [CutCall.first, List.append_nil] at hl₁
    have hdecls : c.controlLocals ++ (CutCall.splits (none : CutCall N O)).flatMap ApplySplit.decls
        = c.controlLocals := List.append_nil _
    rw [hdecls]
    exact covers_of_parts hwf hnew.freshArg hl hl₁ hl₂
  · have hk := hc.callee_eq rfl
    have hdecls : c.controlLocals ++ (CutCall.splits (some (k, args, sp))).flatMap ApplySplit.decls
        = c.controlLocals ++ sp.decls := congrArg _ (List.append_nil _)
    rw [hdecls]
    exact covers_of_call hwf hnew.freshArg (hnew.nodup k sp hk) (hnew.fresh k sp hk)
      (hcallee k sp hk) hl hl₁ hl₂

/-- **A control is split into its halves.** -/
theorem Control.splitInto_of_slice {c h₁ h₂ : Control N O} {fields : List (N × Shape N)}
    (h : c.slice names cut callee = some (some (h₁, h₂, fields)))
    (hwhole : c.reconCalls names = none) (hplain : c.Plain cut callee)
    (hwf : c.WellFormed I program) (hnew : c.NewNames names.sharedStructInstArgName callee)
    (hcallee : ∀ k sp, callee k = some sp → sp.Splits I program c.controlLocals k)
    (houtputs : ∀ p ∈ c.params, p.dir.copiesIn = false → ∀ r ∈ h₁.names, r.name ≠ p.name) :
    (c.callee I program).SplitInto I (h₁.callee I program) (h₂.callee I program)
      ⟨names.sharedStructInstArgName, .inout⟩ (structShape fields) := by
  rw [Control.slice] at h
  split at h
  · cases h
  · cases h
  rename_i s hs
  obtain ⟨r, hcreate, hr⟩ := Option.map_eq_some_iff.mp h
  obtain rfl := Option.some.inj hr
  rw [hwhole] at hcreate
  obtain ⟨hcovers, hinfo⟩ := Control.covers_of_traverse hs hplain hwf hnew hcallee
  exact (createSharedStructType_halves hcreate hinfo hcovers.scope hcovers.fresh hcovers.names₁
    hcovers.names₂ program hcovers.inputs houtputs).of_calls rfl hcovers.calls

end Traverse

end Partitioning
end MicroP4
