import MicroP4.Foundations.Relocation
import Mathlib.Data.List.Nodup

/-!
# Calling the halves of a callee

A callee whose body is one relation after another can be called in two halves.  The caller passes
its arguments to both, with one variable more, in which the first half leaves for the second one
what both use.  Everything else is lost between the halves: what is only copied in comes from
the arguments again, and what is only copied out starts without a value (`Halves.splitInto`).
-/

namespace MicroP4
namespace CopyInCopyOut

variable {N O E : Type} [DecidableEq N]

/-! ## Values of a type -/

/-- What is known of the values of a type: which parts are structs. -/
inductive Shape (N : Type) where
  | any
  | struct (fields : N → Shape N)

def Shape.Fits : Shape N → Val N → Prop
  | .any, _ => True
  | .struct shapes, .struct fields => ∀ n, (shapes n).Fits (fields n)
  | .struct _, .bits _ => False

/-- A value of a type. -/
def Shape.default : Shape N → Val N
  | .any => .bits 0
  | .struct shapes => .struct fun n => (shapes n).default

omit [DecidableEq N] in
theorem Shape.fits_default : ∀ s : Shape N, s.Fits s.default
  | .any => trivial
  | .struct shapes => fun n => (shapes n).fits_default

/-! ## Calls whose arguments do not overlap -/

/-- The arguments that are assigned are whole variables, which no other argument mentions. -/
structure ArgsApart (binds : List (Param N × Expr N O)) : Prop where
  nodup : (binds.map fun b => b.1.name).Nodup
  whole : ∀ b ∈ binds, b.1.dir.copiesOut = true → ∃ x, b.2 = .place (.ofVar x)
  apart : ∀ b ∈ binds, b.1.dir.copiesOut = true → ∀ c ∈ binds, b.1.name ≠ c.1.name →
    ∀ x ∈ b.2.refs, x ∉ c.2.refs

section CopyOut

variable {binds : List (Param N × Expr N O)} {φ σ : Frame N}

/-- What is copied out stands in its variable. -/
theorem copyOut_self {b : Param N × Expr N O} {x : N} : ∀ {binds : List (Param N × Expr N O)}
    {σ : Frame N}, ArgsApart binds → b ∈ binds → b.1.dir.copiesOut = true →
    b.2 = .place (.ofVar x) → copyOut binds φ σ x = φ b.1.name
  | [], _, _, hb, _, _ => absurd hb List.not_mem_nil
  | c :: binds, σ, h, hb, hdir, hx => by
      have hnodup := h.nodup
      rw [List.map_cons, List.nodup_cons] at hnodup
      have hrest : ArgsApart binds := ⟨hnodup.2, fun d hd => h.whole d (List.mem_cons_of_mem _ hd),
        fun d hd hout d' hd' =>
          h.apart d (List.mem_cons_of_mem _ hd) hout d' (List.mem_cons_of_mem _ hd')⟩
      rcases List.mem_cons.mp hb with rfl | hb
      · have hx' : x ∉ copiedOut binds := by
          intro hmem
          obtain ⟨d, hd, hxd⟩ := List.mem_flatMap.mp hmem
          split at hxd
          · refine h.apart b List.mem_cons_self hdir d (List.mem_cons_of_mem _ hd) ?_ x ?_ hxd
            · exact fun heq => hnodup.1 (heq ▸ List.mem_map_of_mem hd)
            · rw [hx]
              exact List.mem_singleton_self _
          · exact absurd hxd List.not_mem_nil
        rw [copyOut, List.foldl_cons]
        refine (copyOut_keeps hx').trans ?_
        rw [copyOutOne_place hdir hx]
        exact Function.update_self _ _ _
      · show copyOut binds φ (copyOutOne φ σ c) x = φ b.1.name
        exact copyOut_self hrest hb hdir hx

/-- What is not assigned is evaluated as before. -/
theorem ArgsApart.eval_copyOut (h : ArgsApart binds) (I : Interp N O E) {b : Param N × Expr N O}
    (hb : b ∈ binds) (hdir : b.1.dir.copiesOut = false) :
    b.2.eval I (copyOut binds φ σ) = b.2.eval I σ := by
  have hrefs : ∀ x ∈ b.2.refs, x ∉ copiedOut binds := by
    intro x hx hmem
    obtain ⟨c, hc, hxc⟩ := List.mem_flatMap.mp hmem
    split at hxc
    · rename_i hout
      refine h.apart c hc hout b hb (fun heq => ?_) x hxc hx
      rw [List.inj_on_of_nodup_map h.nodup hc hb heq, hdir] at hout
      exact Bool.false_ne_true hout
    · exact absurd hxc List.not_mem_nil
  exact eval_congr I fun x hx => copyOut_keeps (hrefs x hx)

end CopyOut

omit [DecidableEq N] in
theorem notMem_copiedOut {binds : List (Param N × Expr N O)} {x : N}
    (h : ∀ b ∈ binds, x ∉ b.2.refs) : x ∉ copiedOut binds := by
  intro hx
  obtain ⟨b, hb, hxb⟩ := List.mem_flatMap.mp hx
  split at hxb
  · exact h b hb hxb
  · exact absurd hxb List.not_mem_nil

/-- Copying out twice to the same variables. -/
theorem copyOut_copyOut {binds : List (Param N × Expr N O)} (h : ArgsApart binds)
    (φ ψ σ : Frame N) : copyOut binds ψ (copyOut binds φ σ) = copyOut binds ψ σ := by
  ext x
  by_cases hx : x ∈ copiedOut binds
  · obtain ⟨b, hb, hxb⟩ := List.mem_flatMap.mp hx
    split at hxb
    · rename_i hdir
      obtain ⟨y, hy⟩ := h.whole b hb hdir
      rw [hy] at hxb
      obtain rfl := List.mem_singleton.mp hxb
      exact (copyOut_self h hb hdir hy).trans (copyOut_self h hb hdir hy).symm
    · exact absurd hxb List.not_mem_nil
  · rw [copyOut_keeps hx, copyOut_keeps hx, copyOut_keeps hx]

/-! ## Callees in two halves -/

/-- A relation that starts with values of their types in some variables. -/
def Rel.initially (R : Rel N E) (shape : N → Shape N) (locals : List N) : Rel N E :=
  fun φ e φ' e' => (∀ x ∈ locals, (shape x).Fits (φ x)) ∧ R φ e φ' e'

/-- One relation after another. -/
def Rel.andThen (R T : Rel N E) : Rel N E := fun φ e φ' e' => ∃ τ d, R φ e τ d ∧ T τ d φ' e'

omit [DecidableEq N] in
theorem Rel.andThen_assoc (R T U : Rel N E) :
    (R.andThen T).andThen U = R.andThen (T.andThen U) := by
  ext φ e φ' e'
  constructor
  · rintro ⟨τ, d, ⟨μ, c, hR, hT⟩, hU⟩
    exact ⟨μ, c, hR, τ, d, hT, hU⟩
  · rintro ⟨μ, c, hR, τ, d, hT, hU⟩
    exact ⟨τ, d, ⟨μ, c, hR, hT⟩, hU⟩

omit [DecidableEq N] in
theorem Rel.Keeps.andThen {R T : Rel N E} {x : N} (hR : R.Keeps x) (hT : T.Keeps x) :
    (R.andThen T).Keeps x := by
  rintro σ e σ' e' ⟨τ, d, hrunR, hrunT⟩
  exact (hT _ _ _ _ hrunT).trans (hR _ _ _ _ hrunR)

omit [DecidableEq N] in
theorem Rel.initially_congr (R : Rel N E) {shape shape' : N → Shape N} {locals : List N}
    (h : ∀ x ∈ locals, shape x = shape' x) :
    R.initially shape locals = R.initially shape' locals := by
  ext φ e φ' e'
  exact and_congr_left fun _ => forall₂_congr fun x hx => by rw [h x hx]

/-- A relation does the same as another one that has one variable more, which it uses for itself. -/
structure Rel.EqOff (R R' : Rel N E) (sv : N) (S : Shape N) : Prop where
  onto : ∀ {σ e σ' e'}, R σ e σ' e' → ∃ v v', S.Fits v ∧
    R' (Function.update σ sv v) e (Function.update σ' sv v') e'
  back : ∀ {σ e σ' e'}, S.Fits (σ sv) → R' σ e σ' e' →
    R σ e (Function.update σ' sv (σ sv)) e'

/-- The frames that may differ in one variable. -/
abbrev Off (sv : N) : Frame N → Frame N → Prop := Located .ofVar {x | x ≠ sv}

theorem off_update (σ : Frame N) (sv : N) (v : Val N) : Off sv σ (Function.update σ sv v) :=
  fun _ hx => ⟨trivial, Function.update_of_ne hx _ _⟩

theorem Off.eq_update {σ τ : Frame N} {sv : N} (h : Off sv σ τ) :
    τ = Function.update σ sv (τ sv) := by
  ext x
  by_cases hx : x = sv
  · rw [hx, Function.update_self]
  · rw [Function.update_of_ne hx]
    exact (h x hx).2

omit [DecidableEq N] in
/-- What keeps a variable still does, next to another one. -/
theorem Rel.Keeps.off {A A' : Rel N E} {sv x : N} (h : A.Keeps x) (hA : Bisim (Off sv) A A')
    (hx : x ≠ sv) : A'.Keeps x := by
  intro σ e τ e' hrun
  obtain ⟨σ', hrun', hτ⟩ := (hA σ σ (fun _ _ => ⟨trivial, rfl⟩) e e').2 τ hrun
  exact ((hτ x hx).2).trans (h _ _ _ _ hrun')

namespace Rel.EqOff

variable {R R' A A' B B' : Rel N E} {sv : N} {S : Shape N}

/-- Doing something else before and after. -/
theorem between (h : R.EqOff R' sv S) (hA : Bisim (Off sv) A A') (hAk : A.Keeps sv)
    (hA' : A'.Keeps sv) (hB : Bisim (Off sv) B B') (hBk : B.Keeps sv) :
    (A.andThen (R.andThen B)).EqOff (A'.andThen (R'.andThen B')) sv S where
  onto := by
    rintro σ e σ' e' ⟨τ, d, hrunA, μ, c, hrunR, hrunB⟩
    obtain ⟨v, v', hv, hrunR'⟩ := h.onto hrunR
    obtain ⟨τ', hrunA', hτ⟩ := (hA σ _ (off_update σ sv v) e d).1 τ hrunA
    obtain ⟨ν, hrunB', hν⟩ := (hB μ _ (off_update μ sv v') c e').1 σ' hrunB
    have hkeepA := hA' _ _ _ _ hrunA'
    rw [Function.update_self] at hkeepA
    rw [hτ.eq_update, hkeepA] at hrunA'
    rw [hν.eq_update] at hrunB'
    exact ⟨v, ν sv, hv, _, d, hrunA', _, c, hrunR', hrunB'⟩
  back := by
    rintro σ e σ' e' hσ ⟨τ, d, hrunA', μ, c, hrunR', hrunB'⟩
    have hτσ := hA' _ _ _ _ hrunA'
    obtain ⟨τ₀, hrunA, hτ₀⟩ := (hA σ σ (fun _ _ => ⟨trivial, rfl⟩) e d).2 τ hrunA'
    have heq : τ₀ = τ := by
      rw [hτ₀.eq_update, hτσ, ← hAk _ _ _ _ hrunA, Function.update_eq_self]
    rw [heq] at hrunA
    have hrunR := h.back (hτσ ▸ hσ) hrunR'
    obtain ⟨σ₀, hrunB, hσ₀⟩ := (hB (Function.update μ sv (τ sv)) μ
      (fun _ hx => ⟨trivial, (Function.update_of_ne hx _ _).symm⟩) c e').2 σ' hrunB'
    have hkeep := hBk _ _ _ _ hrunB
    rw [Function.update_self, hτσ] at hkeep
    have hlast : σ₀ = Function.update σ' sv (σ sv) := by
      rw [hσ₀.eq_update, Function.update_idem, ← hkeep, Function.update_eq_self]
    exact ⟨τ, d, hrunA, _, c, hrunR, hlast ▸ hrunB⟩

/-- As the body of something that is called, with the variable among its locals. -/
theorem callApply_iff (h : R.EqOff R' sv S) (I : Interp N O E) {shape shape' : N → Shape N}
    {locals : List N} {binds : List (Param N × Expr N O)} (hsv : ∀ b ∈ binds, b.1.name ≠ sv)
    (hlocal : sv ∉ locals) (hshape : ∀ x ∈ locals, shape' x = shape x) (hS : shape' sv = S)
    {σ σ' : Frame N} {e e' : E} :
    callApply I binds (R.initially shape locals) σ e σ' e' ↔
      callApply I binds (R'.initially shape' (locals ++ [sv])) σ e σ' e' := by
  have hne : ∀ x ∈ locals, x ≠ sv := fun x hx heq => hlocal (heq ▸ hx)
  have hcopy : ∀ (φ : Frame N) (v : Val N),
      copyOut binds (Function.update φ sv v) σ = copyOut binds φ σ := fun φ v =>
    copyOut_congr fun b hb => Function.update_of_ne (hsv b hb) _ _
  constructor
  · rintro ⟨φ, φ', hin, ⟨hfit, hrun⟩, rfl⟩
    obtain ⟨v, v', hv, hrun'⟩ := h.onto hrun
    refine ⟨_, _, fun b hb hdir => ?_, ⟨?_, hrun'⟩, (hcopy φ' v').symm⟩
    · rw [Function.update_of_ne (hsv b hb)]
      exact hin b hb hdir
    · rw [List.forall_mem_append, List.forall_mem_singleton, Function.update_self, hS]
      refine ⟨fun x hx => ?_, hv⟩
      rw [hshape x hx, Function.update_of_ne (hne x hx)]
      exact hfit x hx
  · rintro ⟨φ, φ', hin, ⟨hfit, hrun⟩, rfl⟩
    rw [List.forall_mem_append, List.forall_mem_singleton, hS] at hfit
    exact ⟨φ, _, hin, ⟨fun x hx => hshape x hx ▸ hfit.1 x hx, h.back hfit.2 hrun⟩,
      (hcopy φ' (φ sv)).symm⟩

end Rel.EqOff

/-- The arguments of the halves: those of the callee, and a variable for what they share. -/
def withShared (binds : List (Param N × Expr N O)) (a : Param N) (sv : N) :
    List (Param N × Expr N O) := binds ++ [(a, .place (.ofVar sv))]

omit [DecidableEq N] in
theorem notMem_copiedOut_withShared {binds : List (Param N × Expr N O)} {a : Param N} {sv x : N}
    (h : x ∉ copiedOut binds) (hx : x ≠ sv) : x ∉ copiedOut (withShared binds a sv) := by
  rw [copiedOut, withShared, List.flatMap_append, List.mem_append, not_or]
  refine ⟨h, fun hmem => ?_⟩
  obtain ⟨b, hb, hxb⟩ := List.mem_flatMap.mp hmem
  rw [List.mem_singleton.mp hb] at hxb
  split at hxb
  · exact hx (List.mem_singleton.mp hxb)
  · exact absurd hxb List.not_mem_nil

/-- Calling a callee in two halves has the same effect as calling it, but for the variable of
the caller that goes along. -/
structure Callee.SplitInto (I : Interp N O E) (C C₁ C₂ : Callee N E) (a : Param N) (S : Shape N) :
    Prop where
  params₁ : C₁.params = C.params ++ [a]
  params₂ : C₂.params = C.params ++ [a]
  name : a.name ∉ C.params.map Param.name
  halves : ∀ {binds : List (Param N × Expr N O)} {sv : N} {σ σ₁ σ₂ : Frame N} {e d e' : E},
    binds.map Prod.fst = C.params → ArgsApart binds → (∀ b ∈ binds, sv ∉ b.2.refs) →
    S.Fits (σ sv) → callApply I (withShared binds a sv) C₁.body σ e σ₁ d →
    callApply I (withShared binds a sv) C₂.body σ₁ d σ₂ e' →
    callApply I binds C.body σ e (Function.update σ₂ sv (σ sv)) e'
  whole : ∀ {binds : List (Param N × Expr N O)} {sv : N} {σ σ' : Frame N} {e e' : E},
    binds.map Prod.fst = C.params → ArgsApart binds → (∀ b ∈ binds, sv ∉ b.2.refs) →
    callApply I binds C.body σ e σ' e' → ∃ v v' σ₁ d, S.Fits v ∧
      callApply I (withShared binds a sv) C₁.body (Function.update σ sv v) e σ₁ d ∧
      callApply I (withShared binds a sv) C₂.body σ₁ d (Function.update σ' sv v') e'

/-- A callee of which all calls do the same is split as well. -/
theorem Callee.SplitInto.of_calls {I : Interp N O E} {C C' C₁ C₂ : Callee N E} {a : Param N}
    {S : Shape N} (h : C'.SplitInto I C₁ C₂ a S) (hparams : C.params = C'.params)
    (hcalls : ∀ {binds : List (Param N × Expr N O)} {σ σ' : Frame N} {e e' : E},
      binds.map Prod.fst = C.params →
      (callApply I binds C.body σ e σ' e' ↔ callApply I binds C'.body σ e σ' e')) :
    C.SplitInto I C₁ C₂ a S where
  params₁ := hparams ▸ h.params₁
  params₂ := hparams ▸ h.params₂
  name := hparams ▸ h.name
  halves := fun hbinds hargs hsv hfits h₁ h₂ =>
    (hcalls hbinds).mpr (h.halves (hparams ▸ hbinds) hargs hsv hfits h₁ h₂)
  whole := fun hbinds hargs hsv hrun =>
    h.whole (hparams ▸ hbinds) hargs hsv ((hcalls hbinds).mp hrun)

/-- Calling the halves one after the other is calling the callee, but for the variable that goes
along. -/
theorem Callee.SplitInto.eqOff {I : Interp N O E} {C C₁ C₂ : Callee N E} {a : Param N}
    {S : Shape N} (h : C.SplitInto I C₁ C₂ a S) {binds : List (Param N × Expr N O)} {sv : N}
    (hbinds : binds.map Prod.fst = C.params) (hargs : ArgsApart binds)
    (hsv : ∀ b ∈ binds, sv ∉ b.2.refs) :
    (callApply I binds C.body).EqOff ((callApply I (withShared binds a sv) C₁.body).andThen
      (callApply I (withShared binds a sv) C₂.body)) sv S where
  onto := fun hrun => by
    obtain ⟨v, v', σ₁, d, hv, h₁, h₂⟩ := h.whole hbinds hargs hsv hrun
    exact ⟨v, v', hv, σ₁, d, h₁, h₂⟩
  back := fun hfits ⟨_, _, h₁, h₂⟩ => h.halves hbinds hargs hsv hfits h₁ h₂

/-- The places of the variables when some are fields of a struct. -/
def moved (shared : List N) (a : N) (x : N) : Place N :=
  if x ∈ shared then ⟨a, [x]⟩ else .ofVar x

theorem moved_of_mem {shared : List N} {a x : N} (h : x ∈ shared) :
    moved shared a x = ⟨a, [x]⟩ := if_pos h

theorem moved_of_notMem {shared : List N} {a x : N} (h : x ∉ shared) :
    moved shared a x = .ofVar x := if_neg h

theorem separate_moved {shared : List N} {a : N} {V : Set N} (ha : a ∉ V) :
    Separate (moved shared a) V := by
  have hne : ∀ x ∈ V, x ≠ a := fun x hx heq => ha (heq ▸ hx)
  intro x hx y hy hxy
  by_cases hxs : x ∈ shared
  · by_cases hys : y ∈ shared
    · rw [moved_of_mem hxs, moved_of_mem hys]
      refine fun _ => ⟨fun h => hxy ?_, fun h => hxy ?_⟩
      · exact (List.cons_prefix_cons.mp h).1
      · exact (List.cons_prefix_cons.mp h).1.symm
    · rw [moved_of_mem hxs, moved_of_notMem hys]
      exact fun h => absurd h.symm (hne y hy)
  · by_cases hys : y ∈ shared
    · rw [moved_of_notMem hxs, moved_of_mem hys]
      exact fun h => absurd h (hne x hx)
    · rw [moved_of_notMem hxs, moved_of_notMem hys]
      exact fun h => absurd h hxy

/-- The type of the struct. -/
def sharedShape (shape : N → Shape N) (shared : List N) : Shape N :=
  .struct fun x => if x ∈ shared then shape x else .any

/-- Two relations, and what became of them when the variables both use were moved to the fields
of a parameter.  `V₁` and `V₂` are the variables they use. -/
structure Halves (params : List (Param N)) (a : Param N) (shape : N → Shape N)
    (locals locals₁ locals₂ shared : List N) (V₁ V₂ : Set N) (R₁ R₂ R₁' R₂' : Rel N E) :
    Prop where
  inout : a.dir = .inout
  nodup : (params.map Param.name).Nodup
  arg_params : a.name ∉ params.map Param.name
  arg_locals : a.name ∉ locals
  arg₁ : a.name ∉ V₁
  arg₂ : a.name ∉ V₂
  local_params : ∀ x ∈ locals, x ∉ params.map Param.name
  shared_locals : ∀ x ∈ shared, x ∈ locals
  shared₁ : ∀ x ∈ shared, x ∈ V₁
  both : ∀ x ∈ V₁, x ∈ V₂ → x ∈ params.map Param.name ∨ x ∈ shared
  sub₁ : ∀ x ∈ locals₁, x ∈ locals ∧ x ∈ V₁ ∧ x ∉ shared
  sub₂ : ∀ x ∈ locals₂, x ∈ locals ∧ x ∈ V₂ ∧ x ∉ shared
  cover₁ : ∀ x ∈ locals, x ∈ V₁ → x ∈ shared ∨ x ∈ locals₁
  cover₂ : ∀ x ∈ locals, x ∈ V₂ → x ∈ shared ∨ x ∈ locals₂
  bisim₁ : Bisim (Located (moved shared a.name) V₁) R₁ R₁'
  bisim₂ : Bisim (Located (moved shared a.name) V₂) R₂ R₂'
  keeps₁ : ∀ x ∉ V₁, R₁.Keeps x
  keeps₂ : ∀ x ∉ V₂, R₂.Keeps x
  keeps₁' : ∀ x ∉ V₁, x ≠ a.name → R₁'.Keeps x
  keeps₂' : ∀ x ∉ V₂, x ≠ a.name → R₂'.Keeps x
  -- what is only copied in is not assigned, and what is only copied out is not used before the cut
  inputs : ∀ p ∈ params, p.dir.copiesOut = false → R₁.Keeps p.name
  outputs : ∀ p ∈ params, p.dir.copiesIn = false → p.name ∉ V₁

section WithShared

variable {I : Interp N O E} {binds : List (Param N × Expr N O)} {a : Param N} {sv : N}
  {σ φ : Frame N}

omit [DecidableEq N] in
theorem copiedIn_withShared (ha : a.dir = .inout) :
    CopiedIn I (withShared binds a sv) σ φ ↔ CopiedIn I binds σ φ ∧ φ a.name = σ sv := by
  unfold CopiedIn withShared
  rw [List.forall_mem_append, List.forall_mem_singleton, ha]
  exact and_congr_right fun _ => ⟨fun h => h rfl, fun h _ => h⟩

theorem copyOut_withShared (ha : a.dir = .inout) :
    copyOut (withShared binds a sv) φ σ = Function.update (copyOut binds φ σ) sv (φ a.name) := by
  rw [copyOut, withShared, List.foldl_append, List.foldl_cons, List.foldl_nil,
    copyOutOne_place (by rw [ha]; rfl) rfl]
  rfl

end WithShared

namespace Halves

variable {I : Interp N O E} {params : List (Param N)} {a : Param N} {shape : N → Shape N}
  {locals locals₁ locals₂ shared : List N} {V₁ V₂ : Set N} {R₁ R₂ R₁' R₂' : Rel N E}
  {binds : List (Param N × Expr N O)} {sv : N} {σ : Frame N}

variable (H : Halves params a shape locals locals₁ locals₂ shared V₁ V₂ R₁ R₂ R₁' R₂')
include H

theorem notMem_shared {p : N} (hp : p ∈ params.map Param.name) : p ∉ shared := fun hs =>
  H.local_params p (H.shared_locals p hs) hp

omit H in
/-- A frame that has the shared variables in the struct is in step with the one it comes from. -/
theorem holds {V : Set N} {φ ψ : Frame N} {fields : N → Val N} (ha : ψ a.name = .struct fields)
    (hfields : ∀ x ∈ shared, fields x = φ x) (hother : ∀ x ∈ V, x ∉ shared → ψ x = φ x) :
    Located (moved shared a.name) V φ ψ := by
  intro x hx
  by_cases hxs : x ∈ shared
  · rw [moved_of_mem hxs, Place.Valid, Place.get, ha]
    exact ⟨trivial, hfields x hxs⟩
  · rw [moved_of_notMem hxs]
    exact ⟨trivial, hother x hx hxs⟩

/-- A parameter has the same value after a half, whether the half mentions it or not. -/
theorem param_eq {V : Set N} {R R' : Rel N E} {φ τ ψ ψ' : Frame N} {e d : E}
    (hkeeps : ∀ x ∉ V, R.Keeps x) (hkeeps' : ∀ x ∉ V, x ≠ a.name → R'.Keeps x)
    (hrun : R φ e τ d) (hrun' : R' ψ e ψ' d) (hloc : Located (moved shared a.name) V τ ψ') {p : N}
    (hp : p ∈ params.map Param.name) (hstart : p ∉ V → ψ p = φ p) : ψ' p = τ p := by
  by_cases hV : p ∈ V
  · have hget := (hloc p hV).2
    rw [moved_of_notMem (H.notMem_shared hp)] at hget
    exact hget
  · have hne : p ≠ a.name := fun heq => H.arg_params (heq ▸ hp)
    rw [hkeeps p hV _ _ _ _ hrun, hkeeps' p hV hne _ _ _ _ hrun', hstart hV]

/-- The second half finds in the struct what the first one has left there. -/
theorem located_between {τ ψ' ψ : Frame N} (hloc : Located (moved shared a.name) V₁ τ ψ')
    (harg : ψ a.name = ψ' a.name) (hother : ∀ x ∈ V₂, x ∉ shared → ψ x = τ x) :
    Located (moved shared a.name) V₂ τ ψ := by
  intro x hx
  by_cases hxs : x ∈ shared
  · have hget := hloc x (H.shared₁ x hxs)
    rw [moved_of_mem hxs, Place.Valid, Place.get] at hget ⊢
    rw [harg]
    exact hget
  · rw [moved_of_notMem hxs]
    exact ⟨trivial, hother x hx hxs⟩

omit H in
/-- What fits the type of the struct has the shared variables as fields. -/
theorem exists_fields {v : Val N} (h : (sharedShape shape shared).Fits v) :
    ∃ fields, v = .struct fields ∧ ∀ x ∈ shared, (shape x).Fits (fields x) := by
  cases v with
  | bits n => exact h.elim
  | struct fields => exact ⟨fields, rfl, fun x hx => by simpa only [if_pos hx] using h x⟩

/-- The variables that have the values of their arguments in the beginning. -/
def CopiesIn (binds : List (Param N × Expr N O)) (x : N) : Prop :=
  ∃ b ∈ binds, b.1.name = x ∧ b.1.dir.copiesIn = true

/-- A frame in which every variable starts with the value it has where it is used first: in the
struct, in the first half or in the second one. -/
structure Starts (shape : N → Shape N) (locals shared : List N) (V₁ V₂ : Set N)
    (binds : List (Param N × Expr N O)) (fields : N → Val N) (φ₁ φ₂ φ : Frame N) : Prop where
  inStruct : ∀ x ∈ shared, φ x = fields x
  first : ∀ x ∉ shared, x ∈ V₁ ∨ CopiesIn binds x → φ x = φ₁ x
  unused : ∀ x ∉ shared, ¬ (x ∈ V₁ ∨ CopiesIn binds x) → x ∈ locals ∧ x ∉ V₂ →
    φ x = (shape x).default
  second : ∀ x ∉ shared, ¬ (x ∈ V₁ ∨ CopiesIn binds x) → ¬ (x ∈ locals ∧ x ∉ V₂) → φ x = φ₂ x

omit H in
theorem exists_starts (fields : N → Val N) (φ₁ φ₂ : Frame N) :
    ∃ φ, Starts shape locals shared V₁ V₂ binds fields φ₁ φ₂ φ := by
  classical
  exact ⟨fun x => if x ∈ shared then fields x else if x ∈ V₁ ∨ CopiesIn binds x then φ₁ x
      else if x ∈ locals ∧ x ∉ V₂ then (shape x).default else φ₂ x,
    fun x h => if_pos h, fun x h h' => (if_neg h).trans (if_pos h'),
    fun x h h' h'' => (if_neg h).trans ((if_neg h').trans (if_pos h'')),
    fun x h h' h'' => (if_neg h).trans ((if_neg h').trans (if_neg h''))⟩

section Binds

variable (hbinds : binds.map Prod.fst = params) (hargs : ArgsApart binds)
  (hsv : ∀ b ∈ binds, sv ∉ b.2.refs)
include hbinds

omit [DecidableEq N] H in
theorem mem_names {b : Param N × Expr N O} (hb : b ∈ binds) :
    b.1.name ∈ params.map Param.name := by
  rw [← hbinds, List.map_map]
  exact List.mem_map_of_mem hb

omit [DecidableEq N] H in
theorem exists_bind {x : N} (hx : x ∈ params.map Param.name) : ∃ b ∈ binds, b.1.name = x := by
  rw [← hbinds, List.map_map] at hx
  exact List.mem_map.mp hx

include hargs hsv

omit H hbinds in
/-- The arguments after the first half. -/
theorem eval_between {φ₁' : Frame N} {w : Val N} {b : Param N × Expr N O} (hb : b ∈ binds) :
    b.2.eval I (Function.update (copyOut binds φ₁' σ) sv w)
      = if b.1.dir.copiesOut then φ₁' b.1.name else b.2.eval I σ := by
  rw [eval_update I (hsv b hb)]
  by_cases hout : b.1.dir.copiesOut = true
  · obtain ⟨x, hx⟩ := hargs.whole b hb hout
    rw [if_pos hout, hx]
    exact copyOut_self hargs hb hout hx
  · rw [if_neg hout, hargs.eval_copyOut I hb (Bool.not_eq_true _ ▸ hout)]

omit hargs hsv in
/-- The locals start with values of their types. -/
theorem fits_starts {fields : N → Val N} {φ₁ φ₂ φ : Frame N}
    (hφ : Starts shape locals shared V₁ V₂ binds fields φ₁ φ₂ φ)
    (hfit : ∀ x ∈ shared, (shape x).Fits (fields x))
    (hfit₁ : ∀ x ∈ locals₁, (shape x).Fits (φ₁ x)) (hfit₂ : ∀ x ∈ locals₂, (shape x).Fits (φ₂ x)) :
    ∀ x ∈ locals, (shape x).Fits (φ x) := by
  intro x hx
  have hc : ¬ CopiesIn binds x := by
    rintro ⟨b, hb, hbx, -⟩
    exact H.local_params x hx (hbx ▸ mem_names hbinds hb)
  by_cases hxs : x ∈ shared
  · rw [hφ.inStruct x hxs]
    exact hfit x hxs
  by_cases hxV : x ∈ V₁
  · rw [hφ.first x hxs (Or.inl hxV)]
    exact hfit₁ x ((H.cover₁ x hx hxV).resolve_left hxs)
  have hnot : ¬ (x ∈ V₁ ∨ CopiesIn binds x) := fun hor => hor.elim hxV hc
  by_cases hx₂ : x ∈ V₂
  · rw [hφ.second x hxs hnot fun hand => hand.2 hx₂]
    exact hfit₂ x ((H.cover₂ x hx hx₂).resolve_left hxs)
  · rw [hφ.unused x hxs hnot ⟨hx, hx₂⟩]
    exact (shape x).fits_default

omit hargs hsv in
/-- What the second half starts with is what the first relation leaves, if this holds of the
values that are copied in. -/
theorem starts_between {fields : N → Val N} {φ₁ φ₂ φ τ : Frame N} {e d : E}
    (hφ : Starts shape locals shared V₁ V₂ binds fields φ₁ φ₂ φ) (hrun : R₁ φ e τ d)
    (hin : ∀ b ∈ binds, b.1.dir.copiesIn = true → τ b.1.name = φ₂ b.1.name) :
    ∀ x ∉ shared, (x ∈ V₂ ∨ x ∈ params.map Param.name) → τ x = φ₂ x := by
  intro x hxs hx
  by_cases hc : CopiesIn binds x
  · obtain ⟨b, hb, rfl, hdir⟩ := hc
    exact hin b hb hdir
  have hxV : x ∉ V₁ := by
    intro hxV
    have hxp : x ∈ params.map Param.name :=
      hx.elim (fun hx₂ => (H.both x hxV hx₂).resolve_right hxs) id
    obtain ⟨b, hb, rfl⟩ := exists_bind hbinds hxp
    refine hc ⟨b, hb, rfl, Bool.of_not_eq_false fun hdir => H.outputs b.1 ?_ hdir hxV⟩
    exact hbinds ▸ List.mem_map_of_mem hb
  rw [H.keeps₁ x hxV _ _ _ _ hrun]
  refine hφ.second x hxs (fun hor => hor.elim hxV hc) ?_
  rintro ⟨hlocal, hx₂⟩
  exact hx.elim hx₂ (H.local_params x hlocal)

/-- **The halves do what the callee can do.** -/
theorem call_halves {σ₁ σ₂ : Frame N} {e d e' : E}
    (hfits : (sharedShape shape shared).Fits (σ sv))
    (h₁ : callApply I (withShared binds a sv) (R₁'.initially shape locals₁) σ e σ₁ d)
    (h₂ : callApply I (withShared binds a sv) (R₂'.initially shape locals₂) σ₁ d σ₂ e') :
    callApply I binds ((R₁.andThen R₂).initially shape locals) σ e
      (Function.update σ₂ sv (σ sv)) e' := by
  obtain ⟨φ₁, φ₁', hin₁, ⟨hfit₁, hrun₁⟩, rfl⟩ := h₁
  obtain ⟨φ₂, φ₂', hin₂, ⟨hfit₂, hrun₂⟩, rfl⟩ := h₂
  rw [copiedIn_withShared H.inout] at hin₁ hin₂
  rw [copyOut_withShared H.inout] at hin₂ ⊢
  rw [Function.update_self] at hin₂
  obtain ⟨fields, hfields, hfit⟩ := exists_fields hfits
  obtain ⟨φ, hφ⟩ : ∃ φ, Starts shape locals shared V₁ V₂ binds fields φ₁ φ₂ φ :=
    exists_starts fields φ₁ φ₂
  have hstart : Located (moved shared a.name) V₁ φ φ₁ :=
    holds (hin₁.2.trans hfields) (fun x hx => (hφ.inStruct x hx).symm)
      fun x hx hxs => (hφ.first x hxs (Or.inl hx)).symm
  obtain ⟨τ, hR₁, hτ⟩ := (H.bisim₁ φ φ₁ hstart e d).2 φ₁' hrun₁
  have hin : ∀ b ∈ binds, b.1.dir.copiesIn = true → τ b.1.name = φ₂ b.1.name := by
    intro b hb hdir
    have hp := mem_names hbinds hb
    have hφb : φ b.1.name = φ₁ b.1.name :=
      hφ.first _ (H.notMem_shared hp) (Or.inr ⟨b, hb, rfl, hdir⟩)
    rw [hin₂.1 b hb hdir, eval_between hargs hsv hb]
    by_cases hout : b.1.dir.copiesOut = true
    · rw [if_pos hout]
      exact (H.param_eq H.keeps₁ H.keeps₁' hR₁ hrun₁ hτ hp fun _ => hφb.symm).symm
    · rw [if_neg hout, ← hin₁.1 b hb hdir, ← hφb]
      refine H.inputs b.1 ?_ (Bool.not_eq_true _ ▸ hout) _ _ _ _ hR₁
      exact hbinds ▸ List.mem_map_of_mem hb
  have hother := H.starts_between hbinds hφ hR₁ hin
  have hmid : Located (moved shared a.name) V₂ τ φ₂ :=
    H.located_between hτ hin₂.2 fun x hx hxs => (hother x hxs (Or.inl hx)).symm
  obtain ⟨φ', hR₂, hφ'⟩ := (H.bisim₂ τ φ₂ hmid d e').2 φ₂' hrun₂
  refine ⟨φ, φ', fun b hb hdir => ?_,
    ⟨H.fits_starts hbinds hφ hfit hfit₁ hfit₂, τ, d, hR₁, hR₂⟩, ?_⟩
  · rw [hφ.first _ (H.notMem_shared (mem_names hbinds hb)) (Or.inr ⟨b, hb, rfl, hdir⟩)]
    exact hin₁.1 b hb hdir
  · have hlast : ∀ b ∈ binds, φ₂' b.1.name = φ' b.1.name := fun b hb => by
      have hp := mem_names hbinds hb
      exact H.param_eq H.keeps₂ H.keeps₂' hR₂ hrun₂ hφ' hp fun _ =>
        (hother _ (H.notMem_shared hp) (Or.inr hp)).symm
    have hkeep : sv ∉ copiedOut binds := notMem_copiedOut hsv
    rw [Function.update_idem, copyOut_withShared H.inout, copyOut_update hsv, Function.update_idem,
      copyOut_copyOut hargs, copyOut_congr hlast]
    exact Function.update_eq_self_iff.mpr (copyOut_keeps hkeep).symm

/-- **What the callee does, its halves can do.** -/
theorem call_whole {σ' : Frame N} {e e' : E}
    (h : callApply I binds ((R₁.andThen R₂).initially shape locals) σ e σ' e') :
    ∃ v v' σ₁ d, (sharedShape shape shared).Fits v ∧
      callApply I (withShared binds a sv) (R₁'.initially shape locals₁)
        (Function.update σ sv v) e σ₁ d ∧
      callApply I (withShared binds a sv) (R₂'.initially shape locals₂)
        σ₁ d (Function.update σ' sv v') e' := by
  obtain ⟨φ, φ', hin, ⟨hfit, τ, d, hR₁, hR₂⟩, rfl⟩ := h
  have hneA : ∀ x ∈ params.map Param.name, x ≠ a.name := fun x hx heq => H.arg_params (heq ▸ hx)
  -- the struct starts with the values of the locals
  obtain ⟨v, hv⟩ : ∃ v : Val N, v = .struct fun x => if x ∈ shared then φ x else .bits 0 := ⟨_, rfl⟩
  have hvfit : (sharedShape shape shared).Fits v := by
    rw [hv]
    intro x
    by_cases hx : x ∈ shared
    · simp only [if_pos hx]
      exact hfit x (H.shared_locals x hx)
    · simp only [if_neg hx]
      exact trivial
  have hstart : Located (moved shared a.name) V₁ φ (Function.update φ a.name v) :=
    holds ((Function.update_self _ _ _).trans hv) (fun x hx => if_pos hx)
      fun x hx _ => Function.update_of_ne (fun heq : x = a.name => H.arg₁ (heq ▸ hx)) _ _
  obtain ⟨φ₁', hrun₁, hφ₁'⟩ := (H.bisim₁ φ _ hstart e d).1 τ hR₁
  have hτ : ∀ b ∈ binds, b.1.dir.copiesIn = true → τ b.1.name =
      if b.1.dir.copiesOut then φ₁' b.1.name else φ b.1.name := by
    intro b hb hdir
    have hp := mem_names hbinds hb
    by_cases hout : b.1.dir.copiesOut = true
    · rw [if_pos hout]
      exact (H.param_eq H.keeps₁ H.keeps₁' hR₁ hrun₁ hφ₁' hp fun _ =>
        Function.update_of_ne (hneA _ hp) _ _).symm
    · rw [if_neg hout]
      refine H.inputs b.1 ?_ (Bool.not_eq_true _ ▸ hout) _ _ _ _ hR₁
      exact hbinds ▸ List.mem_map_of_mem hb
  have hmid : Located (moved shared a.name) V₂ τ (Function.update τ a.name (φ₁' a.name)) :=
    H.located_between hφ₁' (Function.update_self _ _ _) fun x hx _ =>
      Function.update_of_ne (fun heq : x = a.name => H.arg₂ (heq ▸ hx)) _ _
  obtain ⟨φ₂', hrun₂, hφ₂'⟩ := (H.bisim₂ τ _ hmid d e').1 φ' hR₂
  have hneL : ∀ x ∈ locals, x ≠ a.name := fun x hx heq => H.arg_locals (heq ▸ hx)
  refine ⟨v, φ₂' a.name, _, d, hvfit, ⟨_, φ₁', (copiedIn_withShared H.inout).mpr ⟨?_, ?_⟩,
    ⟨fun x hx => ?_, hrun₁⟩, rfl⟩, ⟨_, φ₂', (copiedIn_withShared H.inout).mpr ⟨?_, ?_⟩,
    ⟨fun x hx => ?_, hrun₂⟩, ?_⟩⟩
  · intro b hb hdir
    rw [Function.update_of_ne (hneA _ (mem_names hbinds hb)), hin b hb hdir,
      eval_update I (hsv b hb)]
  · rw [Function.update_self, Function.update_self]
  · obtain ⟨hlocal, -, -⟩ := H.sub₁ x hx
    rw [Function.update_of_ne (hneL x hlocal)]
    exact hfit x hlocal
  · intro b hb hdir
    rw [copyOut_withShared H.inout, eval_between hargs hsv hb, eval_update I (hsv b hb),
      Function.update_of_ne (hneA _ (mem_names hbinds hb)), hτ b hb hdir, hin b hb hdir]
  · rw [copyOut_withShared H.inout, Function.update_self, Function.update_self]
  · obtain ⟨hlocal, hxV, hxs⟩ := H.sub₂ x hx
    have hxV₁ : x ∉ V₁ := fun hxV₁ =>
      (H.both x hxV₁ hxV).elim (H.local_params x hlocal) hxs
    rw [Function.update_of_ne (hneL x hlocal), H.keeps₁ x hxV₁ _ _ _ _ hR₁]
    exact hfit x hlocal
  · have hlast : ∀ b ∈ binds, φ₂' b.1.name = φ' b.1.name := fun b hb => by
      have hp := mem_names hbinds hb
      exact H.param_eq H.keeps₂ H.keeps₂' hR₂ hrun₂ hφ₂' hp fun _ =>
        Function.update_of_ne (hneA _ hp) _ _
    rw [copyOut_withShared H.inout, copyOut_withShared H.inout, copyOut_update hsv,
      Function.update_idem, copyOut_copyOut hargs, copyOut_update hsv, Function.update_idem,
      copyOut_congr hlast]

end Binds

/-- **The callee is split into its halves.** -/
theorem splitInto : Callee.SplitInto I ⟨params, (R₁.andThen R₂).initially shape locals⟩
    ⟨params ++ [a], R₁'.initially shape locals₁⟩ ⟨params ++ [a], R₂'.initially shape locals₂⟩ a
    (sharedShape shape shared) where
  params₁ := rfl
  params₂ := rfl
  name := H.arg_params
  halves := fun hbinds hargs hsv hfits h₁ h₂ => H.call_halves hbinds hargs hsv hfits h₁ h₂
  whole := fun hbinds hargs hsv h => H.call_whole hbinds hargs hsv h

end Halves

end CopyInCopyOut
end MicroP4
