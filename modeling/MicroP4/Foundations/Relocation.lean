import MicroP4.Foundations.CopyInCopyOut

/-!
# Moving variables to other places

A statement can be rewritten so that it finds its variables at other places, for instance in the
fields of a struct.  As long as these places do not overlap, a frame with the variables at their
old places and a frame with them at the new ones stay in step (`exec_bisim`).

What a statement needs besides its variables (the tables, actions and callees it names) may be
declared in another way as well, if the declarations stay in step.
-/

namespace MicroP4
namespace CopyInCopyOut

variable {N O E : Type} [DecidableEq N]

/-! ## Paths into values -/

namespace Val

/-- There is something at a path. -/
def HasPath : List N → Val N → Prop
  | [], _ => True
  | f :: p, .struct fields => HasPath p (fields f)
  | _ :: _, .bits _ => False

omit [DecidableEq N] in
theorem get_append (p q : List N) (v : Val N) : get (p ++ q) v = get q (get p v) := by
  induction p generalizing v with
  | nil => rfl
  | cons f p ih =>
      cases v with
      | struct fields => exact ih (fields f)
      | bits n =>
          cases q with
          | nil => rfl
          | cons g q => rfl

theorem get_set_append (w : Val N) (q : List N) : ∀ {p : List N} {v : Val N}, HasPath p v →
    get p (set w (p ++ q) v) = set w q (get p v)
  | [], _, _ => rfl
  | f :: p, .struct fields, h => by
      rw [List.cons_append, set, get, get, Function.update_self]
      exact get_set_append w q h

theorem hasPath_set_append (w : Val N) (q : List N) : ∀ {p : List N} {v : Val N}, HasPath p v →
    HasPath p (set w (p ++ q) v)
  | [], _, _ => trivial
  | f :: p, .struct fields, h => by
      rw [List.cons_append, set, HasPath, Function.update_self]
      exact hasPath_set_append w q h

theorem hasPath_set_of_diverge (w : Val N) : ∀ {p q : List N} {v : Val N}, Diverge p q →
    HasPath p v → HasPath p (set w q v)
  | [], _, _, _, _ => trivial
  | _ :: _, [], _, h, _ => absurd List.nil_prefix h.2
  | f :: p, g :: q, .struct fields, h, hp => by
      rw [set, HasPath]
      by_cases hfg : f = g
      · subst hfg
        rw [Function.update_self]
        refine hasPath_set_of_diverge w ⟨fun hpq => h.1 ?_, fun hqp => h.2 ?_⟩ hp
        · exact List.cons_prefix_cons.mpr ⟨rfl, hpq⟩
        · exact List.cons_prefix_cons.mpr ⟨rfl, hqp⟩
      · rw [Function.update_of_ne hfg]
        exact hp

omit [DecidableEq N] in
theorem Diverge.append {p q : List N} (h : Diverge p q) (r : List N) : Diverge p (q ++ r) := by
  refine ⟨fun hp => ?_, fun hq => h.2 ((List.prefix_append q r).trans hq)⟩
  rcases List.prefix_or_prefix_of_prefix hp (List.prefix_append q r) with hpq | hqp
  · exact h.1 hpq
  · exact h.2 hqp

end Val

namespace Place

/-- There is something at a place. -/
def Valid (l : Place N) (σ : Frame N) : Prop := Val.HasPath l.path (σ l.var)

/-- The place of a whole variable. -/
def ofVar (x : N) : Place N := ⟨x, []⟩

/-- Where a place is, if the variables are at other places. -/
def under (loc : N → Place N) (l : Place N) : Place N :=
  ⟨(loc l.var).var, (loc l.var).path ++ l.path⟩

omit [DecidableEq N] in
@[simp] theorem under_ofVar (l : Place N) : l.under ofVar = l := rfl

end Place

/-- The values of some variables are found at their places. -/
def Located (loc : N → Place N) (V : Set N) (σ τ : Frame N) : Prop :=
  ∀ x ∈ V, (loc x).Valid τ ∧ (loc x).get τ = σ x

/-- The places of different variables do not overlap. -/
def Separate (loc : N → Place N) (V : Set N) : Prop :=
  ∀ x ∈ V, ∀ y ∈ V, x ≠ y → (loc x).Apart (loc y)

section Located

variable {loc : N → Place N} {V : Set N} {σ τ : Frame N}

omit [DecidableEq N] in
theorem Located.get_under (h : Located loc V σ τ) {l : Place N} (hl : l.var ∈ V) :
    (l.under loc).get τ = l.get σ := by
  rw [Place.get, Place.get, ← (h l.var hl).2]
  exact Val.get_append _ _ _

theorem Located.set_under (h : Located loc V σ τ) (hsep : Separate loc V) {l : Place N}
    (hl : l.var ∈ V) (w : Val N) : Located loc V (l.set w σ) ((l.under loc).set w τ) := by
  intro x hx
  obtain ⟨hvalid, hget⟩ := h x hx
  by_cases hxl : x = l.var
  · subst hxl
    rw [Place.Valid, Place.get, Place.set, Place.set, Place.under, Function.update_self,
      Function.update_self, ← hget]
    exact ⟨Val.hasPath_set_append w _ hvalid, Val.get_set_append w _ hvalid⟩
  · have hapart := hsep x hx l.var hl hxl
    have hsame : l.set w σ x = σ x := Function.update_of_ne hxl _ _
    rw [hsame, ← hget]
    rw [Place.Valid, Place.get, Place.get, Place.set, Place.under]
    by_cases hvar : (loc x).var = (loc l.var).var
    · rw [hvar, Function.update_self]
      rw [Place.Valid, hvar] at hvalid
      exact ⟨Val.hasPath_set_of_diverge w ((hapart hvar).append _) hvalid,
        Val.get_set_of_diverge w _ ((hapart hvar).append _)⟩
    · rw [Function.update_of_ne hvar]
      exact ⟨hvalid, rfl⟩

end Located

/-! ## Rewriting statements -/

/-- An expression with its variables at other places. -/
def Expr.under (loc : N → Place N) : Expr N O → Expr N O
  | .lit o => .lit o
  | .place l => .place (l.under loc)
  | .op o a b => .op o (a.under loc) (b.under loc)

def Arg.under (loc : N → Place N) (a : Arg N O) : Arg N O := ⟨a.name, a.value.under loc⟩

/-- A statement with its variables at other places. -/
def Stmt.under (loc : N → Place N) : Stmt N O → Stmt N O
  | .skip => .skip
  | .seq s t => .seq (s.under loc) (t.under loc)
  | .assign l e => .assign (l.under loc) (e.under loc)
  | .cond c s t => .cond (c.under loc) (s.under loc) (t.under loc)
  | .method f ins outs => .method f (ins.map (Expr.under loc)) (outs.map (Place.under loc))
  | .table t => .table t
  | .action a args => .action a (args.map (Arg.under loc))
  | .apply c args => .apply c (args.map (Arg.under loc))

/-- What a statement names. -/
inductive Ref (N : Type) where
  | var (x : N)
  | table (t : N)
  | action (a : N)
  | control (c : N)
  deriving DecidableEq

def Ref.name : Ref N → N
  | .var x | .table x | .action x | .control x => x

def Expr.names (e : Expr N O) : List (Ref N) := e.refs.map .var

def argNames (args : List (Arg N O)) : List (Ref N) := args.flatMap fun a => a.value.names

/-- All that a statement names. -/
def Stmt.names : Stmt N O → List (Ref N)
  | .skip => []
  | .seq s t => s.names ++ t.names
  | .assign l e => .var l.var :: e.names
  | .cond c s t => c.names ++ (s.names ++ t.names)
  | .method _ ins outs => ins.flatMap Expr.names ++ outs.map fun l => .var l.var
  | .table t => [.table t]
  | .action a args => .action a :: argNames args
  | .apply c args => .control c :: argNames args

/-- A name, if the variables are at other places. -/
def Ref.under (loc : N → Place N) : Ref N → Ref N
  | .var x => .var (loc x).var
  | r => r

omit [DecidableEq N] in
theorem Expr.names_under (loc : N → Place N) : ∀ e : Expr N O,
    (e.under loc).names = e.names.map (Ref.under loc)
  | .lit _ | .place _ => rfl
  | .op o a b => by
      have happ : ∀ a b : Expr N O, (Expr.op o a b).names = a.names ++ b.names := fun a b =>
        List.map_append
      rw [Expr.under, happ, happ, Expr.names_under loc a, Expr.names_under loc b, List.map_append]

omit [DecidableEq N] in
theorem argNames_under (loc : N → Place N) (args : List (Arg N O)) :
    argNames (args.map (Arg.under loc)) = (argNames args).map (Ref.under loc) := by
  rw [argNames, argNames, List.flatMap_map, List.map_flatMap]
  exact List.flatMap_congr fun a _ => a.value.names_under loc

omit [DecidableEq N] in
/-- What a rewritten statement names. -/
theorem Stmt.names_under (loc : N → Place N) : ∀ s : Stmt N O,
    (s.under loc).names = s.names.map (Ref.under loc)
  | .skip | .table _ => rfl
  | .seq s t => by
      rw [Stmt.under, Stmt.names, Stmt.names, Stmt.names_under loc s, Stmt.names_under loc t,
        List.map_append]
  | .assign l e => by
      rw [Stmt.under, Stmt.names, Stmt.names, Expr.names_under]
      rfl
  | .cond c s t => by
      rw [Stmt.under, Stmt.names, Stmt.names, Expr.names_under, Stmt.names_under loc s,
        Stmt.names_under loc t, List.map_append, List.map_append]
  | .method f ins outs => by
      rw [Stmt.under, Stmt.names, Stmt.names, List.map_append, List.flatMap_map, List.map_flatMap,
        List.map_map, List.map_map]
      congr 1
      exact List.flatMap_congr fun e _ => e.names_under loc
  | .action a args => by
      rw [Stmt.under, Stmt.names, Stmt.names, argNames_under]
      rfl
  | .apply c args => by
      rw [Stmt.under, Stmt.names, Stmt.names, argNames_under]
      rfl

omit [DecidableEq N] in
@[simp] theorem Expr.under_ofVar : ∀ e : Expr N O, e.under Place.ofVar = e
  | .lit _ | .place _ => rfl
  | .op o a b => by rw [Expr.under, Expr.under_ofVar a, Expr.under_ofVar b]

omit [DecidableEq N] in
@[simp] theorem Arg.under_ofVar (a : Arg N O) : a.under Place.ofVar = a := by
  rw [Arg.under, Expr.under_ofVar]

omit [DecidableEq N] in
theorem separate_ofVar (V : Set N) : Separate Place.ofVar V := fun _ _ _ _ hne heq =>
  absurd heq hne

section Eval

variable (I : Interp N O E) {loc : N → Place N} {V : Set N} {σ τ : Frame N}

omit [DecidableEq N] in
theorem Located.eval_under (h : Located loc V σ τ) : ∀ {e : Expr N O}, (∀ x ∈ e.refs, x ∈ V) →
    (e.under loc).eval I τ = e.eval I σ
  | .lit _, _ => rfl
  | .place l, he => h.get_under (he l.var (List.mem_singleton_self _))
  | .op o a b, he => by
      rw [Expr.under, Expr.eval, Expr.eval,
        h.eval_under fun x hx => he x (List.mem_append_left _ hx),
        h.eval_under fun x hx => he x (List.mem_append_right _ hx)]

omit [DecidableEq N] in
/-- An expression depends on its variables only. -/
theorem eval_congr : ∀ {e : Expr N O}, (∀ x ∈ e.refs, τ x = σ x) → e.eval I τ = e.eval I σ
  | .lit _, _ => rfl
  | .place l, h => by
      rw [Expr.eval, Expr.eval, Place.get, Place.get, h l.var (List.mem_singleton_self _)]
  | .op o a b, h => by
      rw [Expr.eval, Expr.eval, eval_congr fun x hx => h x (List.mem_append_left _ hx),
        eval_congr fun x hx => h x (List.mem_append_right _ hx)]

omit [DecidableEq N] in
theorem Located.map_eval_under (h : Located loc V σ τ) {es : List (Expr N O)}
    (hes : ∀ e ∈ es, ∀ x ∈ e.refs, x ∈ V) :
    (es.map (Expr.under loc)).map (Expr.eval I τ) = es.map (Expr.eval I σ) := by
  rw [List.map_map]
  exact List.map_congr_left fun e he => h.eval_under I (hes e he)

theorem Located.setAll_under (hsep : Separate loc V) : ∀ {ls : List (Place N)} {ws : List (Val N)}
    {σ τ : Frame N}, Located loc V σ τ → (∀ l ∈ ls, l.var ∈ V) →
    Located loc V (setAll ls ws σ) (setAll (ls.map (Place.under loc)) ws τ)
  | [], _, _, _, h, _ => h
  | _ :: _, [], _, _, h, _ => h
  | l :: ls, w :: ws, σ, τ, h, hls => by
      rw [List.map_cons, setAll, setAll]
      exact Located.setAll_under hsep (h.set_under hsep (hls l List.mem_cons_self) w)
        fun m hm => hls m (List.mem_cons_of_mem _ hm)

theorem takeArg_under (n : N) (args : List (Arg N O)) :
    takeArg n (args.map (Arg.under loc))
      = (takeArg n args).map fun r => (r.1.under loc, r.2.map (Arg.under loc)) := by
  have hfor : (Arg.isFor n ∘ Arg.under loc : Arg N O → Bool) = Arg.isFor n := rfl
  rw [takeArg, takeArg, List.find?_map, hfor]
  cases hfind : args.find? (Arg.isFor n) with
  | some a => rw [Option.map_some, List.eraseP_map, hfor]; rfl
  | none =>
      rw [Option.map_none]
      rcases args with _ | ⟨⟨name | name, v⟩, rest⟩
      · rfl
      · rfl
      · rfl

theorem bindings_under : ∀ (params : List (Param N)) (args : List (Arg N O)),
    bindings params (args.map (Arg.under loc))
      = (bindings params args).map fun b => (b.1, b.2.under loc)
  | [], _ => rfl
  | p :: ps, args => by
      rw [bindings, bindings, takeArg_under]
      cases takeArg p.name args with
      | none => exact bindings_under ps args
      | some r =>
          rw [Option.map_some]
          dsimp only
          rw [bindings_under ps r.2, List.map_cons]

omit [DecidableEq N] in
theorem Located.copiedIn_under (h : Located loc V σ τ) {binds : List (Param N × Expr N O)}
    (hb : ∀ b ∈ binds, ∀ x ∈ b.2.refs, x ∈ V) {φ : Frame N} :
    CopiedIn I (binds.map fun b => (b.1, b.2.under loc)) τ φ ↔ CopiedIn I binds σ φ := by
  unfold CopiedIn
  rw [List.forall_mem_map]
  refine forall₂_congr fun b hmem => imp_congr_right fun _ => ?_
  rw [h.eval_under I (hb b hmem)]

theorem Located.copyOut_under (hsep : Separate loc V) : ∀ {binds : List (Param N × Expr N O)}
    {φ ψ σ τ : Frame N}, Located loc V σ τ → (∀ b ∈ binds, ∀ x ∈ b.2.refs, x ∈ V) →
    (∀ b ∈ binds, ψ b.1.name = φ b.1.name) →
    Located loc V (copyOut binds φ σ) (copyOut (binds.map fun b => (b.1, b.2.under loc)) ψ τ)
  | [], _, _, _, _, h, _, _ => h
  | b :: binds, φ, ψ, σ, τ, h, hb, hφ => by
      have hone : Located loc V (copyOutOne φ σ b) (copyOutOne ψ τ (b.1, b.2.under loc)) := by
        unfold copyOutOne
        split
        · cases hval : b.2 with
          | place l =>
              dsimp only [Expr.under]
              rw [hφ b List.mem_cons_self]
              refine h.set_under hsep (hb b List.mem_cons_self l.var ?_) _
              rw [hval]
              exact List.mem_singleton_self _
          | lit o => exact h
          | op o a c => exact h
        · exact h
      show Located loc V (copyOut binds φ (copyOutOne φ σ b)) (copyOut
        (binds.map fun b => (b.1, b.2.under loc)) ψ (copyOutOne ψ τ (b.1, b.2.under loc)))
      exact Located.copyOut_under hsep hone (fun c hc => hb c (List.mem_cons_of_mem _ hc))
        fun c hc => hφ c (List.mem_cons_of_mem _ hc)

end Eval

/-! ## Running in step -/

/-- Two relations keep frames in step, and each can do what the other one does. -/
def Bisim (ρ : Frame N → Frame N → Prop) (R R' : Rel N E) : Prop :=
  ∀ σ τ, ρ σ τ → ∀ e e', (∀ σ', R σ e σ' e' → ∃ τ', R' τ e τ' e' ∧ ρ σ' τ') ∧
    ∀ τ', R' τ e τ' e' → ∃ σ', R σ e σ' e' ∧ ρ σ' τ'

namespace Bisim

variable {ρ : Frame N → Frame N → Prop} {R R' T T' : Rel N E}

omit [DecidableEq N] in
theorem skip : Bisim ρ (fun σ (e : E) σ' e' => σ' = σ ∧ e' = e) fun σ e σ' e' => σ' = σ ∧ e' = e :=
  fun σ τ h _ _ => ⟨fun _ hr => ⟨τ, ⟨rfl, hr.2⟩, hr.1 ▸ h⟩, fun _ hr => ⟨σ, ⟨rfl, hr.2⟩, hr.1 ▸ h⟩⟩

omit [DecidableEq N] in
theorem seq (hR : Bisim ρ R R') (hT : Bisim ρ T T') :
    Bisim ρ (fun σ (e : E) σ' e' => ∃ μ d, R σ e μ d ∧ T μ d σ' e')
      fun σ e σ' e' => ∃ μ d, R' σ e μ d ∧ T' μ d σ' e' := by
  intro σ τ h e e'
  constructor
  · rintro σ' ⟨μ, d, hr, ht⟩
    obtain ⟨ν, hr', hν⟩ := (hR σ τ h e d).1 μ hr
    obtain ⟨τ', ht', hτ'⟩ := (hT μ ν hν d e').1 σ' ht
    exact ⟨τ', ⟨ν, d, hr', ht'⟩, hτ'⟩
  · rintro τ' ⟨ν, d, hr, ht⟩
    obtain ⟨μ, hr', hμ⟩ := (hR σ τ h e d).2 ν hr
    obtain ⟨σ', ht', hσ'⟩ := (hT μ ν hμ d e').2 τ' ht
    exact ⟨σ', ⟨μ, d, hr', ht'⟩, hσ'⟩

omit [DecidableEq N] in
/-- Computing new frames. -/
theorem of_fun (f f' : Frame N → E → Frame N × E)
    (h : ∀ σ τ e, ρ σ τ → ρ (f σ e).1 (f' τ e).1 ∧ (f' τ e).2 = (f σ e).2) :
    Bisim ρ (fun σ e σ' e' => σ' = (f σ e).1 ∧ e' = (f σ e).2)
      fun σ e σ' e' => σ' = (f' σ e).1 ∧ e' = (f' σ e).2 := by
  intro σ τ hρ e e'
  obtain ⟨hnext, he⟩ := h σ τ e hρ
  constructor
  · rintro _ ⟨rfl, rfl⟩
    exact ⟨_, ⟨rfl, he.symm⟩, hnext⟩
  · rintro _ ⟨rfl, rfl⟩
    exact ⟨_, ⟨rfl, he⟩, hnext⟩

omit [DecidableEq N] in
theorem ite {c c' : Frame N → Prop} [∀ σ, Decidable (c σ)] [∀ σ, Decidable (c' σ)]
    (hc : ∀ σ τ, ρ σ τ → (c' τ ↔ c σ)) (hR : Bisim ρ R R') (hT : Bisim ρ T T') :
    Bisim ρ (fun σ (e : E) σ' e' => if c σ then R σ e σ' e' else T σ e σ' e')
      fun σ e σ' e' => if c' σ then R' σ e σ' e' else T' σ e σ' e' := by
  intro σ τ h e e'
  by_cases hσ : c σ
  · simp only [if_pos hσ, if_pos ((hc σ τ h).mpr hσ)]
    exact hR σ τ h e e'
  · simp only [if_neg hσ, if_neg (mt (hc σ τ h).mp hσ)]
    exact hT σ τ h e e'

end Bisim

section Callees

variable (I : Interp N O E) {loc : N → Place N} {V : Set N}

/-- Two declarations of an action stay in step.  The parameters stay where they are, and no other
variable is moved there. -/
structure Callee.Alike (loc : N → Place N) (V : Set N) (c c' : Callee N E) : Prop where
  params : c'.params = c.params
  fresh : ∀ x ∈ V, x ∉ c.params.map Param.name → (loc x).var ∉ c.params.map Param.name
  own : ∀ p ∈ c.params.map Param.name, loc p = .ofVar p
  body : Bisim (Located loc (V ∪ {p | p ∈ c.params.map Param.name})) c.body c'.body

/-- The frames of two declarations of an action, with values for the parameters. -/
theorem Callee.Alike.bisim_inFrame {c c' : Callee N E} (h : c.Alike loc V c')
    {init init' : Frame N → Prop}
    (hinit : ∀ φ ψ : Frame N, (∀ p ∈ c.params.map Param.name, ψ p = φ p) → (init φ ↔ init' ψ))
    {σ τ : Frame N} (hστ : Located loc V σ τ) (e e' : E) :
    (∀ φ' σ', inFrame c.params c.body init σ e φ' σ' e' → ∃ ψ' τ',
      inFrame c.params c'.body init' τ e ψ' τ' e' ∧ Located loc V σ' τ' ∧
        ∀ p ∈ c.params.map Param.name, ψ' p = φ' p) ∧
    ∀ ψ' τ', inFrame c.params c'.body init' τ e ψ' τ' e' → ∃ φ' σ',
      inFrame c.params c.body init σ e φ' σ' e' ∧ Located loc V σ' τ' ∧
        ∀ p ∈ c.params.map Param.name, ψ' p = φ' p := by
  have hown : ∀ {φ ψ : Frame N}, Located loc (V ∪ {p | p ∈ c.params.map Param.name}) φ ψ →
      ∀ p ∈ c.params.map Param.name, ψ p = φ p := by
    intro φ ψ hφψ p hp
    have hget := (hφψ p (Or.inr hp)).2
    rw [h.own p hp] at hget
    exact hget
  -- the frames of the bodies
  have henter : ∀ {φ ψ : Frame N}, (∀ x ∉ c.params.map Param.name, φ x = σ x) →
      (∀ x ∉ c.params.map Param.name, ψ x = τ x) → (∀ p ∈ c.params.map Param.name, ψ p = φ p) →
      Located loc (V ∪ {p | p ∈ c.params.map Param.name}) φ ψ := by
    intro φ ψ hφ hψ hp x hx
    by_cases hxp : x ∈ c.params.map Param.name
    · rw [h.own x hxp]
      exact ⟨trivial, hp x hxp⟩
    · have hxV := hx.resolve_right hxp
      obtain ⟨hvalid, hget⟩ := hστ x hxV
      rw [Place.Valid, Place.get, hψ _ (h.fresh x hxV hxp), hφ x hxp]
      exact ⟨hvalid, hget⟩
  have hleave : ∀ {φ' ψ' : Frame N},
      Located loc (V ∪ {p | p ∈ c.params.map Param.name}) φ' ψ' →
      Located loc V (fun x => if x ∈ c.params.map Param.name then σ x else φ' x)
        fun x => if x ∈ c.params.map Param.name then τ x else ψ' x := by
    intro φ' ψ' hφψ x hx
    by_cases hxp : x ∈ c.params.map Param.name
    · have hget := (hστ x hx).2
      rw [h.own x hxp] at hget ⊢
      refine ⟨trivial, ?_⟩
      show (if x ∈ c.params.map Param.name then τ x else ψ' x)
        = if x ∈ c.params.map Param.name then σ x else φ' x
      rw [if_pos hxp, if_pos hxp]
      exact hget
    · obtain ⟨hvalid, hget⟩ := hφψ x (Or.inl hx)
      rw [Place.Valid, Place.get]
      simp only [if_neg hxp, if_neg (h.fresh x hx hxp)]
      exact ⟨hvalid, hget⟩
  constructor
  · rintro φ' _ ⟨φ, hshare, hφ, hrun, rfl⟩
    have hψ : ∀ p ∈ c.params.map Param.name,
        (if p ∈ c.params.map Param.name then φ p else τ p) = φ p := fun p hp => if_pos hp
    obtain ⟨ψ', hrun', hφψ⟩ := (h.body φ (fun x => if x ∈ c.params.map Param.name then φ x else τ x)
      (henter hshare (fun x hx => if_neg hx) hψ) e e').1 φ' hrun
    exact ⟨ψ', _, ⟨_, fun x hx => if_neg hx, (hinit _ _ hψ).mp hφ, hrun', rfl⟩, hleave hφψ,
      hown hφψ⟩
  · rintro ψ' _ ⟨ψ, hshare, hψ, hrun, rfl⟩
    have hφ : ∀ p ∈ c.params.map Param.name,
        ψ p = (if p ∈ c.params.map Param.name then ψ p else σ p) := fun p hp => (if_pos hp).symm
    obtain ⟨φ', hrun', hφψ⟩ := (h.body (fun x => if x ∈ c.params.map Param.name then ψ x else σ x) ψ
      (henter (fun x hx => if_neg hx) hshare hφ) e e').2 ψ' hrun
    exact ⟨φ', _, ⟨_, fun x hx => if_neg hx, (hinit _ _ hφ).mpr hψ, hrun', rfl⟩, hleave hφψ,
      hown hφψ⟩

/-- What is declared under a name stays in step, for a variable in the set. -/
def RefAlike (loc : N → Place N) (V : Set N) (ctrls acts : N → Option (Callee N E))
    (keys : N → List (Expr N O)) (ctrls' acts' : N → Option (Callee N E))
    (keys' : N → List (Expr N O)) : Ref N → Prop
  | .var x => x ∈ V
  | .table t => keys' t = (keys t).map (Expr.under loc) ∧ (∀ r ∈ keys t, ∀ x ∈ r.refs, x ∈ V) ∧
      ∀ vals a ws, I.select t vals = some (a, ws) →
        Option.Rel (Callee.Alike loc V) (acts a) (acts' a)
  | .action a => Option.Rel (Callee.Alike loc V) (acts a) (acts' a)
  | .control c => ctrls' c = ctrls c

variable {ctrls acts ctrls' acts' : N → Option (Callee N E)} {keys keys' : N → List (Expr N O)}

omit [DecidableEq N] in
theorem refs_of_names {e : Expr N O} {P : Ref N → Prop} (h : ∀ r ∈ e.names, P r) :
    ∀ x ∈ e.refs, P (.var x) := fun _ hx => h _ (List.mem_map_of_mem hx)

omit [DecidableEq N] in
theorem refs_of_argNames {args : List (Arg N O)} {P : Ref N → Prop}
    (h : ∀ r ∈ argNames args, P r) : ∀ a ∈ args, ∀ x ∈ a.value.refs, P (.var x) :=
  fun a ha => refs_of_names fun r hr => h r (List.mem_flatMap.mpr ⟨a, ha, hr⟩)

theorem refs_of_mem_bindings {params : List (Param N)} {args : List (Arg N O)} {P : Ref N → Prop}
    (h : ∀ r ∈ argNames args, P r) : ∀ b ∈ bindings params args, ∀ x ∈ b.2.refs, P (.var x) := by
  intro b hb
  obtain ⟨-, a, ha, heq⟩ := mem_of_mem_bindings hb
  exact heq ▸ refs_of_argNames h a ha

theorem bisim_callAction (hsep : Separate loc V) {c c' : Callee N E} (hc : c.Alike loc V c')
    {args : List (Arg N O)} (hargs : ∀ b ∈ bindings c.params args, ∀ x ∈ b.2.refs, x ∈ V) :
    Bisim (Located loc V) (callAction I c.params (bindings c.params args) c.body)
      (callAction I c'.params (bindings c'.params (args.map (Arg.under loc))) c'.body) := by
  intro σ τ h e e'
  have hname : ∀ b ∈ bindings c.params args, b.1.name ∈ c.params.map Param.name := fun b hb =>
    List.mem_map_of_mem (mem_of_mem_bindings hb).1
  have hinit : ∀ φ ψ : Frame N, (∀ p ∈ c.params.map Param.name, ψ p = φ p) →
      (CopiedIn I (bindings c.params args) σ φ ↔ CopiedIn I
        ((bindings c.params args).map fun b => (b.1, b.2.under loc)) τ ψ) := by
    intro φ ψ hp
    rw [h.copiedIn_under I hargs]
    refine forall₂_congr fun b hb => imp_congr_right fun _ => ?_
    rw [hp b.1.name (hname b hb)]
  unfold callAction
  rw [hc.params, bindings_under]
  obtain ⟨hfwd, hbwd⟩ := hc.bisim_inFrame hinit h e e'
  constructor
  · rintro _ ⟨φ', σ', hin, rfl⟩
    obtain ⟨ψ', τ', hin', hστ', hp⟩ := hfwd φ' σ' hin
    exact ⟨_, ⟨ψ', τ', hin', rfl⟩, hστ'.copyOut_under hsep hargs fun b hb => hp _ (hname b hb)⟩
  · rintro _ ⟨ψ', τ', hin', rfl⟩
    obtain ⟨φ', σ', hin, hστ', hp⟩ := hbwd ψ' τ' hin'
    exact ⟨_, ⟨φ', σ', hin, rfl⟩, hστ'.copyOut_under hsep hargs fun b hb => hp _ (hname b hb)⟩

theorem bisim_callApply (hsep : Separate loc V) {binds : List (Param N × Expr N O)}
    (hrefs : ∀ b ∈ binds, ∀ x ∈ b.2.refs, x ∈ V) (body : Rel N E) :
    Bisim (Located loc V) (callApply I binds body)
      (callApply I (binds.map fun b => (b.1, b.2.under loc)) body) := by
  intro σ τ h e e'
  constructor
  · rintro _ ⟨φ, φ', hin, hrun, rfl⟩
    exact ⟨_, ⟨φ, φ', (h.copiedIn_under I hrefs).mpr hin, hrun, rfl⟩,
      h.copyOut_under hsep hrefs fun _ _ => rfl⟩
  · rintro _ ⟨φ, φ', hin, hrun, rfl⟩
    exact ⟨_, ⟨φ, φ', (h.copiedIn_under I hrefs).mp hin, hrun, rfl⟩,
      h.copyOut_under hsep hrefs fun _ _ => rfl⟩

/-- **A statement and its rewriting stay in step**, if all that it names does. -/
theorem exec_bisim (hsep : Separate loc V) : ∀ {s : Stmt N O},
    (∀ r ∈ s.names, RefAlike I loc V ctrls acts keys ctrls' acts' keys' r) →
    Bisim (Located loc V) (s.exec I ctrls acts keys) ((s.under loc).exec I ctrls' acts' keys')
  | .skip, _ => Bisim.skip
  | .seq s t, h => by
      rw [Stmt.names, List.forall_mem_append] at h
      exact (exec_bisim hsep h.1).seq (exec_bisim hsep h.2)
  | .assign l r, h => by
      rw [Stmt.names, List.forall_mem_cons] at h
      refine Bisim.of_fun (fun σ e => (l.set (r.eval I σ) σ, e))
        (fun σ e => ((l.under loc).set ((r.under loc).eval I σ) σ, e)) fun σ τ e hρ => ?_
      rw [hρ.eval_under I (refs_of_names h.2)]
      exact ⟨hρ.set_under hsep h.1 _, rfl⟩
  | .cond c s t, h => by
      rw [Stmt.names, List.forall_mem_append, List.forall_mem_append] at h
      refine Bisim.ite (fun σ τ hρ => ?_) (exec_bisim hsep h.2.1) (exec_bisim hsep h.2.2)
      rw [hρ.eval_under I (refs_of_names h.1)]
  | .method f ins outs, h => by
      rw [Stmt.names, List.forall_mem_append, List.forall_mem_map] at h
      have hins : ∀ r ∈ ins, ∀ x ∈ r.refs, x ∈ V := fun r hr =>
        refs_of_names fun n hn => h.1 n (List.mem_flatMap.mpr ⟨r, hr, hn⟩)
      refine Bisim.of_fun
        (fun σ e => (setAll outs (I.method f (ins.map (Expr.eval I σ)) e).1 σ,
          (I.method f (ins.map (Expr.eval I σ)) e).2))
        (fun σ e => (setAll (outs.map (Place.under loc))
          (I.method f ((ins.map (Expr.under loc)).map (Expr.eval I σ)) e).1 σ,
          (I.method f ((ins.map (Expr.under loc)).map (Expr.eval I σ)) e).2)) fun σ τ e hρ => ?_
      dsimp only
      rw [hρ.map_eval_under I hins]
      exact ⟨hρ.setAll_under hsep h.2, rfl⟩
  | .table t, h => by
      obtain ⟨hkeys, hrefs, hsel⟩ := h _ (List.mem_singleton_self _)
      intro σ τ hρ e e'
      simp only [Stmt.under, Stmt.exec]
      rw [hkeys, hρ.map_eval_under I hrefs]
      cases hs : I.select t ((keys t).map (Expr.eval I σ)) with
      | none => exact Bisim.skip σ τ hρ e e'
      | some r =>
          obtain ⟨a, vals⟩ := r
          have hact := hsel _ a vals hs
          dsimp only
          generalize acts a = o at hact ⊢
          generalize acts' a = o' at hact ⊢
          cases hact with
          | none => exact Bisim.skip σ τ hρ e e'
          | @some c c' hc =>
              have hinit : ∀ φ ψ : Frame N, (∀ p ∈ c.params.map Param.name, ψ p = φ p) →
                  ((∀ p ∈ c.params, φ p.name = vals p.name) ↔
                    ∀ p ∈ c.params, ψ p.name = vals p.name) := fun φ ψ hp =>
                forall₂_congr fun p hmem => by rw [hp _ (List.mem_map_of_mem hmem)]
              obtain ⟨hfwd, hbwd⟩ := hc.bisim_inFrame hinit hρ e e'
              dsimp only
              rw [hc.params]
              constructor
              · rintro σ' ⟨φ', hin⟩
                obtain ⟨ψ', τ', hin', hστ', -⟩ := hfwd φ' σ' hin
                exact ⟨τ', ⟨ψ', hin'⟩, hστ'⟩
              · rintro τ' ⟨ψ', hin'⟩
                obtain ⟨φ', σ', hin, hστ', -⟩ := hbwd ψ' τ' hin'
                exact ⟨σ', ⟨φ', hin⟩, hστ'⟩
  | .action a args, h => by
      rw [Stmt.names, List.forall_mem_cons] at h
      intro σ τ hρ e e'
      simp only [Stmt.under, Stmt.exec]
      have hact : Option.Rel (Callee.Alike loc V) (acts a) (acts' a) := h.1
      generalize acts a = o at hact ⊢
      generalize acts' a = o' at hact ⊢
      cases hact with
      | none => exact Bisim.skip σ τ hρ e e'
      | some hc => exact bisim_callAction I hsep hc (refs_of_mem_bindings h.2) σ τ hρ e e'
  | .apply c args, h => by
      rw [Stmt.names, List.forall_mem_cons] at h
      intro σ τ hρ e e'
      have hc : ctrls' c = ctrls c := h.1
      simp only [Stmt.under, Stmt.exec]
      rw [hc]
      cases ctrls c with
      | none => exact Bisim.skip σ τ hρ e e'
      | some C =>
          dsimp only
          rw [bindings_under]
          exact bisim_callApply I hsep (refs_of_mem_bindings h.2) C.body σ τ hρ e e'

end Callees

/-! ## Variables that keep their value -/

section Keeps

variable (I : Interp N O E) {x : N} {ctrls acts : N → Option (Callee N E)}
  {keys : N → List (Expr N O)}

/-- Nothing assigns the variable. -/
def Rel.Keeps (R : Rel N E) (x : N) : Prop := ∀ σ e σ' e', R σ e σ' e' → σ' x = σ x

/-- The variables a call assigns. -/
def copiedOut (binds : List (Param N × Expr N O)) : List N :=
  binds.flatMap fun b => if b.1.dir.copiesOut then b.2.refs else []

/-- The variables a statement assigns. -/
def Stmt.assigned (ctrls acts : N → Option (Callee N E)) : Stmt N O → List N
  | .skip => []
  | .seq s t => s.assigned ctrls acts ++ t.assigned ctrls acts
  | .assign l _ => [l.var]
  | .cond _ s t => s.assigned ctrls acts ++ t.assigned ctrls acts
  | .method _ _ outs => outs.map Place.var
  | .table _ => []
  | .action a args =>
      match acts a with
      | none => []
      | some c => copiedOut (bindings c.params args)
  | .apply c args =>
      match ctrls c with
      | none => []
      | some c => copiedOut (bindings c.params args)

theorem setAll_keeps : ∀ {ls : List (Place N)} {ws : List (Val N)} {σ : Frame N},
    x ∉ ls.map Place.var → setAll ls ws σ x = σ x
  | [], _, _, _ => rfl
  | _ :: _, [], _, _ => rfl
  | l :: ls, w :: ws, σ, h => by
      rw [List.map_cons, List.mem_cons, not_or] at h
      rw [setAll, setAll_keeps h.2, Place.set, Function.update_of_ne h.1]

theorem copyOut_keeps : ∀ {binds : List (Param N × Expr N O)} {φ σ : Frame N},
    x ∉ copiedOut binds → copyOut binds φ σ x = σ x
  | [], _, _, _ => rfl
  | b :: binds, φ, σ, h => by
      rw [copiedOut, List.flatMap_cons, List.mem_append, not_or] at h
      have hone : copyOutOne φ σ b x = σ x := by
        unfold copyOutOne
        split
        · rename_i hdir
          rw [if_pos hdir] at h
          cases hval : b.2 with
          | place l =>
              rw [hval, Expr.refs, List.mem_singleton] at h
              exact Function.update_of_ne h.1 _ _
          | lit o => rfl
          | op o r r' => rfl
        · rfl
      exact (copyOut_keeps (σ := copyOutOne φ σ b) h.2).trans hone

theorem inFrame_keeps {params : List (Param N)} {body : Rel N E} {init : Frame N → Prop}
    (h : x ∈ params.map Param.name ∨ body.Keeps x) {σ φ' τ : Frame N} {e e' : E}
    (hin : inFrame params body init σ e φ' τ e') : τ x = σ x := by
  obtain ⟨φ, hshare, -, hrun, rfl⟩ := hin
  by_cases hx : x ∈ params.map Param.name
  · exact if_pos hx
  · rw [← hshare x hx, ← h.resolve_left hx φ e φ' e' hrun]
    exact if_neg hx

/-- An action that a statement names does not assign the variable, or hides it. -/
def RefKeeps (acts : N → Option (Callee N E)) (x : N) : Ref N → Prop
  | .table t => ∀ vals a ws, I.select t vals = some (a, ws) →
      ∀ c, acts a = some c → x ∈ c.params.map Param.name ∨ c.body.Keeps x
  | .action a => ∀ c, acts a = some c → x ∈ c.params.map Param.name ∨ c.body.Keeps x
  | _ => True

/-- A statement keeps the variables that neither it nor an action it names assigns. -/
theorem exec_keeps : ∀ {s : Stmt N O}, x ∉ s.assigned ctrls acts →
    (∀ r ∈ s.names, RefKeeps I acts x r) → (s.exec I ctrls acts keys).Keeps x
  | .skip, _, _ => fun _ _ _ _ hrun => by rw [hrun.1]
  | .seq s t, h, hr => by
      rw [Stmt.assigned, List.mem_append, not_or] at h
      rw [Stmt.names, List.forall_mem_append] at hr
      rintro σ e σ' e' ⟨τ, d, hs, ht⟩
      exact (exec_keeps h.2 hr.2 _ _ _ _ ht).trans (exec_keeps h.1 hr.1 _ _ _ _ hs)
  | .assign l r, h, _ => by
      rintro σ e _ _ ⟨rfl, -⟩
      exact Function.update_of_ne (fun heq => h (List.mem_singleton.mpr heq)) _ _
  | .cond c s t, h, hr => by
      rw [Stmt.assigned, List.mem_append, not_or] at h
      rw [Stmt.names, List.forall_mem_append, List.forall_mem_append] at hr
      intro σ e σ' e' hrun
      rw [Stmt.exec] at hrun
      split at hrun
      · exact exec_keeps h.1 hr.2.1 _ _ _ _ hrun
      · exact exec_keeps h.2 hr.2.2 _ _ _ _ hrun
  | .method f ins outs, h, _ => by
      rintro σ e _ _ ⟨rfl, -⟩
      exact setAll_keeps h
  | .table t, _, hr => by
      have hsel := hr _ (List.mem_singleton_self _)
      intro σ e σ' e' hrun
      rw [Stmt.exec] at hrun
      split at hrun
      · rw [hrun.1]
      · rename_i a vals hs
        split at hrun
        · rw [hrun.1]
        · rename_i c hc
          obtain ⟨φ', hin⟩ := hrun
          exact inFrame_keeps (hsel _ a vals hs c hc) hin
  | .action a args, h, hr => by
      rw [Stmt.names, List.forall_mem_cons] at hr
      intro σ e σ' e' hrun
      rw [Stmt.exec] at hrun
      rw [Stmt.assigned] at h
      split at hrun
      · rw [hrun.1]
      · rename_i c hc
        rw [hc] at h
        obtain ⟨φ', τ, hin, rfl⟩ := hrun
        rw [copyOut_keeps h]
        exact inFrame_keeps (hr.1 c hc) hin
  | .apply c args, h, _ => by
      intro σ e σ' e' hrun
      rw [Stmt.exec] at hrun
      rw [Stmt.assigned] at h
      split at hrun
      · rw [hrun.1]
      · rename_i C hC
        rw [hC] at h
        obtain ⟨φ, φ', -, -, rfl⟩ := hrun
        exact copyOut_keeps h

/-- Only variables that are named are assigned. -/
theorem names_of_assigned : ∀ {s : Stmt N O}, x ∈ s.assigned ctrls acts → .var x ∈ s.names
  | .skip, h => absurd h List.not_mem_nil
  | .seq s t, h => (List.mem_append.mp h).elim
      (fun hs => List.mem_append_left _ (names_of_assigned hs))
      fun ht => List.mem_append_right _ (names_of_assigned ht)
  | .assign l r, h => by
      rw [List.mem_singleton.mp h]
      exact List.mem_cons_self
  | .cond c s t, h => (List.mem_append.mp h).elim
      (fun hs => List.mem_append_right _ (List.mem_append_left _ (names_of_assigned hs)))
      fun ht => List.mem_append_right _ (List.mem_append_right _ (names_of_assigned ht))
  | .method f ins outs, h => by
      obtain ⟨l, hl, rfl⟩ := List.mem_map.mp h
      exact List.mem_append_right _ (List.mem_map_of_mem hl)
  | .table t, h => absurd h List.not_mem_nil
  | .action a args, h => by
      rw [Stmt.assigned] at h
      split at h
      · exact absurd h List.not_mem_nil
      · exact List.mem_cons_of_mem _ (names_of_copiedOut h)
  | .apply c args, h => by
      rw [Stmt.assigned] at h
      split at h
      · exact absurd h List.not_mem_nil
      · exact List.mem_cons_of_mem _ (names_of_copiedOut h)
where
  names_of_copiedOut {params : List (Param N)} {args : List (Arg N O)}
      (h : x ∈ copiedOut (bindings params args)) : Ref.var x ∈ argNames args := by
    obtain ⟨b, hb, hx⟩ := List.mem_flatMap.mp h
    obtain ⟨-, a, ha, heq⟩ := mem_of_mem_bindings hb
    split at hx
    · exact List.mem_flatMap.mpr ⟨a, ha, List.mem_map_of_mem (heq ▸ hx)⟩
    · exact absurd hx List.not_mem_nil

end Keeps

end CopyInCopyOut
end MicroP4
