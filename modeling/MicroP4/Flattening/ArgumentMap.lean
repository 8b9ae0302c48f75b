import Mathlib.Data.List.Forall2
import Mathlib.Logic.Function.Basic

/-!
# The arguments of the calls of the blocks

`CPackageToControl` turns a package into a control that calls the parser, the control and the
deparser of the package.  The arguments come from a map from printed types, with the direction
behind them, to variables.  The map starts with the parameters of the package; a parameter whose
key is not in the map gets a variable of its type, which is put into the map under the type
without a direction.

`wired_iff` says when all parameters get an argument and two of them only get the same one if
they have the same role.
-/

namespace MicroP4
namespace Flattening

/-! ## Parameters -/

/-- The direction of a parameter. -/
inductive Direction where
  | none
  | input
  | output
  | inout
  deriving DecidableEq

/-- What `populateArgsMap` and `createMCS` put behind a type. -/
def Direction.suffix : Direction → String
  | .none => ""
  | .input => "_in"
  | .output => "_out"
  | .inout => "_inout"

/-- The type of a parameter: a name, a bit string, or something else that is printed. -/
inductive ParamType where
  | name (n : String)
  | bits (isSigned : Bool) (size : ℕ)
  | other (text : String)
  deriving DecidableEq

/-- The type as a string. -/
def ParamType.printed : ParamType → String
  | .name n => n
  | .bits isSigned size => (if isSigned then "int<" else "bit<") ++ toString size ++ ">"
  | .other text => text

/-- A parameter of a package. -/
structure ApplyParameter where
  name : String
  direction : Direction
  type : ParamType

/-- The key it is put into the map under. -/
def ApplyParameter.key (p : ApplyParameter) : String := p.type.printed ++ p.direction.suffix

/-- A parameter of a block, which stands for a `role`. -/
structure Parameter (R : Type) where
  role : R
  direction : Direction
  type : ParamType
  deriving DecidableEq

/-- The key it is looked up under. -/
def Parameter.key {R : Type} (p : Parameter R) : String := p.type.printed ++ p.direction.suffix

/-! ## The map -/

/-- `typeToArgsMap` and the names of the variables in `newDeclInsts`. -/
structure ArgsState where
  typeToArgsMap : String → Option String
  newDeclInsts : List String

/-- One round of `populateArgsMap`. -/
def addArg (args : String → Option String) (p : ApplyParameter) : String → Option String :=
  Function.update args p.key (some p.name)

/-- `populateArgsMap`. -/
def populateArgsMap (pl : List ApplyParameter) : String → Option String :=
  pl.foldl addArg fun _ => none

/-- The variable for a type. -/
def instName (typeName : String) : String := typeName ++ "_var"

variable {R : Type}

/-- One round of `createMCS`: the argument, if one is pushed.  A bit type that is not in the map
ends in `tn->clone()`, where `tn` is null. -/
def createArg (p : Parameter R) (s : ArgsState) : Option (Option String × ArgsState) :=
  match p.type with
  | .name typeName =>
      match s.typeToArgsMap p.key with
      | some arg => some (some arg, s)
      | none =>
          some (some (instName typeName),
            if instName typeName ∈ s.newDeclInsts then s
            else ⟨Function.update s.typeToArgsMap typeName (some (instName typeName)),
              instName typeName :: s.newDeclInsts⟩)
  | .bits _ _ =>
      match s.typeToArgsMap p.key with
      | some arg => some (some arg, s)
      | none => none
  | .other _ => some (none, s)

/-- `createMCS`: the arguments of the call of a block. -/
def createMCS : List (Parameter R) → ArgsState → Option (List String × ArgsState)
  | [], s => some ([], s)
  | p :: ps, s => (createArg p s).bind fun r => (createMCS ps r.2).map fun rest =>
      (r.1.toList ++ rest.1, rest.2)

/-- The calls of the blocks, in the order they are visited. -/
def createMCSs : List (List (Parameter R)) → ArgsState → Option (List (List String) × ArgsState)
  | [], s => some ([], s)
  | ps :: blocks, s => (createMCS ps s).bind fun r => (createMCSs blocks r.2).map fun rest =>
      (r.1 :: rest.1, rest.2)

/-- Parameters with the same variable have the same role. -/
def NoSharing (l : List (Parameter R × String)) : Prop :=
  ∀ a ∈ l, ∀ b ∈ l, a.2 = b.2 → a.1.role = b.1.role

/-- The pass does not fail, every parameter of every block gets an argument, and two of them
get the same variable only if they have the same role.  After the blocks, the name of the header
type is looked up in the map. -/
def Wired (args : String → Option String) (blocks : List (List (Parameter R)))
    (headerTypeName : String) : Prop :=
  ∃ out s, createMCSs blocks ⟨args, []⟩ = some (out, s) ∧
    List.Forall₂ (fun ps as => as.length = ps.length) blocks out ∧
    NoSharing (blocks.flatten.zip out.flatten) ∧ s.typeToArgsMap headerTypeName ≠ none

/-! ## Parameters that the package does not have -/

section

variable (args : String → Option String)

/-- There is no parameter of the package for the parameter, which has the type `typeName`. -/
def Parameter.Unmatched (p : Parameter R) (typeName : String) : Prop :=
  p.type = .name typeName ∧ args p.key = none

/-- One of the parameters has made a variable for a type. -/
def LocalType (done : List (Parameter R)) (typeName : String) : Prop :=
  ∃ z ∈ done, z.Unmatched args typeName

/-- The argument of a parameter, as long as no key is the name of a type. -/
def binding (p : Parameter R) : String := (args p.key).getD (instName p.type.printed)

/-- The type of a parameter has a branch in `createMCS` that gives it an argument. -/
def Parameter.Bindable (p : Parameter R) : Prop :=
  (∃ n, p.type = .name n) ∨ ((∃ isSigned size, p.type = .bits isSigned size) ∧ args p.key ≠ none)

/-- The state after some parameters. -/
structure ArgsState.Tracks (s : ArgsState) (done : List (Parameter R)) : Prop where
  own : ∀ k, LocalType args done k → s.typeToArgsMap k = some (instName k)
  given : ∀ k, ¬ LocalType args done k → s.typeToArgsMap k = args k
  decls : ∀ k, instName k ∈ s.newDeclInsts ↔ LocalType args done k

end

variable {args : String → Option String} {done : List (Parameter R)} {s : ArgsState}

theorem instName_inj {a b : String} : instName a = instName b ↔ a = b :=
  String.append_left_inj _

theorem localType_append {l : List (Parameter R)} {k : String} :
    LocalType args (done ++ l) k ↔ LocalType args done k ∨ LocalType args l k := by
  constructor
  · rintro ⟨z, hz, h⟩
    rcases List.mem_append.mp hz with hz | hz
    · exact Or.inl ⟨z, hz, h⟩
    · exact Or.inr ⟨z, hz, h⟩
  · rintro (⟨z, hz, h⟩ | ⟨z, hz, h⟩)
    · exact ⟨z, List.mem_append_left _ hz, h⟩
    · exact ⟨z, List.mem_append_right _ hz, h⟩

theorem localType_singleton {p : Parameter R} {k : String} :
    LocalType args [p] k ↔ p.Unmatched args k := by
  constructor
  · rintro ⟨z, hz, h⟩
    rwa [List.mem_singleton.mp hz] at h
  · exact fun h => ⟨p, List.mem_singleton_self p, h⟩

/-- A parameter that makes no variable changes nothing. -/
theorem ArgsState.Tracks.of_not_unmatched {p : Parameter R} (h : s.Tracks args done)
    (hp : ∀ k, ¬ p.Unmatched args k) : s.Tracks args (done ++ [p]) := by
  have hiff : ∀ k, LocalType args (done ++ [p]) k ↔ LocalType args done k := fun k => by
    rw [localType_append, localType_singleton]
    exact or_iff_left (hp k)
  exact ⟨fun k hk => h.own k ((hiff k).mp hk),
    fun k hk => h.given k fun hk' => hk ((hiff k).mpr hk'),
    fun k => (h.decls k).trans (hiff k).symm⟩

/-- A parameter with a key in the package gets its variable. -/
theorem createArg_of_matched {p : Parameter R} {arg : String} (h : s.Tracks args done)
    (hlocal : ¬ LocalType args done p.key) (hp : p.Bindable args) (harg : args p.key = some arg) :
    createArg p s = some (some arg, s) ∧ s.Tracks args (done ++ [p]) := by
  have hget : s.typeToArgsMap p.key = some arg := (h.given _ hlocal).trans harg
  refine ⟨?_, h.of_not_unmatched fun k hk => ?_⟩
  · unfold createArg
    rcases hp with ⟨n, hn⟩ | ⟨⟨isSigned, size, hn⟩, -⟩
    · rw [hn]
      show (match s.typeToArgsMap p.key with | some arg => _ | none => _) = _
      rw [hget]
    · rw [hn]
      show (match s.typeToArgsMap p.key with | some arg => _ | none => _) = _
      rw [hget]
  · exact absurd (harg.symm.trans hk.2) (by simp)

/-- The other parameters get the variable for their type. -/
theorem createArg_of_unmatched {p : Parameter R} {n : String} (h : s.Tracks args done)
    (hlocal : ¬ LocalType args done p.key) (hp : p.Unmatched args n) :
    ∃ s', createArg p s = some (some (instName n), s') ∧ s'.Tracks args (done ++ [p]) := by
  have hget : s.typeToArgsMap p.key = none := (h.given _ hlocal).trans hp.2
  have hlast : ∀ k, LocalType args (done ++ [p]) k ↔ LocalType args done k ∨ k = n := fun k => by
    rw [localType_append, localType_singleton]
    refine or_congr_right ⟨fun hk => ?_, ?_⟩
    · exact (ParamType.name.inj (hp.1.symm.trans hk.1)).symm
    · rintro rfl
      exact hp
  refine ⟨if instName n ∈ s.newDeclInsts then s
    else ⟨Function.update s.typeToArgsMap n (some (instName n)), instName n :: s.newDeclInsts⟩,
    ?_, ?_⟩
  · unfold createArg
    rw [hp.1]
    show (match s.typeToArgsMap p.key with | some arg => _ | none => _) = _
    rw [hget]
  · by_cases hdecl : instName n ∈ s.newDeclInsts
    · have hn : LocalType args done n := (h.decls n).mp hdecl
      have hiff : ∀ k, LocalType args (done ++ [p]) k ↔ LocalType args done k := fun k => by
        rw [hlast]
        exact or_iff_left_of_imp fun hk => hk ▸ hn
      rw [if_pos hdecl]
      exact ⟨fun k hk => h.own k ((hiff k).mp hk),
        fun k hk => h.given k fun hk' => hk ((hiff k).mpr hk'),
        fun k => (h.decls k).trans (hiff k).symm⟩
    · rw [if_neg hdecl]
      refine ⟨fun k hk => ?_, fun k hk => ?_, fun k => ?_⟩
      · by_cases hkn : k = n
        · rw [hkn]
          exact Function.update_self ..
        · exact (Function.update_of_ne hkn ..).trans
            (h.own k (((hlast k).mp hk).resolve_right hkn))
      · have hkn : k ≠ n := fun hkn => hk ((hlast k).mpr (Or.inr hkn))
        exact (Function.update_of_ne hkn ..).trans
          (h.given k fun hk' => hk ((hlast k).mpr (Or.inl hk')))
      · show instName k ∈ instName n :: s.newDeclInsts ↔ _
        rw [List.mem_cons, instName_inj, h.decls, hlast]
        exact or_comm

/-- Either way it is the argument that `binding` says. -/
theorem createArg_eq {p : Parameter R} (h : s.Tracks args done)
    (hlocal : ¬ LocalType args done p.key) (hp : p.Bindable args) :
    ∃ s', createArg p s = some (some (binding args p), s') ∧ s'.Tracks args (done ++ [p]) := by
  unfold binding
  cases harg : args p.key with
  | some arg =>
      obtain ⟨heq, htracks⟩ := createArg_of_matched h hlocal hp harg
      exact ⟨s, heq, htracks⟩
  | none =>
      rcases hp with ⟨n, hn⟩ | ⟨-, hne⟩
      · rw [hn]
        exact createArg_of_unmatched h hlocal ⟨hn, harg⟩
      · exact absurd harg hne

/-- Only such a parameter gets an argument, unless its key is the name of a type. -/
theorem bindable_of_createArg {p : Parameter R} {arg : String} {s' : ArgsState}
    (h : s.Tracks args done) (hlocal : ¬ LocalType args done p.key)
    (heq : createArg p s = some (some arg, s')) : p.Bindable args := by
  cases htype : p.type with
  | name n => exact Or.inl ⟨n, htype⟩
  | bits isSigned size =>
      refine Or.inr ⟨⟨isSigned, size, htype⟩, fun hnone => ?_⟩
      have hget : s.typeToArgsMap p.key = none := (h.given _ hlocal).trans hnone
      unfold createArg at heq
      rw [htype] at heq
      change (match s.typeToArgsMap p.key with | some arg => _ | none => _) = _ at heq
      rw [hget] at heq
      cases heq
  | other text =>
      unfold createArg at heq
      rw [htype] at heq
      cases heq

/-- A parameter whose key is the name of a type gets the variable of that type. -/
theorem createArg_of_localType {p : Parameter R} {arg : String} {s' : ArgsState}
    (h : s.Tracks args done) (hlocal : LocalType args done p.key)
    (heq : createArg p s = some (some arg, s')) : arg = instName p.key := by
  have hget := h.own _ hlocal
  unfold createArg at heq
  cases htype : p.type with
  | name n =>
      rw [htype] at heq
      change (match s.typeToArgsMap p.key with | some arg => _ | none => _) = _ at heq
      rw [hget] at heq
      cases heq
      rfl
  | bits isSigned size =>
      rw [htype] at heq
      change (match s.typeToArgsMap p.key with | some arg => _ | none => _) = _ at heq
      rw [hget] at heq
      cases heq
      rfl
  | other text =>
      rw [htype] at heq
      cases heq

/-! ## A block -/

/-- The key of a parameter is not the name of a type that a parameter before it has made a
variable for. -/
def NoTaking (args : String → Option String) (l : List (Parameter R)) : Prop :=
  l.Pairwise fun z p => ¬ z.Unmatched args p.key

theorem NoTaking.not_localType {p : Parameter R} {ps : List (Parameter R)}
    (h : NoTaking args (done ++ p :: ps)) : ¬ LocalType args done p.key := by
  rintro ⟨z, hz, hun⟩
  exact (List.pairwise_append.mp h).2.2 z hz p List.mem_cons_self hun

theorem createMCS_eq {ps : List (Parameter R)} : ∀ {done : List (Parameter R)} {s : ArgsState},
    s.Tracks args done → (∀ p ∈ ps, p.Bindable args) → NoTaking args (done ++ ps) →
      ∃ s', createMCS ps s = some (ps.map (binding args), s') ∧ s'.Tracks args (done ++ ps) := by
  induction ps with
  | nil =>
      intro done s h _ _
      exact ⟨s, rfl, (List.append_nil done).symm ▸ h⟩
  | cons p ps ih =>
      intro done s h hbind htaking
      obtain ⟨s₁, heq, h₁⟩ := createArg_eq h htaking.not_localType (hbind p List.mem_cons_self)
      have happ : done ++ [p] ++ ps = done ++ p :: ps := List.append_cons done p ps |>.symm
      obtain ⟨s₂, heq', h₂⟩ := ih h₁ (fun p' hp' => hbind p' (List.mem_cons_of_mem _ hp'))
        (happ ▸ htaking)
      refine ⟨s₂, ?_, happ ▸ h₂⟩
      rw [createMCS, heq]
      show (createMCS ps s₁).map _ = _
      rw [heq']
      rfl

theorem createMCS_cons_inv {p : Parameter R} {ps : List (Parameter R)} {as : List String}
    {s s' : ArgsState} (h : createMCS (p :: ps) s = some (as, s')) :
    ∃ arg s₁ rest, createArg p s = some (arg, s₁) ∧ createMCS ps s₁ = some (rest, s') ∧
      as = arg.toList ++ rest := by
  rw [createMCS] at h
  obtain ⟨⟨arg, s₁⟩, hfirst, hnext⟩ := Option.bind_eq_some_iff.mp h
  obtain ⟨⟨rest, s₂⟩, hrest, heq⟩ := Option.map_eq_some_iff.mp hnext
  obtain ⟨has, rfl⟩ := Prod.mk.inj heq
  exact ⟨arg, s₁, rest, hfirst, hrest, has.symm⟩

/-- At most one argument for each parameter. -/
theorem length_createMCS_le {ps : List (Parameter R)} : ∀ {as : List String} {s s' : ArgsState},
    createMCS ps s = some (as, s') → as.length ≤ ps.length := by
  induction ps with
  | nil =>
      intro as s s' h
      obtain ⟨rfl, -⟩ := Prod.mk.inj (Option.some.inj h)
      exact Nat.le_refl _
  | cons p ps ih =>
      intro as s s' h
      obtain ⟨arg, s₁, rest, -, hrest, rfl⟩ := createMCS_cons_inv h
      have hle := ih hrest
      cases arg with
      | none => exact Nat.le_succ_of_le hle
      | some arg => exact Nat.succ_le_succ hle

/-- The parameters with the arguments that `binding` says. -/
def bound (args : String → Option String) (l : List (Parameter R)) : List (Parameter R × String) :=
  l.map fun p => (p, binding args p)

/-- A block whose parameters all get an argument, with no role sharing a variable with another:
the arguments are those of `binding`, and no key is the name of a type. -/
theorem createMCS_inv {ps : List (Parameter R)} : ∀ {done : List (Parameter R)} {as : List String}
    {s s' : ArgsState}, s.Tracks args done → createMCS ps s = some (as, s') →
      as.length = ps.length → NoSharing (bound args done ++ ps.zip as) →
      (∀ z ∈ done ++ ps, ∀ p ∈ done ++ ps, z.role = p.role → ¬ z.Unmatched args p.key) →
      NoTaking args done → as = ps.map (binding args) ∧ (∀ p ∈ ps, p.Bindable args) ∧
        NoTaking args (done ++ ps) ∧ s'.Tracks args (done ++ ps) := by
  induction ps with
  | nil =>
      intro done as s s' h heq _ _ _ htaking
      obtain ⟨rfl, rfl⟩ := Prod.mk.inj (Option.some.inj heq)
      rw [List.append_nil]
      exact ⟨rfl, fun _ hp => absurd hp List.not_mem_nil, htaking, h⟩
  | cons p ps ih =>
      intro done as s s' h heq hlen hshare hsame htaking
      obtain ⟨arg, s₁, rest, hfirst, hrest, rfl⟩ := createMCS_cons_inv heq
      have hle := length_createMCS_le hrest
      obtain ⟨arg, rfl⟩ : ∃ a, arg = some a := by
        cases arg with
        | some a => exact ⟨a, rfl⟩
        | none => exact absurd hlen (Nat.ne_of_lt (Nat.lt_succ_of_le hle))
      have hzip : (p :: ps).zip (arg :: rest) = (p, arg) :: ps.zip rest := rfl
      have hlocal : ¬ LocalType args done p.key := by
        rintro ⟨z, hz, hun⟩
        have hz' : binding args z = arg := by
          rw [createArg_of_localType h ⟨z, hz, hun⟩ hfirst, binding, hun.2, hun.1]
          rfl
        have hmem : (z, binding args z) ∈ bound args done := List.mem_map_of_mem hz
        have hrole := hshare _ (List.mem_append_left _ hmem) (p, arg)
          (List.mem_append_right _ (hzip ▸ List.mem_cons_self)) hz'
        exact hsame z (List.mem_append_left _ hz) p (List.mem_append_right _ List.mem_cons_self)
          hrole hun
      have hbind := bindable_of_createArg h hlocal hfirst
      obtain ⟨s₂, hfirst', h₁⟩ := createArg_eq h hlocal hbind
      obtain ⟨harg, rfl⟩ := Prod.mk.inj (Option.some.inj (hfirst.symm.trans hfirst'))
      obtain rfl := Option.some.inj harg
      have happ : done ++ [p] ++ ps = done ++ p :: ps := List.append_cons done p ps |>.symm
      have hnext : NoTaking args (done ++ [p]) := by
        refine List.pairwise_append.mpr ⟨htaking, List.pairwise_singleton _ _, ?_⟩
        intro z hz p' hp'
        rw [List.mem_singleton.mp hp']
        exact fun hun => hlocal ⟨z, hz, hun⟩
      obtain ⟨hrest', hbind', htaking', h₂⟩ := ih h₁ hrest (Nat.succ.inj hlen)
        (by
          rw [bound, List.map_append, List.append_assoc]
          exact hshare)
        (happ ▸ hsame) hnext
      refine ⟨?_, ?_, happ ▸ htaking', happ ▸ h₂⟩
      · show binding args p :: rest = _
        rw [hrest', List.map_cons]
      · intro p' hp'
        rcases List.mem_cons.mp hp' with rfl | hp'
        · exact hbind
        · exact hbind' p' hp'

/-! ## All blocks -/

theorem createMCSs_eq {blocks : List (List (Parameter R))} : ∀ {done : List (Parameter R)}
    {s : ArgsState}, s.Tracks args done → (∀ p ∈ blocks.flatten, p.Bindable args) →
      NoTaking args (done ++ blocks.flatten) →
      ∃ s', createMCSs blocks s = some (blocks.map fun ps => ps.map (binding args), s') ∧
        s'.Tracks args (done ++ blocks.flatten) := by
  induction blocks with
  | nil =>
      intro done s h _ _
      exact ⟨s, rfl, (List.append_nil done).symm ▸ h⟩
  | cons ps blocks ih =>
      intro done s h hbind htaking
      rw [List.flatten_cons, ← List.append_assoc] at htaking
      obtain ⟨s₁, heq, h₁⟩ := createMCS_eq h
        (fun p hp => hbind p (List.mem_append_left _ hp)) (List.pairwise_append.mp htaking).1
      obtain ⟨s₂, heq', h₂⟩ := ih h₁ (fun p hp => hbind p (List.mem_append_right _ hp)) htaking
      refine ⟨s₂, ?_, ?_⟩
      · rw [createMCSs, heq]
        show (createMCSs blocks s₁).map _ = _
        rw [heq']
        rfl
      · rw [List.flatten_cons, ← List.append_assoc]
        exact h₂

theorem createMCSs_inv {blocks : List (List (Parameter R))} : ∀ {done : List (Parameter R)}
    {out : List (List String)} {s s' : ArgsState}, s.Tracks args done →
      createMCSs blocks s = some (out, s') →
      List.Forall₂ (fun ps as => as.length = ps.length) blocks out →
      NoSharing (bound args done ++ blocks.flatten.zip out.flatten) →
      (∀ z ∈ done ++ blocks.flatten, ∀ p ∈ done ++ blocks.flatten, z.role = p.role →
        ¬ z.Unmatched args p.key) → NoTaking args done →
      out = blocks.map (fun ps => ps.map (binding args)) ∧
        (∀ p ∈ blocks.flatten, p.Bindable args) ∧ NoTaking args (done ++ blocks.flatten) ∧
        s'.Tracks args (done ++ blocks.flatten) := by
  induction blocks with
  | nil =>
      intro done out s s' h heq _ _ _ htaking
      obtain ⟨rfl, rfl⟩ := Prod.mk.inj (Option.some.inj heq)
      rw [List.flatten_nil, List.append_nil]
      exact ⟨rfl, fun _ hp => absurd hp List.not_mem_nil, htaking, h⟩
  | cons ps blocks ih =>
      intro done out s s' h heq hlens hshare hsame htaking
      rw [createMCSs] at heq
      obtain ⟨⟨as, s₁⟩, hfirst, hnext⟩ := Option.bind_eq_some_iff.mp heq
      obtain ⟨⟨rest, s₂⟩, hrest, hout⟩ := Option.map_eq_some_iff.mp hnext
      obtain ⟨rfl, rfl⟩ := Prod.mk.inj hout
      obtain ⟨hlen, hlens'⟩ := List.forall₂_cons.mp hlens
      have hzip : (ps ++ blocks.flatten).zip (as ++ rest.flatten) =
          ps.zip as ++ blocks.flatten.zip rest.flatten := List.zip_append hlen.symm
      rw [List.flatten_cons, List.flatten_cons, hzip, ← List.append_assoc] at hshare
      rw [List.flatten_cons, ← List.append_assoc] at hsame
      obtain ⟨rfl, hbind, htaking, h₁⟩ := createMCS_inv h hfirst hlen
        (fun a ha b hb => hshare a (List.mem_append_left _ ha) b (List.mem_append_left _ hb))
        (fun z hz p hp => hsame z (List.mem_append_left _ hz) p (List.mem_append_left _ hp))
        htaking
      have hbound :
          bound args (done ++ ps) = bound args done ++ ps.zip (ps.map (binding args)) := by
        unfold bound
        rw [List.map_append, List.map_prod_left_eq_zip (l := ps)]
      obtain ⟨rfl, hbind', htaking', h₂⟩ := ih h₁ hrest hlens' (hbound ▸ hshare) hsame
        htaking
      rw [List.flatten_cons, ← List.append_assoc]
      refine ⟨rfl, fun p hp => ?_, htaking', h₂⟩
      rcases List.mem_append.mp hp with hp | hp
      · exact hbind p hp
      · exact hbind' p hp

/-- When the arguments are right. -/
structure Consistent (args : String → Option String) (l : List (Parameter R))
    (headerTypeName : String) : Prop where
  bindable : ∀ p ∈ l, p.Bindable args
  keys : ∀ p ∈ l, ∀ q ∈ l, p.role ≠ q.role → args p.key ≠ none → p.key ≠ q.key
  types : ∀ p ∈ l, ∀ q ∈ l, p.role ≠ q.role → args p.key = none → args q.key = none →
    p.type ≠ q.type
  noTaking : NoTaking args l
  header : args headerTypeName ≠ none ∨ LocalType args l headerTypeName

/-- Two parameters have the same variable exactly if they have the same key in the package, or
both have none there and the same type. -/
theorem binding_eq_iff (hinj : ∀ k k' v, args k = some v → args k' = some v → k = k')
    (hvar : ∀ k t, args k ≠ some (instName t)) {p q : Parameter R} (hp : p.Bindable args)
    (hq : q.Bindable args) : binding args p = binding args q ↔
      args p.key ≠ none ∧ p.key = q.key ∨
        args p.key = none ∧ args q.key = none ∧ p.type = q.type := by
  have hname : ∀ r : Parameter R, r.Bindable args → args r.key = none →
      r.type = .name r.type.printed := by
    rintro r (⟨n, hn⟩ | ⟨-, hne⟩) hr
    · rw [hn]
      rfl
    · exact absurd hr hne
  unfold binding
  cases hpk : args p.key with
  | some v =>
      cases hqk : args q.key with
      | some w =>
          constructor
          · intro h
            obtain rfl : v = w := h
            exact Or.inl ⟨by simp, hinj _ _ _ hpk hqk⟩
          · rintro (⟨-, hkey⟩ | ⟨hnone, -⟩)
            · rw [hkey, hqk] at hpk
              exact (Option.some.inj hpk).symm
            · exact absurd hnone (by simp)
      | none =>
          constructor
          · intro h
            obtain rfl : v = instName q.type.printed := h
            exact absurd hpk (hvar _ _)
          · rintro (⟨-, hkey⟩ | ⟨hnone, -⟩)
            · rw [hkey, hqk] at hpk
              exact absurd hpk (by simp)
            · exact absurd hnone (by simp)
  | none =>
      cases hqk : args q.key with
      | some w =>
          constructor
          · intro h
            obtain rfl : instName p.type.printed = w := h
            exact absurd hqk (hvar _ _)
          · rintro (⟨hne, -⟩ | ⟨-, hnone, -⟩)
            · exact absurd rfl hne
            · exact absurd hnone (by simp)
      | none =>
          constructor
          · intro h
            refine Or.inr ⟨rfl, rfl, ?_⟩
            rw [hname p hp hpk, hname q hq hqk]
            exact congrArg ParamType.name (instName_inj.mp h)
          · rintro (⟨hne, -⟩ | ⟨-, -, htype⟩)
            · exact absurd rfl hne
            · rw [htype]

/-- No role shares a variable with another. -/
theorem noSharing_bound_iff (hinj : ∀ k k' v, args k = some v → args k' = some v → k = k')
    (hvar : ∀ k t, args k ≠ some (instName t)) {l : List (Parameter R)}
    (hbind : ∀ p ∈ l, p.Bindable args) : NoSharing (bound args l) ↔
      (∀ p ∈ l, ∀ q ∈ l, p.role ≠ q.role → args p.key ≠ none → p.key ≠ q.key) ∧
        ∀ p ∈ l, ∀ q ∈ l, p.role ≠ q.role → args p.key = none → args q.key = none →
          p.type ≠ q.type := by
  have hshare : NoSharing (bound args l) ↔
      ∀ p ∈ l, ∀ q ∈ l, binding args p = binding args q → p.role = q.role := by
    unfold NoSharing bound
    simp only [List.forall_mem_map]
  rw [hshare]
  constructor
  · intro h
    refine ⟨fun p hp q hq hrole hpk hkey => hrole (h p hp q hq ?_),
      fun p hp q hq hrole hpk hqk htype => hrole (h p hp q hq ?_)⟩
    · exact (binding_eq_iff hinj hvar (hbind p hp) (hbind q hq)).mpr (Or.inl ⟨hpk, hkey⟩)
    · exact (binding_eq_iff hinj hvar (hbind p hp) (hbind q hq)).mpr (Or.inr ⟨hpk, hqk, htype⟩)
  · rintro ⟨hkeys, htypes⟩ p hp q hq heq
    by_contra hrole
    rcases (binding_eq_iff hinj hvar (hbind p hp) (hbind q hq)).mp heq with h | ⟨hpk, hqk, htype⟩
    · exact hkeys p hp q hq hrole h.1 h.2
    · exact htypes p hp q hq hrole hpk hqk htype

theorem ArgsState.Tracks.get_ne_none_iff (h : s.Tracks args done) {k : String} :
    s.typeToArgsMap k ≠ none ↔ args k ≠ none ∨ LocalType args done k := by
  by_cases hk : LocalType args done k
  · rw [h.own k hk]
    exact iff_of_true (by simp) (Or.inr hk)
  · rw [h.given k hk]
    exact (or_iff_left hk).symm

/-- In front of the blocks there are only the parameters of the package. -/
theorem tracks_start (args : String → Option String) :
    (⟨args, []⟩ : ArgsState).Tracks args ([] : List (Parameter R)) := by
  have hnone : ∀ k, ¬ LocalType args ([] : List (Parameter R)) k := by
    rintro k ⟨z, hz, -⟩
    exact absurd hz List.not_mem_nil
  exact ⟨fun k hk => absurd hk (hnone k), fun _ _ => rfl,
    fun k => iff_of_false List.not_mem_nil (hnone k)⟩

/-- The blocks are wired as they should exactly if every parameter has a type that is looked up
and found or gets a variable, no two roles have the same key in the package or the same type
without one, no key is the name of a type that has got a variable before, and the header type
is in the map at the end. -/
theorem wired_iff (hinj : ∀ k k' v, args k = some v → args k' = some v → k = k')
    (hvar : ∀ k t, args k ≠ some (instName t)) {blocks : List (List (Parameter R))}
    (hsame : ∀ z ∈ blocks.flatten, ∀ p ∈ blocks.flatten, z.role = p.role →
      ¬ z.Unmatched args p.key) {headerTypeName : String} :
    Wired args blocks headerTypeName ↔ Consistent args blocks.flatten headerTypeName := by
  constructor
  · rintro ⟨out, s, heq, hlens, hshare, hheader⟩
    obtain ⟨rfl, hbind, htaking, htracks⟩ := createMCSs_inv (tracks_start args) heq hlens hshare
      hsame List.Pairwise.nil
    have hbound : blocks.flatten.zip (blocks.map fun ps => ps.map (binding args)).flatten =
        bound args blocks.flatten := by
      rw [bound, List.map_prod_left_eq_zip, List.map_flatten]
    rw [hbound] at hshare
    obtain ⟨hkeys, htypes⟩ := (noSharing_bound_iff hinj hvar hbind).mp hshare
    exact ⟨hbind, hkeys, htypes, htaking, htracks.get_ne_none_iff.mp hheader⟩
  · intro h
    obtain ⟨s, heq, htracks⟩ := createMCSs_eq (tracks_start args) h.bindable h.noTaking
    refine ⟨_, s, heq, ?_, ?_, htracks.get_ne_none_iff.mpr h.header⟩
    · exact List.forall₂_map_right_iff.mpr (List.forall₂_same.mpr fun ps _ => List.length_map _)
    · rw [← List.map_flatten, ← List.map_prod_left_eq_zip]
      exact (noSharing_bound_iff hinj hvar h.bindable).mpr ⟨h.keys, h.types⟩

end Flattening
end MicroP4
