import Mathlib.Data.List.Nodup
import MicroP4.Flattening.ArgumentMap

/-!
# The blocks of a unicast package

A package of the type `Unicast` has five parameters of its own, and its blocks have parameters of
the types it is specialised to and some that the conversion to controls adds.
`unicast_wired_iff` says for which types `CPackageToControl` wires them as it should.
-/

namespace MicroP4
namespace Flattening

/-! ## The package -/

/-- What a parameter of a block stands for. -/
inductive ParamRole where
  | packet
  | packetStruct
  | intrinsicMeta
  | hdrs
  | userMeta
  | inData
  | outData
  | inoutData
  | parserMeta
  | hdrValidityOps
  deriving DecidableEq

/-- The blocks of a package. -/
inductive ArchBlock where
  | microParser
  | microControl
  | microDeparser
  deriving DecidableEq

/-- The parameters of a block after its conversion. -/
def ArchBlock.roles : ArchBlock → List (ParamRole × Direction)
  | .microParser => [(.packetStruct, .inout), (.intrinsicMeta, .none), (.hdrs, .output),
      (.userMeta, .inout), (.inData, .input), (.inoutData, .inout), (.parserMeta, .output)]
  | .microControl => [(.packet, .none), (.intrinsicMeta, .none), (.hdrs, .inout),
      (.userMeta, .inout), (.inData, .input), (.outData, .output), (.inoutData, .inout),
      (.parserMeta, .input), (.hdrValidityOps, .inout)]
  | .microDeparser => [(.packetStruct, .inout), (.hdrs, .input), (.parserMeta, .input),
      (.hdrValidityOps, .input)]

/-- A package of the type `Unicast<H, M, I, O, IO>`: the types as its blocks write them, the
types of its own parameters, where names for other types are resolved, the name of the header
struct, and the blocks in the order they are declared. -/
structure UnicastPackage where
  name : String
  hdrs : ParamType
  userMeta : ParamType
  inData : ParamType
  outData : ParamType
  inoutData : ParamType
  inParam : ParamType
  outParam : ParamType
  inoutParam : ParamType
  headerTypeName : String
  packageLocals : List ArchBlock
  packageLocals_perm : packageLocals.Perm [.microParser, .microControl, .microDeparser]

namespace UnicastPackage

variable (pkg : UnicastPackage)

/-- The type of a parameter of a block. -/
def typeOf : ParamRole → ParamType
  | .packet => .name "pkt"
  | .packetStruct => .name "msa_packet_struct_t"
  | .intrinsicMeta => .name "im_t"
  | .hdrs => pkg.hdrs
  | .userMeta => pkg.userMeta
  | .inData => pkg.inData
  | .outData => pkg.outData
  | .inoutData => pkg.inoutData
  | .parserMeta => .name (pkg.name ++ "_" ++ "parser_meta_t")
  | .hdrValidityOps => .name (pkg.name ++ "_" ++ "hdr_vop_t")

/-- The parameters of the package. -/
def applyParams : List ApplyParameter :=
  [⟨"p", .none, .name "pkt"⟩, ⟨"im", .none, .name "im_t"⟩, ⟨"in_param", .input, pkg.inParam⟩,
    ⟨"out_param", .output, pkg.outParam⟩, ⟨"inout_param", .inout, pkg.inoutParam⟩]

/-- A parameter of a block. -/
def param (r : ParamRole × Direction) : Parameter ParamRole := ⟨r.1, r.2, pkg.typeOf r.1⟩

/-- The parameters of the blocks. -/
def blocks : List (List (Parameter ParamRole)) :=
  pkg.packageLocals.map fun b => b.roles.map pkg.param

/-- The parameters of all blocks, in the order they are visited. -/
def params : List (Parameter ParamRole) := pkg.blocks.flatten

/-- What `CPackageToControl` should do with the package. -/
def Wired : Prop :=
  Flattening.Wired (populateArgsMap pkg.applyParams) pkg.blocks pkg.headerTypeName

/-- The package has a parameter with the same type and direction as far as they are printed. -/
def Given (key : String) : Prop := ∃ a ∈ pkg.applyParams, a.key = key

/-- When it does. -/
structure Separated : Prop where
  bindable : ∀ p ∈ pkg.params, (∃ n, p.type = .name n) ∨
    ((∃ isSigned size, p.type = .bits isSigned size) ∧ pkg.Given p.key)
  keys : ∀ p ∈ pkg.params, ∀ q ∈ pkg.params, p.role ≠ q.role → pkg.Given p.key → p.key ≠ q.key
  types : ∀ p ∈ pkg.params, ∀ q ∈ pkg.params, p.role ≠ q.role → ¬ pkg.Given p.key →
    ¬ pkg.Given q.key → p.type ≠ q.type
  noTaking : pkg.params.Pairwise fun z p => ¬ pkg.Given z.key → z.type ≠ .name p.key
  header : pkg.Given pkg.headerTypeName ∨
    ∃ p ∈ pkg.params, p.type = .name pkg.headerTypeName ∧ ¬ pkg.Given p.key

end UnicastPackage

/-! ## The map of the package -/

theorem exists_of_foldl_addArg {pl : List ApplyParameter} :
    ∀ {args : String → Option String} {k v : String},
      pl.foldl addArg args k = some v →
        (∃ a ∈ pl, a.key = k ∧ a.name = v) ∨ args k = some v := by
  induction pl with
  | nil => exact fun h => Or.inr h
  | cons p pl ih =>
      intro args k v h
      rcases ih h with ⟨a, ha, hkey, hname⟩ | h
      · exact Or.inl ⟨a, List.mem_cons_of_mem _ ha, hkey, hname⟩
      · by_cases hk : k = p.key
        · rw [addArg, hk, Function.update_self] at h
          exact Or.inl ⟨p, List.mem_cons_self, hk.symm, Option.some.inj h⟩
        · exact Or.inr ((Function.update_of_ne hk ..).symm.trans h)

theorem foldl_addArg_ne_none {pl : List ApplyParameter} :
    ∀ {args : String → Option String} {k : String}, (∃ a ∈ pl, a.key = k) ∨ args k ≠ none →
      pl.foldl addArg args k ≠ none := by
  induction pl with
  | nil =>
      rintro args k (⟨a, ha, -⟩ | h)
      · exact absurd ha List.not_mem_nil
      · exact h
  | cons p pl ih =>
      intro args k h
      refine ih ?_
      by_cases hk : k = p.key
      · rw [addArg, hk, Function.update_self]
        exact Or.inr (by simp)
      · rw [addArg, Function.update_of_ne hk]
        rcases h with ⟨a, ha, hkey⟩ | h
        · rcases List.mem_cons.mp ha with rfl | ha
          · exact absurd hkey.symm hk
          · exact Or.inl ⟨a, ha, hkey⟩
        · exact Or.inr h

theorem exists_of_populateArgsMap {pl : List ApplyParameter} {k v : String}
    (h : populateArgsMap pl k = some v) : ∃ a ∈ pl, a.key = k ∧ a.name = v :=
  (exists_of_foldl_addArg h).resolve_right (by simp)

/-- The keys of the map are those of the parameters. -/
theorem populateArgsMap_ne_none_iff {pl : List ApplyParameter} {k : String} :
    populateArgsMap pl k ≠ none ↔ ∃ a ∈ pl, a.key = k := by
  constructor
  · intro h
    obtain ⟨v, hv⟩ := Option.ne_none_iff_exists'.mp h
    obtain ⟨a, ha, hkey, -⟩ := exists_of_populateArgsMap hv
    exact ⟨a, ha, hkey⟩
  · exact fun h => foldl_addArg_ne_none (Or.inl h)

namespace UnicastPackage

variable {pkg : UnicastPackage}

theorem given_iff {key : String} :
    pkg.Given key ↔ populateArgsMap pkg.applyParams key ≠ none :=
  populateArgsMap_ne_none_iff.symm

theorem not_given_iff {key : String} :
    ¬ pkg.Given key ↔ populateArgsMap pkg.applyParams key = none := by
  rw [given_iff, not_not]

/-- The names of the parameters tell them apart. -/
theorem populateArgsMap_inj (k k' v : String) (h : populateArgsMap pkg.applyParams k = some v)
    (h' : populateArgsMap pkg.applyParams k' = some v) : k = k' := by
  obtain ⟨a, ha, rfl, hname⟩ := exists_of_populateArgsMap h
  obtain ⟨b, hb, rfl, hname'⟩ := exists_of_populateArgsMap h'
  have hnames : (pkg.applyParams.map ApplyParameter.name).Nodup := by
    show ["p", "im", "in_param", "out_param", "inout_param"].Nodup
    decide
  rw [List.inj_on_of_nodup_map hnames ha hb (hname.trans hname'.symm)]

/-- No variable for a type has the name of a parameter. -/
theorem populateArgsMap_ne_instName (k t : String) :
    populateArgsMap pkg.applyParams k ≠ some (instName t) := by
  intro h
  obtain ⟨a, ha, -, hname⟩ := exists_of_populateArgsMap h
  have hlast : a.name.toList.getLast? = some 'r' := by
    rw [hname, instName]
    simp
  have hnames : ∀ n ∈ pkg.applyParams.map ApplyParameter.name, n.toList.getLast? ≠ some 'r' := by
    show ∀ n ∈ ["p", "im", "in_param", "out_param", "inout_param"], n.toList.getLast? ≠ some 'r'
    decide
  exact hnames _ (List.mem_map_of_mem ha) hlast

theorem mem_params {p : Parameter ParamRole} (h : p ∈ pkg.params) :
    ∃ b ∈ pkg.packageLocals, ∃ r ∈ b.roles, p = pkg.param r := by
  obtain ⟨l, hl, hp⟩ := List.mem_flatten.mp h
  obtain ⟨b, hb, rfl⟩ := List.mem_map.mp hl
  obtain ⟨r, hr, rfl⟩ := List.mem_map.mp hp
  exact ⟨b, hb, r, hr, rfl⟩

/-- Only the packet and the intrinsic metadata have no direction. -/
theorem role_of_direction_none {b : ArchBlock} : ∀ r ∈ b.roles, r.2 = .none →
    r.1 = .packet ∨ r.1 = .intrinsicMeta := by
  cases b <;> decide

/-- The packet and the intrinsic metadata have it wherever they stand. -/
theorem direction_none_of_role {b : ArchBlock} : ∀ r ∈ b.roles,
    r.1 = .packet ∨ r.1 = .intrinsicMeta → r.2 = .none := by
  cases b <;> decide

theorem Direction.eq_none_of_suffix {n : String} {d : Direction} (h : n = n ++ d.suffix) :
    d = .none := by
  have hlen := congrArg String.length h
  rw [String.length_append] at hlen
  cases d with
  | none => rfl
  | input => exact absurd hlen (Nat.ne_of_lt (Nat.lt_add_of_pos_right (by decide)))
  | output => exact absurd hlen (Nat.ne_of_lt (Nat.lt_add_of_pos_right (by decide)))
  | inout => exact absurd hlen (Nat.ne_of_lt (Nat.lt_add_of_pos_right (by decide)))

/-- A key is the name of the own type only for those two, and the package has them. -/
theorem not_unmatched_of_role_eq : ∀ z ∈ pkg.params, ∀ p ∈ pkg.params, z.role = p.role →
    ¬ z.Unmatched (populateArgsMap pkg.applyParams) p.key := by
  intro z hz p hp hrole
  obtain ⟨b, -, r, hr, rfl⟩ := mem_params hz
  obtain ⟨b', -, r', hr', rfl⟩ := mem_params hp
  rintro ⟨htype, hnone⟩
  have hrole' : r'.1 = r.1 := hrole.symm
  have hkey : (pkg.typeOf r'.1).printed = (pkg.typeOf r'.1).printed ++ r'.2.suffix := by
    rw [hrole']
    have hprinted := congrArg ParamType.printed htype
    rw [show (pkg.param r').key = (pkg.typeOf r.1).printed ++ r'.2.suffix from
      congrArg (fun t => (pkg.typeOf t).printed ++ r'.2.suffix) hrole'] at hprinted
    exact hprinted
  have hsome := role_of_direction_none r' hr' (Direction.eq_none_of_suffix hkey)
  rw [hrole'] at hsome
  have hdir := direction_none_of_role r hr hsome
  refine not_given_iff.mpr hnone ?_
  have hparam : (pkg.param r).key = (pkg.typeOf r.1).printed := by
    show (pkg.typeOf r.1).printed ++ r.2.suffix = _
    rw [hdir]
    exact String.append_empty
  rw [hparam]
  rcases hsome with h | h
  · rw [h]
    exact ⟨_, List.mem_cons_self, String.append_empty⟩
  · rw [h]
    exact ⟨_, List.mem_cons_of_mem _ List.mem_cons_self, String.append_empty⟩

/-! ## When it is wired -/

theorem separated_iff : pkg.Separated ↔
    Consistent (populateArgsMap pkg.applyParams) pkg.params pkg.headerTypeName := by
  constructor
  · rintro ⟨hbind, hkeys, htypes, htaking, hheader⟩
    refine ⟨?_, ?_, ?_, ?_, ?_⟩
    · intro p hp
      exact (hbind p hp).imp_right fun h => ⟨h.1, given_iff.mp h.2⟩
    · exact fun p hp q hq hrole hne => hkeys p hp q hq hrole (given_iff.mpr hne)
    · exact fun p hp q hq hrole hpk hqk =>
        htypes p hp q hq hrole (not_given_iff.mpr hpk) (not_given_iff.mpr hqk)
    · exact htaking.imp fun h hun => h (not_given_iff.mpr hun.2) hun.1
    · refine hheader.imp given_iff.mp ?_
      rintro ⟨p, hp, htype, hnot⟩
      exact ⟨p, hp, htype, not_given_iff.mp hnot⟩
  · rintro ⟨hbind, hkeys, htypes, htaking, hheader⟩
    refine ⟨?_, ?_, ?_, ?_, ?_⟩
    · intro p hp
      exact (hbind p hp).imp_right fun h => ⟨h.1, given_iff.mpr h.2⟩
    · exact fun p hp q hq hrole hne => hkeys p hp q hq hrole (given_iff.mp hne)
    · exact fun p hp q hq hrole hpk hqk =>
        htypes p hp q hq hrole (not_given_iff.mp hpk) (not_given_iff.mp hqk)
    · exact htaking.imp fun h hnot htype => h ⟨htype, not_given_iff.mp hnot⟩
    · refine hheader.imp given_iff.mpr ?_
      rintro ⟨p, hp, htype, hnone⟩
      exact ⟨p, hp, htype, not_given_iff.mpr hnone⟩

theorem wired_iff_consistent : pkg.Wired ↔
    Consistent (populateArgsMap pkg.applyParams) pkg.params pkg.headerTypeName :=
  wired_iff populateArgsMap_inj populateArgsMap_ne_instName not_unmatched_of_role_eq

end UnicastPackage

/-- **Flattening a package**: the pass does not fail, every parameter of a block has an argument
and parameters for different things have different ones exactly if the types are separated. -/
theorem unicast_wired_iff (pkg : UnicastPackage) : pkg.Wired ↔ pkg.Separated :=
  UnicastPackage.wired_iff_consistent.trans UnicastPackage.separated_iff.symm

/-- A package whose user metadata has the type of its inout data. -/
def sameMeta : UnicastPackage where
  name := "Caller"
  hdrs := .name "hdr_t"
  userMeta := .name "meta_t"
  inData := .name "empty_t"
  outData := .name "empty_t"
  inoutData := .name "meta_t"
  inParam := .name "empty_t"
  outParam := .name "empty_t"
  inoutParam := .name "meta_t"
  headerTypeName := "hdr_t"
  packageLocals := [.microParser, .microControl, .microDeparser]
  packageLocals_perm := List.Perm.refl _

/-- Its blocks get the inout data of the package for their user metadata. -/
theorem not_wired_sameMeta : ¬ sameMeta.Wired := by
  intro h
  have hcon := UnicastPackage.wired_iff_consistent.mp h
  have hgiven : populateArgsMap sameMeta.applyParams "meta_t_inout" ≠ none := by decide
  exact hcon.keys ⟨.userMeta, .inout, .name "meta_t"⟩ (by decide)
    ⟨.inoutData, .inout, .name "meta_t"⟩ (by decide) (by decide) hgiven rfl

end Flattening
end MicroP4
