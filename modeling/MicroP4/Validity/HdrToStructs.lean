import Mathlib.Data.Finset.Image
import MicroP4.Analysis.RecordedOps

/-!
# Header validity in flags

`HdrToStructs` turns headers into structs.  Their validity moves to three flags: `_v` is set by
the parser, `_sv` and `_siv` by what is left of `setValid` and `setInvalid`.  A test of the
validity becomes `_v || _sv`, which does not look at `_siv`: a header that was parsed stays
valid for the test (`isValid_correct_iff`).

The fields `_v` are made from the header struct of the parser and the others from the records of
the control, so that a header that is only tested has no `_sv`.
-/

namespace MicroP4
namespace Validity

open Analysis (HdrOp OpsRecord lastOp lastOp_hdr)

/-! ## Headers and flags -/

/-- An expression for a header instance. -/
inductive HeaderExpr where
  | path (name : String)
  | member (expr : HeaderExpr) (name : String)
  | arrayIndex (left : HeaderExpr) (right : ℕ)
  deriving DecidableEq

/-- `hdrName` of `getValidityOPFlagName`; the empty name does not pass `BUG_CHECK`. -/
def HeaderExpr.hdrName : HeaderExpr → Option String
  | .path name => some name
  | .member _ name => some name
  | .arrayIndex _ _ => none

/-- The flags of a header with a name: a field of the parser-meta struct, and two of the
validity-operation struct. -/
inductive FlagField where
  | v (hdrName : String)
  | sv (hdrName : String)
  | siv (hdrName : String)
  deriving DecidableEq

/-- `createValidityStruct`, for a struct of headers; other fields are an error in
`createInitdAction`. -/
def createValidityStruct (hdrStr : List String) : Finset FlagField := (hdrStr.map .v).toFinset

/-- `svOphdrs`. -/
def svOphdrs (xoredValidityOps : List (OpsRecord String)) : Finset String :=
  xoredValidityOps.foldr (fun e hdrs => e.setValid ∪ hdrs) ∅

/-- `sivOphdrs`. -/
def sivOphdrs (xoredValidityOps : List (OpsRecord String)) : Finset String :=
  xoredValidityOps.foldr (fun e hdrs => e.setInvalid ∪ hdrs) ∅

/-- The fields of `hdrVOPType` after `createHdrValidityOpsKeysNames`: for each key also its
inverse. -/
def createHdrValidityOpsKeysNames (xoredValidityOps : List (OpsRecord String)) :
    Finset FlagField :=
  (svOphdrs xoredValidityOps).image .sv ∪ (svOphdrs xoredValidityOps).image .siv ∪
    ((sivOphdrs xoredValidityOps).image .siv ∪ (sivOphdrs xoredValidityOps).image .sv)

/-- The header types that stay. -/
def skipHeaderTypes (typeName : String) : Bool :=
  typeName ∈ ["msa_twobytes_h", "msa_byte_h", "csa_indices_h", "ingress_intrinsic_metadata_t",
    "egress_intrinsic_metadata_t", "pktgen_timer_header_t", "pktgen_port_down_header_t",
    "pktgen_recirc_header_t", "ptp_metadata_t"]

/-! ## The translation -/

/-- What a call becomes. -/
inductive FlagStmt where
  | methodCall (o : HdrOp HeaderExpr)
  | assign (left : FlagField) (right : Bool)

/-- What a test becomes. -/
inductive FlagTest where
  | isValid (e : HeaderExpr)
  | lor (left right : FlagField)

/-- The assignments for a call on a header with a name. -/
def assignments (hdrName : String) : HdrOp HeaderExpr → List FlagStmt
  | .setValid _ => [.assign (.sv hdrName) true, .assign (.siv hdrName) false]
  | .setInvalid _ => [.assign (.sv hdrName) false, .assign (.siv hdrName) true]

section Translation

variable (typeName : HeaderExpr → String)

/-- `preorder(MethodCallStatement)`. -/
def translateCall (o : HdrOp HeaderExpr) : Option (List FlagStmt) :=
  o.hdr.hdrName.map fun n =>
    if skipHeaderTypes (typeName o.hdr) then [.methodCall o] else assignments n o

/-- `preorder(MethodCallExpression)`, for `isValid`. -/
def translateTest (e : HeaderExpr) : Option FlagTest :=
  e.hdrName.map fun n =>
    if skipHeaderTypes (typeName e) then .isValid e else .lor (.v n) (.sv n)

end Translation

/-! ## Running it -/

/-- The values of the flags. -/
abbrev Flags := FlagField → Bool

/-- Assigning a field that is not in its struct has no meaning. -/
def FlagStmt.exec (fields : Finset FlagField) (flags : Flags) : FlagStmt → Option Flags
  | .methodCall _ => some flags
  | .assign left right => if left ∈ fields then some (Function.update flags left right) else none

/-- The value of a test that was replaced. -/
def FlagTest.eval (fields : Finset FlagField) (flags : Flags) : FlagTest → Option Bool
  | .isValid _ => none
  | .lor left right =>
      if left ∈ fields ∧ right ∈ fields then some (flags left || flags right) else none

/-- Running what a call becomes. -/
def execCall (typeName : HeaderExpr → String) (fields : Finset FlagField) (flags : Flags)
    (o : HdrOp HeaderExpr) : Option Flags :=
  (translateCall typeName o).bind fun stmts => stmts.foldlM (FlagStmt.exec fields) flags

/-- Assigning `false` to all fields: those of the validity-operation struct in front of the
calls of a package, and those of the parser-meta struct in the action that
`createInitdAction` makes. -/
def resetFields (fields : Finset FlagField) (flags : Flags) : Flags :=
  fun f => if f ∈ fields then false else flags f

/-- What the extract actions leave of the flags. -/
def extractHeaders (extracts : List String) (flags : Flags) : Flags :=
  extracts.foldl (fun flags n => Function.update flags (.v n) true) flags

/-! ## Validity in P4 -/

/-- What a call sets the validity to. -/
def callValue : HdrOp HeaderExpr → Bool
  | .setValid _ => true
  | .setInvalid _ => false

/-- The validity of all headers after calls. -/
def validAfter (calls : List (HdrOp HeaderExpr)) (valid : HeaderExpr → Bool) :
    HeaderExpr → Bool :=
  calls.foldl (fun valid o => Function.update valid o.hdr (callValue o)) valid

/-- A package: the fields of its header struct, the parameter for it in the control, the types
of header instances, and the control body with the calls on members, which the analysis sees. -/
structure Package (N P : Type) where
  hdrStr : List String
  hdrParam : String
  typeName : HeaderExpr → String
  sizes : Analysis.Sizes String P
  body : Analysis.Stmt String N P

/-- The outcome of the parser: the headers it extracts, and the validity of headers that are not
in its struct. -/
structure ParseOutcome (hdrStr : List String) where
  extracts : List String
  extracts_mem : ∀ n ∈ extracts, n ∈ hdrStr
  others : HeaderExpr → Bool

variable {N P : Type} [DecidableEq N] (pkg : Package N P)

/-- The validity in front of the control. -/
def ParseOutcome.valid {pkg : Package N P} (outcome : ParseOutcome pkg.hdrStr)
    (e : HeaderExpr) : Bool :=
  match e with
  | .member (.path p) n =>
      if p = pkg.hdrParam ∧ n ∈ pkg.hdrStr then n ∈ outcome.extracts else outcome.others e
  | e => outcome.others e

/-- The records of the control. -/
def Package.xoredValidityOps : List (OpsRecord String) :=
  Analysis.controlRecords pkg.sizes pkg.body

/-- The fields of the parser-meta struct and the validity-operation struct. -/
def Package.fields : Finset FlagField :=
  createValidityStruct pkg.hdrStr ∪ createHdrValidityOpsKeysNames pkg.xoredValidityOps

/-- The value of the expression for `e.isValid()` after calls in the control, if all flags that
are used are there. -/
def Package.testValue (outcome : ParseOutcome pkg.hdrStr) (calls : List (HdrOp HeaderExpr))
    (e : HeaderExpr) (flags : Flags) : Option Bool :=
  (calls.foldlM (execCall pkg.typeName pkg.fields)
      (extractHeaders outcome.extracts (resetFields pkg.fields flags))).bind fun flags =>
    (translateTest pkg.typeName e).bind (FlagTest.eval pkg.fields flags)

/-- The expression has the validity of the header, whatever the flags held before. -/
def Package.IsValidCorrect (outcome : ParseOutcome pkg.hdrStr) (calls : List (HdrOp HeaderExpr))
    (e : HeaderExpr) : Prop :=
  ∀ flags, pkg.testValue outcome calls e flags = some (validAfter calls outcome.valid e)

/-! ## Which fields there are -/

variable {pkg}

theorem mem_foldr_union {l : List (OpsRecord String)} {f : OpsRecord String → Finset String}
    {n : String} : n ∈ l.foldr (fun e hdrs => f e ∪ hdrs) ∅ ↔ ∃ e ∈ l, n ∈ f e := by
  induction l with
  | nil => simp
  | cons e l ih =>
      rw [List.foldr_cons, Finset.mem_union, ih]
      constructor
      · rintro (h | ⟨e', he', h⟩)
        · exact ⟨e, List.mem_cons_self, h⟩
        · exact ⟨e', List.mem_cons_of_mem _ he', h⟩
      · rintro ⟨e', he', h⟩
        rcases List.mem_cons.mp he' with rfl | he'
        · exact Or.inl h
        · exact Or.inr ⟨e', he', h⟩

variable (pkg) in
/-- The control has a call on the header that a conditional stands behind, or that stands in a
branch, and no conditional without branches. -/
def Package.Recorded (n : String) : Prop :=
  pkg.body.tree.Nonempty ∧
    (pkg.body.tree.Flushed (.setValid n) ∨ pkg.body.tree.Flushed (.setInvalid n))

theorem Package.mem_ophdrs_iff {n : String} :
    n ∈ svOphdrs pkg.xoredValidityOps ∨ n ∈ sivOphdrs pkg.xoredValidityOps ↔ pkg.Recorded n := by
  have hsv := Analysis.exists_mem_controlRecords_iff pkg.sizes pkg.body (.setValid n)
  have hsiv := Analysis.exists_mem_controlRecords_iff pkg.sizes pkg.body (.setInvalid n)
  unfold svOphdrs sivOphdrs Package.Recorded
  rw [mem_foldr_union, mem_foldr_union, and_or_left, ← hsv, ← hsiv]
  exact Iff.rfl

theorem Package.v_mem_fields {n : String} : .v n ∈ pkg.fields ↔ n ∈ pkg.hdrStr := by
  simp [Package.fields, createValidityStruct, createHdrValidityOpsKeysNames]

theorem Package.sv_mem_fields {n : String} : .sv n ∈ pkg.fields ↔ pkg.Recorded n := by
  rw [← Package.mem_ophdrs_iff]
  simp [Package.fields, createValidityStruct, createHdrValidityOpsKeysNames]

theorem Package.siv_mem_fields {n : String} : .siv n ∈ pkg.fields ↔ pkg.Recorded n := by
  rw [← Package.mem_ophdrs_iff]
  simp [Package.fields, createValidityStruct, createHdrValidityOpsKeysNames]

/-! ## The flags after calls -/

variable (pkg) in
/-- The assignments for a call exist, and so do their fields. -/
def Package.Translates (e : HeaderExpr) : Prop :=
  ∃ n, e.hdrName = some n ∧ (skipHeaderTypes (pkg.typeName e) = true ∨ pkg.Recorded n)

/-- The flags after a call. -/
def flagsAfter (typeName : HeaderExpr → String) (flags : Flags) (o : HdrOp HeaderExpr) : Flags :=
  match o.hdr.hdrName with
  | none => flags
  | some n =>
      if skipHeaderTypes (typeName o.hdr) then flags
      else Function.update (Function.update flags (.sv n) (callValue o)) (.siv n) (!callValue o)

theorem exec_assignments {fields : Finset FlagField} {n : String} {o : HdrOp HeaderExpr}
    {flags : Flags} (hsv : .sv n ∈ fields) (hsiv : .siv n ∈ fields) :
    (assignments n o).foldlM (FlagStmt.exec fields) flags =
      some (Function.update (Function.update flags (.sv n) (callValue o)) (.siv n)
        (!callValue o)) := by
  cases o with
  | setValid h => simp [assignments, FlagStmt.exec, hsv, hsiv, callValue]
  | setInvalid h => simp [assignments, FlagStmt.exec, hsv, hsiv, callValue]

theorem exec_assignments_eq_none {fields : Finset FlagField} {n : String} {o : HdrOp HeaderExpr}
    {flags : Flags} (hsv : .sv n ∉ fields) :
    (assignments n o).foldlM (FlagStmt.exec fields) flags = none := by
  cases o with
  | setValid h => simp [assignments, FlagStmt.exec, hsv]
  | setInvalid h => simp [assignments, FlagStmt.exec, hsv]

theorem Package.execCall_eq {o : HdrOp HeaderExpr} (h : pkg.Translates o.hdr) (flags : Flags) :
    execCall pkg.typeName pkg.fields flags o = some (flagsAfter pkg.typeName flags o) := by
  obtain ⟨n, hn, hdecl⟩ := h
  unfold execCall translateCall flagsAfter
  rw [hn]
  by_cases hskip : skipHeaderTypes (pkg.typeName o.hdr) = true
  · show (if _ then _ else _ : List FlagStmt).foldlM _ flags = some (if _ then _ else _)
    rw [if_pos hskip, if_pos hskip]
    rfl
  · have hrec : pkg.Recorded n := hdecl.resolve_left hskip
    show (if _ then _ else _ : List FlagStmt).foldlM _ flags = some (if _ then _ else _)
    rw [if_neg hskip, if_neg hskip]
    exact exec_assignments (Package.sv_mem_fields.mpr hrec) (Package.siv_mem_fields.mpr hrec)

theorem Package.translates_of_execCall {o : HdrOp HeaderExpr} {flags flags' : Flags}
    (h : execCall pkg.typeName pkg.fields flags o = some flags') : pkg.Translates o.hdr := by
  unfold execCall translateCall at h
  cases hn : o.hdr.hdrName with
  | none =>
      rw [hn] at h
      cases h
  | some n =>
      refine ⟨n, hn, ?_⟩
      by_cases hskip : skipHeaderTypes (pkg.typeName o.hdr) = true
      · exact Or.inl hskip
      · rw [hn] at h
        change (if _ then _ else _ : List FlagStmt).foldlM _ flags = some flags' at h
        rw [if_neg hskip] at h
        refine Or.inr (Package.sv_mem_fields.mp ?_)
        by_contra hsv
        rw [exec_assignments_eq_none hsv] at h
        cases h

theorem Package.execCalls_eq {calls : List (HdrOp HeaderExpr)} : ∀ {flags : Flags},
    (∀ o ∈ calls, pkg.Translates o.hdr) →
      calls.foldlM (execCall pkg.typeName pkg.fields) flags =
        some (calls.foldl (flagsAfter pkg.typeName) flags) := by
  induction calls with
  | nil => exact fun _ => rfl
  | cons o calls ih =>
      intro flags h
      rw [List.foldlM_cons, Package.execCall_eq (h o List.mem_cons_self)]
      exact ih fun o' ho' => h o' (List.mem_cons_of_mem _ ho')

theorem Package.translates_of_execCalls {calls : List (HdrOp HeaderExpr)} :
    ∀ {flags flags' : Flags},
      calls.foldlM (execCall pkg.typeName pkg.fields) flags = some flags' →
        ∀ o ∈ calls, pkg.Translates o.hdr := by
  induction calls with
  | nil => exact fun _ _ ho => absurd ho List.not_mem_nil
  | cons o calls ih =>
      intro flags flags' h o' ho'
      rw [List.foldlM_cons] at h
      obtain ⟨flags₁, hstep, hrest⟩ := Option.bind_eq_some_iff.mp h
      rcases List.mem_cons.mp ho' with rfl | ho'
      · exact Package.translates_of_execCall hstep
      · exact ih hrest o' ho'

theorem flagsAfter_v (typeName : HeaderExpr → String) (flags : Flags) (o : HdrOp HeaderExpr)
    (n : String) : flagsAfter typeName flags o (.v n) = flags (.v n) := by
  unfold flagsAfter
  cases o.hdr.hdrName with
  | none => rfl
  | some m =>
      by_cases hskip : skipHeaderTypes (typeName o.hdr) = true
      · simp [hskip]
      · simp [hskip]

theorem foldl_flagsAfter_v (typeName : HeaderExpr → String) (n : String)
    (calls : List (HdrOp HeaderExpr)) : ∀ flags : Flags,
      calls.foldl (flagsAfter typeName) flags (.v n) = flags (.v n) := by
  induction calls with
  | nil => exact fun _ => rfl
  | cons o calls ih => exact fun flags => (ih _).trans (flagsAfter_v typeName flags o n)

section Sv

variable {typeName : HeaderExpr → String} {e : HeaderExpr} {n : String}

theorem flagsAfter_sv (hn : e.hdrName = some n) (hskip : skipHeaderTypes (typeName e) = false)
    (flags : Flags) {o : HdrOp HeaderExpr} (hown : o.hdr.hdrName = e.hdrName → o.hdr = e) :
    flagsAfter typeName flags o (.sv n) = if o.hdr = e then callValue o else flags (.sv n) := by
  by_cases ho : o.hdr = e
  · unfold flagsAfter
    rw [if_pos ho, ho, hn]
    simp [hskip]
  · have hne : o.hdr.hdrName ≠ some n := fun h => ho (hown (h.trans hn.symm))
    unfold flagsAfter
    rw [if_neg ho]
    cases hm : o.hdr.hdrName with
    | none => rfl
    | some m =>
        have hmn : n ≠ m := by
          rintro rfl
          exact hne hm
        by_cases hskip' : skipHeaderTypes (typeName o.hdr) = true
        · simp [hskip']
        · simp [hskip', hmn]

/-- The flag of `setValid` says what the last call on the header was. -/
theorem foldl_flagsAfter_sv (hn : e.hdrName = some n)
    (hskip : skipHeaderTypes (typeName e) = false) {calls : List (HdrOp HeaderExpr)} :
    ∀ {flags : Flags}, (∀ o ∈ calls, o.hdr.hdrName = e.hdrName → o.hdr = e) →
      calls.foldl (flagsAfter typeName) flags (.sv n) =
        ((lastOp e calls).map callValue).getD (flags (.sv n)) := by
  induction calls with
  | nil => exact fun _ => rfl
  | cons o calls ih =>
      intro flags hown
      rw [List.foldl_cons, ih fun o' ho' => hown o' (List.mem_cons_of_mem _ ho'),
        flagsAfter_sv hn hskip flags (hown o List.mem_cons_self), lastOp]
      cases lastOp e calls with
      | some o' => rfl
      | none => by_cases ho : o.hdr = e <;> simp [ho]

end Sv

/-- The validity of a header is set by the last call on it. -/
theorem validAfter_eq (e : HeaderExpr) (calls : List (HdrOp HeaderExpr)) :
    ∀ valid : HeaderExpr → Bool,
      validAfter calls valid e = ((lastOp e calls).map callValue).getD (valid e) := by
  induction calls with
  | nil => exact fun _ => rfl
  | cons o calls ih =>
      intro valid
      show validAfter calls _ e = _
      rw [ih, lastOp]
      cases lastOp e calls with
      | some o' => rfl
      | none =>
          by_cases ho : o.hdr = e
          · simp [ho]
          · simp [ho, Function.update_of_ne (Ne.symm ho)]

/-! ## The flags in front of the control -/

theorem extractHeaders_v (n : String) (extracts : List String) : ∀ flags : Flags,
    extractHeaders extracts flags (.v n) = if n ∈ extracts then true else flags (.v n) := by
  induction extracts with
  | nil => exact fun _ => rfl
  | cons m extracts ih =>
      intro flags
      show extractHeaders extracts _ (.v n) = _
      rw [ih]
      by_cases hm : n = m <;> by_cases hmem : n ∈ extracts <;> simp [hm, hmem]

theorem extractHeaders_sv (n : String) (extracts : List String) : ∀ flags : Flags,
    extractHeaders extracts flags (.sv n) = flags (.sv n) := by
  induction extracts with
  | nil => exact fun _ => rfl
  | cons m extracts ih => exact fun flags => (ih _).trans (Function.update_of_ne (by simp) _ _)

variable (outcome : ParseOutcome pkg.hdrStr)

/-- After the parser, `_v` says whether a header was extracted. -/
theorem Package.v_before_control {n : String} (hn : n ∈ pkg.hdrStr) (flags : Flags) :
    extractHeaders outcome.extracts (resetFields pkg.fields flags) (.v n) =
      decide (n ∈ outcome.extracts) := by
  have hreset : resetFields pkg.fields flags (.v n) = false :=
    if_pos (Package.v_mem_fields.mpr hn)
  rw [extractHeaders_v, hreset]
  by_cases hmem : n ∈ outcome.extracts <;> simp [hmem]

theorem Package.sv_before_control {n : String} (hn : pkg.Recorded n) (flags : Flags) :
    extractHeaders outcome.extracts (resetFields pkg.fields flags) (.sv n) = false := by
  rw [extractHeaders_sv]
  exact if_pos (Package.sv_mem_fields.mpr hn)

/-! ## The test -/

variable {outcome} {calls : List (HdrOp HeaderExpr)} {e : HeaderExpr}

/-- The flags that a test of a header uses are there. -/
def Package.Testable (pkg : Package N P) (e : HeaderExpr) (n : String) : Prop :=
  e.hdrName = some n ∧ n ∈ pkg.hdrStr ∧ pkg.Recorded n

/-- The value of the test: the parse outcome, or the last call was `setValid`. -/
theorem Package.testValue_eq (he : skipHeaderTypes (pkg.typeName e) = false)
    (hown : ∀ o ∈ calls, o.hdr.hdrName = e.hdrName → o.hdr = e)
    (hcalls : ∀ o ∈ calls, pkg.Translates o.hdr) {n : String} (hn : pkg.Testable e n)
    (flags : Flags) : pkg.testValue outcome calls e flags =
      some (decide (n ∈ outcome.extracts) || ((lastOp e calls).map callValue).getD false) := by
  obtain ⟨hname, hstr, hrec⟩ := hn
  have hdecl : .v n ∈ pkg.fields ∧ .sv n ∈ pkg.fields :=
    ⟨Package.v_mem_fields.mpr hstr, Package.sv_mem_fields.mpr hrec⟩
  unfold Package.testValue translateTest
  rw [Package.execCalls_eq hcalls, hname]
  show (FlagTest.eval pkg.fields _ (if _ then _ else _)) = _
  rw [if_neg (Bool.eq_false_iff.mp he)]
  show (if _ then _ else _) = _
  rw [if_pos hdecl, foldl_flagsAfter_v, Package.v_before_control outcome hstr,
    foldl_flagsAfter_sv hname he hown, Package.sv_before_control outcome hrec]

theorem Package.testable_of_testValue (he : skipHeaderTypes (pkg.typeName e) = false)
    {flags : Flags} {b : Bool} (h : pkg.testValue outcome calls e flags = some b) :
    (∀ o ∈ calls, pkg.Translates o.hdr) ∧ ∃ n, pkg.Testable e n := by
  unfold Package.testValue translateTest at h
  obtain ⟨flags', hcalls, htest⟩ := Option.bind_eq_some_iff.mp h
  refine ⟨Package.translates_of_execCalls hcalls, ?_⟩
  cases hname : e.hdrName with
  | none =>
      rw [hname] at htest
      cases htest
  | some n =>
      rw [hname] at htest
      change FlagTest.eval pkg.fields _ (if _ then _ else _) = _ at htest
      rw [if_neg (Bool.eq_false_iff.mp he)] at htest
      change (if _ then _ else _) = _ at htest
      by_cases hdecl : .v n ∈ pkg.fields ∧ .sv n ∈ pkg.fields
      · exact ⟨n, hname, Package.v_mem_fields.mp hdecl.1, Package.sv_mem_fields.mp hdecl.2⟩
      · rw [if_neg hdecl] at htest
        cases htest

omit [DecidableEq N] in
/-- When that is the validity of the header. -/
theorem value_eq_valid_iff (n : String) :
    (decide (n ∈ outcome.extracts) || ((lastOp e calls).map callValue).getD false) =
        validAfter calls outcome.valid e ↔
      (lastOp e calls = some (.setInvalid e) → n ∉ outcome.extracts) ∧
        (lastOp e calls = none → (outcome.valid e = true ↔ n ∈ outcome.extracts)) := by
  rw [validAfter_eq]
  cases hlast : lastOp e calls with
  | none =>
      have hiff : decide (n ∈ outcome.extracts) = outcome.valid e ↔
          (outcome.valid e = true ↔ n ∈ outcome.extracts) := by
        rw [Bool.eq_iff_iff, decide_eq_true_iff]
        exact Iff.comm
      simpa using hiff
  | some o =>
      have hhdr : o.hdr = e := lastOp_hdr hlast
      cases o with
      | setValid h => simp [callValue]
      | setInvalid h =>
          have hh : h = e := hhdr
          subst hh
          simp [callValue]

/-- **`isValid`** after calls on the header, and on headers with other names in between: the
expression has the validity of the header exactly if all flags are there, the last call is not
`setInvalid` on a header that was parsed, and without calls the parser has decided the validity
of the header under its name. -/
theorem isValid_correct_iff (he : skipHeaderTypes (pkg.typeName e) = false)
    (hown : ∀ o ∈ calls, o.hdr.hdrName = e.hdrName → o.hdr = e) :
    pkg.IsValidCorrect outcome calls e ↔
      (∀ o ∈ calls, pkg.Translates o.hdr) ∧ ∃ n, pkg.Testable e n ∧
        (lastOp e calls = some (.setInvalid e) → n ∉ outcome.extracts) ∧
        (lastOp e calls = none → (outcome.valid e = true ↔ n ∈ outcome.extracts)) := by
  constructor
  · intro h
    have hvalue := h fun _ => false
    obtain ⟨hcalls, n, hn⟩ := Package.testable_of_testValue he hvalue
    rw [Package.testValue_eq he hown hcalls hn] at hvalue
    exact ⟨hcalls, n, hn, (value_eq_valid_iff n).mp (Option.some.inj hvalue)⟩
  · rintro ⟨hcalls, n, hn, h⟩ flags
    rw [Package.testValue_eq he hown hcalls hn]
    exact congrArg some ((value_eq_valid_iff n).mpr h)

/-- A control that removes the header `eth` under a condition. -/
def removesEth : Package Unit Unit where
  hdrStr := ["eth"]
  hdrParam := "hdr"
  typeName _ := "ethernet_h"
  sizes := ⟨fun _ => 112, fun _ => 112⟩
  body := .ite .skip (.op (.setInvalid "eth")) .skip

/-- `hdr.eth`. -/
def ethExpr : HeaderExpr := .member (.path "hdr") "eth"

/-- The packet is empty. -/
def noneParsed : ParseOutcome removesEth.hdrStr := ⟨[], by simp, fun _ => false⟩

/-- The header is parsed. -/
def ethParsed : ParseOutcome removesEth.hdrStr := ⟨["eth"], by simp [removesEth], fun _ => false⟩

theorem isValid_correct_iff_removesEth :
    removesEth.IsValidCorrect noneParsed [.setInvalid ethExpr] ethExpr ↔
      (∀ o ∈ [HdrOp.setInvalid ethExpr], removesEth.Translates o.hdr) ∧
        ∃ n, removesEth.Testable ethExpr n ∧
          (lastOp ethExpr [.setInvalid ethExpr] = some (.setInvalid ethExpr) →
            n ∉ noneParsed.extracts) ∧
          (lastOp ethExpr [.setInvalid ethExpr] = none →
            (noneParsed.valid ethExpr = true ↔ n ∈ noneParsed.extracts)) :=
  isValid_correct_iff (by decide) (by simp [HdrOp.hdr])

/-- A parsed header stays valid for the test when it is set invalid. -/
theorem not_isValid_correct_removesEth :
    ¬ removesEth.IsValidCorrect ethParsed [.setInvalid ethExpr] ethExpr := by
  intro h
  have hvalue := h fun _ => false
  obtain ⟨hcalls, n, hn⟩ := Package.testable_of_testValue (by decide) hvalue
  rw [Package.testValue_eq (by decide) (by simp [HdrOp.hdr]) hcalls hn] at hvalue
  obtain rfl : "eth" = n := Option.some.inj hn.1
  exact absurd (Option.some.inj hvalue) (by decide)

end Validity
end MicroP4
