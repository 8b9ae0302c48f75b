import MicroP4.Partitioning.SliceCorrect

/-!
# Slicing a program

A control may call controls, which are cut before it.  `SlicePipeControl` goes into the control
of a call, and so on, and gives names to all that it makes.  Whatever the depth at which a control
is called, its halves do what it did (`sliced_splitInto`).
-/

namespace MicroP4
namespace Partitioning

open CopyInCopyOut

variable {N O E : Type} [DecidableEq N]

/-- The controls of a program, the last one first.  A control calls only those behind it in the
list. -/
abbrev Program (N O : Type) := List (N × Control N O)

/-- The halves of a control and the fields of the struct they share. -/
abbrev ControlHalves (N O : Type) := Control N O × Control N O × List (N × Shape N)

/-- The names that are made from the name of a control (`getSharedStructTypeName`,
`getUniqueControlName` and what `SlicePipeControl` appends to these), and the symbols of the code
that is made, with what the maps of the compiler have: the type and the method of a call
(`originalExternType`, `method`), and what is made for the converted packages
(`controlToReconInfoMap`). -/
structure ProgramNames (N O : Type) where
  sharedStructInstArgName : N → N
  sharedStructVarName : N → N
  uniqueControlName : N → ℕ → N
  instName : N → N
  ifField : ℕ → N
  const : ℕ → O
  equ : O
  intermediateCSAPacketHeaderInst : N
  controlToReconInfoMap : N → Option (ReconCalls N O)
  externMethod : O → Option (String × String)

section Slices

variable (names : ProgramNames N O) (partitionState : ControlConstraintStates)

def ProgramNames.slice (n : N) : SliceNames N O :=
  ⟨names.sharedStructInstArgName n, names.ifField, names.const, names.equ,
    names.intermediateCSAPacketHeaderInst, names.controlToReconInfoMap n⟩

/-- The calls that the pipeline does not allow. -/
def ProgramNames.cut (f : O) : Bool :=
  (names.externMethod f).any fun m => processExternMethodCall partitionState m.1 m.2

/-- What the caller of a control declares for its halves. -/
def ProgramNames.applySplit (n : N) (fields : List (N × Shape N)) : ApplySplit N where
  varName := names.sharedStructVarName n
  structType := structShape fields
  inst₁ := names.instName (names.uniqueControlName n 0)
  type₁ := names.uniqueControlName n 0
  inst₂ := names.instName (names.uniqueControlName n 1)
  type₂ := names.uniqueControlName n 1

/-- The instances of a control whose controls are cut. -/
def calleeOf (slices : N → Option (ControlHalves N O)) (locals : List (Decl N O)) (k : N) :
    Option (ApplySplit N) :=
  match getDeclaration locals k with
  | some (.instance _ type) => (slices type).map fun h => names.applySplit type h.2.2
  | _ => none

/-- The halves of the controls of a program that are cut.  Where the compiler stops for a control
it stops for those that call it, too; this is not told from a control that is not cut here. -/
def slices : Program N O → N → Option (ControlHalves N O)
  | [], _ => none
  | (n, c) :: program, m =>
      if m = n then
        (c.slice (names.slice n) (names.cut partitionState)
          (calleeOf names (slices program) c.controlLocals)).join
      else slices program m

variable (I : Interp N O E)

/-- What the controls of a program do. -/
def callees : Program N O → N → Option (Callee N E)
  | [], _ => none
  | (n, c) :: program, m => if m = n then some (c.callee I (callees program)) else callees program m

/-- What the controls of a program do, and the halves of those that are cut. -/
def slicedCallees : Program N O → N → Option (Callee N E)
  | [], _ => none
  | (n, c) :: program, m =>
      match slices names partitionState ((n, c) :: program) n with
      | none =>
          if m = n then some (c.callee I (slicedCallees program)) else slicedCallees program m
      | some (h₁, h₂, _) =>
          if m = names.uniqueControlName n 0 then some (h₁.callee I (slicedCallees program))
          else if m = names.uniqueControlName n 1 then some (h₂.callee I (slicedCallees program))
          else if m = n then some (c.callee I (slicedCallees program))
          else slicedCallees program m

/-- What is made sure of before: every control is well formed, what it calls is declared before,
the names that are made are new, no call at which it is to be cut stands in a branch or a case,
its parameters that are only copied out are not used in front of the cut, and it is no converted
package for which the packet is read again. -/
structure Sliceable (program : Program N O) (n : N) (c : Control N O) : Prop where
  declared : ∀ k type, .instance k type ∈ c.controlLocals → type ∈ program.map Prod.fst
  wellFormed : c.WellFormed I (callees I program)
  whole : c.reconCalls (names.slice n) = none
  plain : c.Plain (names.cut partitionState)
    (calleeOf names (slices names partitionState program) c.controlLocals)
  newNames : c.NewNames (names.sharedStructInstArgName n)
    (calleeOf names (slices names partitionState program) c.controlLocals)
  outputs : ∀ h, slices names partitionState ((n, c) :: program) n = some h → ∀ p ∈ c.params,
    p.dir.copiesIn = false → ∀ r ∈ h.1.names, r.name ≠ p.name

/-- All controls of a program. -/
def AllSliceable : Program N O → Prop
  | [] => True
  | (n, c) :: program => Sliceable names partitionState I program n c ∧ AllSliceable program

/-- The names of the controls and of their halves are different. -/
structure Distinct (program : Program N O) : Prop where
  nodup : (program.map Prod.fst).Nodup
  half : ∀ n ∈ program.map Prod.fst, ∀ i, names.uniqueControlName n i ∉ program.map Prod.fst
  inj : ∀ n ∈ program.map Prod.fst, ∀ m ∈ program.map Prod.fst, ∀ i j,
    names.uniqueControlName n i = names.uniqueControlName m j → n = m ∧ i = j

end Slices

section Correct

variable {names : ProgramNames N O} {partitionState : ControlConstraintStates} {I : Interp N O E}

omit [DecidableEq N] in
theorem Distinct.tail {n : N} {c : Control N O} {program : Program N O}
    (h : Distinct names ((n, c) :: program)) : Distinct names program where
  nodup := (List.nodup_cons.mp h.nodup).2
  half := fun m hm i hmem => h.half m (List.mem_cons_of_mem _ hm) i (List.mem_cons_of_mem _ hmem)
  inj := fun m hm k hk => h.inj m (List.mem_cons_of_mem _ hm) k (List.mem_cons_of_mem _ hk)

theorem ctrlsOf_congr {locals : List (Decl N O)} {program program' : N → Option (Callee N E)}
    (h : ∀ k type, .instance k type ∈ locals → program type = program' type) :
    ctrlsOf program locals = ctrlsOf program' locals := by
  funext k
  rw [ctrlsOf, ctrlsOf]
  split
  · rename_i k' type hd
    exact h k' type (mem_of_getDeclaration hd).1
  · rfl

/-- What a control does depends on the controls that have instances in it. -/
theorem Control.callee_congr {c : Control N O} {program program' : N → Option (Callee N E)}
    (h : ∀ k type, .instance k type ∈ c.controlLocals → program type = program' type) :
    c.callee I program = c.callee I program' := by
  rw [Control.callee, Control.callee, runIn, runIn, ctrlsOf_congr h]

theorem Control.WellFormed.congr {c : Control N O} {program program' : N → Option (Callee N E)}
    (hwf : c.WellFormed I program)
    (h : ∀ k type, .instance k type ∈ c.controlLocals → program type = program' type) :
    c.WellFormed I program' where
  scope := hwf.scope
  body := hwf.body
  assigned := ctrlsOf_congr h ▸ hwf.assigned
  actions := hwf.actions
  calls := ctrlsOf_congr h ▸ hwf.calls

theorem slices_eq_none {program : Program N O} {m : N} (h : m ∉ program.map Prod.fst) :
    slices names partitionState program m = none := by
  induction program with
  | nil => rfl
  | cons entry program ih =>
      rw [List.map_cons, List.mem_cons, not_or] at h
      rw [slices, if_neg h.1]
      exact ih h.2

/-- What is declared behind a control stays what it is. -/
theorem slicedCallees_cons {n : N} {c : Control N O} {program : Program N O} {m : N}
    (hne : m ≠ n) (h : ∀ i, m ≠ names.uniqueControlName n i) :
    slicedCallees names partitionState I ((n, c) :: program) m
      = slicedCallees names partitionState I program m := by
  rw [slicedCallees]
  split
  · rw [if_neg hne]
  · rw [if_neg (h 0), if_neg (h 1), if_neg hne]

/-- The controls themselves do what they did. -/
theorem slicedCallees_eq : ∀ {program : Program N O}, Distinct names program →
    AllSliceable names partitionState I program → ∀ m ∈ program.map Prod.fst,
    slicedCallees names partitionState I program m = callees I program m
  | [], _, _, _, hm => absurd hm List.not_mem_nil
  | (n, c) :: program, hd, ⟨hc, hrest⟩, m, hm => by
      have ih := slicedCallees_eq hd.tail hrest
      by_cases hmn : m = n
      · subst hmn
        have hcallee : c.callee I (slicedCallees names partitionState I program)
            = c.callee I (callees I program) :=
          Control.callee_congr fun k type hk => ih type (hc.declared k type hk)
        have hhalf : ∀ i, m ≠ names.uniqueControlName m i := fun i heq =>
          hd.half m List.mem_cons_self i (heq ▸ List.mem_cons_self)
        rw [slicedCallees, callees, if_pos rfl, hcallee]
        split
        · rw [if_pos rfl]
        · rw [if_neg (hhalf 0), if_neg (hhalf 1), if_pos rfl]
      · have hmem := (List.mem_cons.mp hm).resolve_left hmn
        rw [slicedCallees_cons hmn fun i heq =>
          hd.half n List.mem_cons_self i (heq ▸ List.mem_cons_of_mem _ hmem), callees, if_neg hmn]
        exact ih m hmem

/-- **At any depth, the halves of a control do what it did.** -/
theorem sliced_splitInto : ∀ {program : Program N O}, Distinct names program →
    AllSliceable names partitionState I program → ∀ {n : N} {h₁ h₂ : Control N O}
    {fields : List (N × Shape N)},
    slices names partitionState program n = some (h₁, h₂, fields) → ∃ C C₁ C₂,
      callees I program n = some C ∧
      slicedCallees names partitionState I program (names.uniqueControlName n 0) = some C₁ ∧
      slicedCallees names partitionState I program (names.uniqueControlName n 1) = some C₂ ∧
      C.SplitInto I C₁ C₂ ⟨names.sharedStructInstArgName n, .inout⟩ (structShape fields)
  | [], _, _, _, _, _, _, h => by cases h
  | (n, c) :: program, hd, ⟨hc, hrest⟩, m, h₁, h₂, fields, h => by
      have hsame : ∀ k type, .instance k type ∈ c.controlLocals →
          callees I program type = slicedCallees names partitionState I program type :=
        fun k type hk => (slicedCallees_eq hd.tail hrest type (hc.declared k type hk)).symm
      by_cases hmn : m = n
      · subst hmn
        have hslice := h
        rw [slices, if_pos rfl, Option.join_eq_some_iff] at hslice
        have hne : names.uniqueControlName m 1 ≠ names.uniqueControlName m 0 := fun heq =>
          Nat.one_ne_zero (hd.inj m List.mem_cons_self m List.mem_cons_self 1 0 heq).2
        refine ⟨_, _, _, by rw [callees, if_pos rfl, Control.callee_congr hsame],
          by rw [slicedCallees, h]; exact if_pos rfl,
          by rw [slicedCallees, h]; exact (if_neg hne).trans (if_pos rfl), ?_⟩
        refine Control.splitInto_of_slice hslice hc.whole hc.plain (hc.wellFormed.congr hsame)
          hc.newNames (fun k sp hk => ?_) (hc.outputs _ h)
        -- the control of an instance is split, too
        rw [calleeOf] at hk
        split at hk
        · rename_i k' type hdecl
          obtain ⟨⟨h₁', h₂', fields'⟩, htype, rfl⟩ := Option.map_eq_some_iff.mp hk
          obtain ⟨C, C₁, C₂, hC, hC₁, hC₂, hsplit⟩ := sliced_splitInto hd.tail hrest htype
          refine ⟨C, C₁, C₂, _, ?_, hC₁, hC₂, hsplit⟩
          rw [ctrlsOf, hdecl]
          exact (hsame k' type (mem_of_getDeclaration hdecl).1).symm.trans hC
        · cases hk
      · -- a control that is declared before
        have h' := h
        rw [slices, if_neg hmn] at h'
        obtain ⟨C, C₁, C₂, hC, hC₁, hC₂, hsplit⟩ := sliced_splitInto hd.tail hrest h'
        have hmem : m ∈ program.map Prod.fst := by
          by_contra hno
          rw [slices_eq_none hno] at h'
          cases h'
        have hother : ∀ i, names.uniqueControlName m i ≠ n ∧
            ∀ j, names.uniqueControlName m i ≠ names.uniqueControlName n j := fun i => by
          refine ⟨fun heq => ?_, fun j heq => ?_⟩
          · exact hd.half m (List.mem_cons_of_mem _ hmem) i (heq ▸ List.mem_cons_self)
          · exact hmn (hd.inj m (List.mem_cons_of_mem _ hmem) n List.mem_cons_self i j heq).1
        refine ⟨C, C₁, C₂, ?_, ?_, ?_, hsplit⟩
        · rw [callees, if_neg hmn, hC]
        · rw [slicedCallees_cons (hother 0).1 (hother 0).2, hC₁]
        · rw [slicedCallees_cons (hother 1).1 (hother 1).2, hC₂]

end Correct

/-! ### A control that calls another one -/

/-- A control that reads a value between two assignments. -/
def reader : Control ℕ ℕ where
  params := [⟨10, .inout⟩]
  csaPacket := false
  controlLocals := [.variable 11 .any]
  body := [.simple (.assign (.ofVar 11) (.place (.ofVar 10))), .simple (.method 7 [] [.ofVar 10]),
    .simple (.assign (.ofVar 10) (.op 5 (.place (.ofVar 10)) (.place (.ofVar 11))))]

def readerCaller : Control ℕ ℕ where
  params := [⟨20, .inout⟩]
  csaPacket := false
  controlLocals := [.instance 21 1]
  body := [.apply 21 [⟨none, .place (.ofVar 20)⟩]]

def readerProgram : Program ℕ ℕ := [(2, readerCaller), (1, reader)]

/-- Names that are not used in it.  Its only forbidden call is the one it reads with; control 4
would read the packet again. -/
def readerNames : ProgramNames ℕ ℕ where
  sharedStructInstArgName n := 100 + n
  sharedStructVarName n := 200 + n
  uniqueControlName n i := 300 + (10 * i + n)
  instName n := 400 + n
  ifField i := 1000 + i
  const i := i
  equ := 5
  intermediateCSAPacketHeaderInst := 30
  controlToReconInfoMap n := if n = 4 then some ⟨51, 3, [], 52, 5, [], [30]⟩ else none
  externMethod f := if f = 7 then some ("im_t", "get_value") else none

/-- Reading counts. -/
def readerInterp : Interp ℕ ℕ ℕ where
  lit o := .bits o
  op _ v _ := v
  holds _ := true
  method _ _ e := ([.bits e], e + 1)
  select _ _ := none

theorem sliceable_reader : Sliceable readerNames .rwImR readerInterp [] 1 reader where
  declared := by simp [reader]
  wellFormed :=
    { scope :=
        { params_nodup := by decide
          locals_nodup := by decide
          locals_params := by decide
          own := by decide
          names := by simp [reader, Decl.names]
          select := by simp [reader] }
      body := by
        simp [reader, namesOf, leavesOf, Statement.leaves, Simple.stmt, Stmt.names, Expr.names,
          Expr.refs, Declares, getDeclaration, Decl.name, Place.ofVar]
      assigned := by decide
      actions := by simp [reader]
      calls := by simp [reader, leavesOf, Statement.leaves, Simple.stmt] }
  whole := rfl
  plain := ⟨by decide, by simp [reader]⟩
  newNames :=
    { freshArg := ⟨by decide, by decide, by decide⟩
      nodup := by simp [calleeOf, reader, getDeclaration, Decl.name]
      fresh := by simp [calleeOf, reader, getDeclaration, Decl.name] }
  outputs := by simp [reader, Dir.copiesIn]

theorem newNames_readerCaller {k : ℕ} {sp : ApplySplit ℕ}
    (h : calleeOf readerNames (slices readerNames .rwImR [(1, reader)])
      readerCaller.controlLocals k = some sp) : sp.newNames = [201, 701, 711] := by
  rw [calleeOf] at h
  split at h
  · rename_i k' type hd
    obtain ⟨halves, -, rfl⟩ := Option.map_eq_some_iff.mp h
    have hmem := List.mem_singleton.mp (mem_of_getDeclaration hd).1
    rw [(Decl.instance.inj hmem).2]
    rfl
  · cases h

theorem sliceable_readerCaller :
    Sliceable readerNames .rwImR readerInterp [(1, reader)] 2 readerCaller where
  declared := by simp [readerCaller]
  wellFormed :=
    { scope :=
        { params_nodup := by decide
          locals_nodup := by decide
          locals_params := by decide
          own := by decide
          names := by simp [readerCaller, Decl.names]
          select := by simp [readerCaller] }
      body := by
        simp [readerCaller, namesOf, leavesOf, Statement.leaves, Stmt.names, argNames, Expr.names,
          Expr.refs, Declares, Declared, getDeclaration, Decl.name, Place.ofVar]
      assigned := by decide
      actions := by simp [readerCaller]
      calls := by
        intro k args hmem C hC
        obtain ⟨rfl, rfl⟩ : k = 21 ∧ args = [⟨none, .place (.ofVar 20)⟩] := by
          simpa [readerCaller, leavesOf, Statement.leaves] using hmem
        obtain rfl : reader.callee readerInterp (callees readerInterp []) = C :=
          Option.some.inj hC
        have hbindings : bindings reader.params [⟨none, .place (.ofVar 20)⟩]
            = [(⟨10, .inout⟩, Expr.place (O := ℕ) (.ofVar 20))] := rfl
        refine ⟨by decide, by decide, ?_⟩
        show ArgsApart (bindings reader.params _)
        rw [hbindings]
        exact ⟨by decide, by simp, by simp⟩ }
  whole := rfl
  plain := ⟨by decide, by simp [readerCaller]⟩
  newNames :=
    { freshArg := ⟨by decide, by decide, by decide⟩
      nodup := fun k sp hk => by
        rw [newNames_readerCaller hk]
        decide
      fresh := fun k sp hk => by
        rw [newNames_readerCaller hk]
        exact fun x hx => ⟨by revert x; decide, by revert x; decide, by revert x; decide⟩ }
  outputs := by simp [readerCaller, Dir.copiesIn]

theorem distinct_readerNames {program : Program ℕ ℕ} (hnodup : (program.map Prod.fst).Nodup)
    (hlt : ∀ n ∈ program.map Prod.fst, n < 10) : Distinct readerNames program where
  nodup := hnodup
  half := fun n _ i hmem => by
    have hge : 300 ≤ readerNames.uniqueControlName n i := Nat.le_add_right _ _
    have hname := hlt _ hmem
    omega
  inj := fun n hn m hm i j heq => by
    have hsum : 300 + (10 * i + n) = 300 + (10 * j + m) := heq
    have hn := hlt n hn
    have hm := hlt m hm
    omega

theorem sliced_splitInto_readerProgram : ∃ h₁ h₂ fields C C₁ C₂,
    slices readerNames .rwImR readerProgram 2 = some (h₁, h₂, fields) ∧
    callees readerInterp readerProgram 2 = some C ∧
    slicedCallees readerNames .rwImR readerInterp readerProgram 302 = some C₁ ∧
    slicedCallees readerNames .rwImR readerInterp readerProgram 312 = some C₂ ∧
    C.SplitInto readerInterp C₁ C₂ ⟨102, .inout⟩ (structShape fields) := by
  have hsome : (slices readerNames .rwImR readerProgram 2).isSome := by decide
  obtain ⟨⟨h₁, h₂, fields⟩, h⟩ := Option.isSome_iff_exists.mp hsome
  have hdistinct : Distinct readerNames readerProgram :=
    distinct_readerNames (by decide) (by decide)
  obtain ⟨C, C₁, C₂, hrest⟩ := sliced_splitInto hdistinct
    ⟨sliceable_readerCaller, sliceable_reader, trivial⟩ h
  exact ⟨h₁, h₂, fields, C, C₁, C₂, h, hrest⟩

end Partitioning
end MicroP4
