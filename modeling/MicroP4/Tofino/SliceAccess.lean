import MicroP4.Foundations.BitString

/-!
# Slices of members and array elements

`FoldLExpSlicesInAsStmts` and `ReduceConcatExpression` put neighbouring slices together when
they are slices of one place.  Both compare the two places with the same visitor, which walks
over one access and keeps a pointer into the other one.

The visitor does not move that pointer to the operands of an array access.  It compares the
array and the index of the first access with themselves.
-/

namespace MicroP4
namespace Tofino

open BitString

/-! ## Accesses -/

/-- Paths, members and array elements.  A constant stands as an index. -/
inductive Access where
  | path (name : String)
  | member (expr : Access) (name : String)
  | arrayIndex (left right : Access)
  | constant (value width : ℕ)
  deriving DecidableEq

/-- What is stored where. -/
inductive Loc where
  | none
  | var (name : String)
  | field (loc : Loc) (name : String)
  | elem (loc : Loc) (index : ℕ)
  deriving DecidableEq

/-- The widths of the accesses, and the nodes whose type field is set. -/
structure Types where
  width : Access → ℕ
  hasType : Access → Bool

/-- The width of an access. -/
def Access.width (T : Types) : Access → ℕ
  | .constant _ w => w
  | a => T.width a

/-- `e->type->width_bits()`; an unknown type has no bits. -/
def Types.widthBits (T : Types) (a : Access) : ℕ := if T.hasType a then a.width T else 0

/-- The number with these bits, most significant first. -/
def numberOf (l : List Bool) : ℕ := l.foldl (fun n b => 2 * n + b.toNat) 0

/-- The place an access stands for in a state.  An index is read from the state. -/
def Access.loc (T : Types) (σ : Loc → Word) : Access → Loc
  | .path name => .var name
  | .member expr name => .field (expr.loc T σ) name
  | .arrayIndex left right =>
      .elem (left.loc T σ) <| match right with
        | .constant value _ => value
        | right => numberOf (sliceBits (σ (right.loc T σ)) 0 (T.width right))
  | .constant _ _ => .none

/-- The bits of an access. -/
def Access.bits (T : Types) (σ : Loc → Word) : Access → Word
  | .constant value _ => value.testBit
  | a => σ (a.loc T σ)

/-- An operand of a concatenation, or the left side of an assignment. -/
inductive Operand where
  | slice (e0 : Access) (h l : ℕ)
  | access (e : Access)
  deriving DecidableEq

namespace Operand

variable (T : Types)

/-- The width of an operand. -/
def width : Operand → ℕ
  | .slice _ h l => h + 1 - l
  | .access e => e.width T

/-- The bits of an operand, most significant first. -/
def value (σ : Loc → Word) : Operand → List Bool
  | .slice e0 h l => sliceBits (e0.bits T σ) l (h + 1 - l)
  | .access e => sliceBits (e.bits T σ) 0 (e.width T)

@[simp] theorem length_value (σ : Loc → Word) (x : Operand) :
    (x.value T σ).length = x.width T := by
  cases x <;> exact length_sliceBits _ _ _

/-- A slice is within what it is a slice of, and that is not a constant. -/
def WellTyped : Operand → Prop
  | .slice e0 h l => l ≤ h ∧ h < e0.width T ∧ ∀ v w, e0 ≠ .constant v w
  | .access _ => True

end Operand

/-- An expression that puts others side by side. -/
inductive Concat (α : Type) where
  | operand (exp : α)
  | concat (left right : Concat α)
  deriving DecidableEq

namespace Concat

variable {α : Type}

/-- The bits of a concatenation. -/
def value (f : α → List Bool) : Concat α → List Bool
  | .operand exp => f exp
  | .concat left right => left.value f ++ right.value f

/-- `FlattenConcatExpression`: the operands, from the left. -/
def flatten : Concat α → List α
  | .operand exp => [exp]
  | .concat left right => left.flatten ++ right.flatten

theorem value_eq (f : α → List Bool) (t : Concat α) : t.value f = t.flatten.flatMap f := by
  induction t with
  | operand exp => exact (List.flatMap_singleton f exp).symm
  | concat left right ihl ihr => rw [value, flatten, List.flatMap_append, ihl, ihr]

/-- A concatenation from the left; `createConcat` in `ReduceConcatExpression`, and the loop in
`fold`. -/
def createConcat (first : Concat α) (rest : List (Concat α)) : Concat α :=
  rest.foldl .concat first

theorem value_createConcat (f : α → List Bool) (first : Concat α) (rest : List (Concat α)) :
    (createConcat first rest).value f = (first :: rest).flatMap (value f) := by
  unfold createConcat
  induction rest generalizing first with
  | nil => exact (List.flatMap_singleton _ first).symm
  | cons x rest ih => rw [List.foldl_cons, ih, List.flatMap_cons, value, List.append_assoc]; rfl

end Concat

/-- `IR::Slice::make`.  The mask of a slice of a constant is a 32-bit number. -/
def makeSlice (T : Types) (e : Access) (lo hi : ℕ) : Operand :=
  match e with
  | .constant k _ => .access (.constant (k >>> lo &&& 2 ^ (hi - lo + 1) - 1) (hi - lo + 1))
  | e =>
      let srcWidth := T.widthBits e
      if srcWidth = 0 then .slice e hi lo
      else if lo ≥ srcWidth then .access (.constant 0 (hi - lo + 1))
      else
        let hi := if hi ≥ srcWidth then srcWidth - 1 else hi
        if lo = 0 ∧ hi = srcWidth - 1 then .access e else .slice e hi lo

/-- A slice that is made is the slice, or all of what it is a slice of. -/
theorem makeSlice_eq {T : Types} {e : Access} {lo hi : ℕ}
    (h : (Operand.slice e hi lo).WellTyped T) :
    makeSlice T e lo hi = .slice e hi lo ∨
      (makeSlice T e lo hi = .access e ∧ lo = 0 ∧ hi + 1 = e.width T) := by
  obtain ⟨hle, hlt, hconst⟩ := h
  have hmake : makeSlice T e lo hi =
      (let srcWidth := T.widthBits e
      if srcWidth = 0 then .slice e hi lo
      else if lo ≥ srcWidth then .access (.constant 0 (hi - lo + 1))
      else
        let hi := if hi ≥ srcWidth then srcWidth - 1 else hi
        if lo = 0 ∧ hi = srcWidth - 1 then .access e else .slice e hi lo) := by
    cases e with
    | constant v w => exact absurd rfl (hconst v w)
    | _ => rfl
  rw [hmake]
  dsimp only
  by_cases hzero : T.widthBits e = 0
  · rw [if_pos hzero]
    exact Or.inl rfl
  · have hw : T.widthBits e = e.width T := by
      unfold Types.widthBits at hzero ⊢
      split at hzero
      · rename_i htyped
        rw [if_pos htyped]
      · exact absurd rfl hzero
    rw [if_neg hzero, hw, if_neg (by omega), if_neg (by omega : ¬ hi ≥ e.width T)]
    split
    · rename_i hall
      exact Or.inr ⟨rfl, hall.1, by omega⟩
    · exact Or.inl rfl

theorem value_makeSlice {T : Types} {e : Access} {lo hi : ℕ}
    (h : (Operand.slice e hi lo).WellTyped T) (σ : Loc → Word) :
    (makeSlice T e lo hi).value T σ = (Operand.slice e hi lo).value T σ := by
  rcases makeSlice_eq h with heq | ⟨heq, rfl, hw⟩
  · rw [heq]
  · rw [heq, Operand.value, Operand.value, ← hw]
    rfl

/-! ## Comparing accesses -/

/-- The state of `CompareExpression`. -/
structure Comparison where
  currExpr : Access
  isMatch : Bool

/-- `CompareExpression`; the methods of `FoldLExpSlicesInAsStmts` with a node are the same. -/
def Comparison.visit : Access → Comparison → Comparison
  | .member expr name, s =>
      match s.currExpr with
      | .member currExpr currName =>
          if currName ≠ name then { s with isMatch := false }
          else Comparison.visit expr { s with currExpr := currExpr }
      | _ => { s with isMatch := false }
  | .path name, s =>
      match s.currExpr with
      | .path currName => if name ≠ currName then { s with isMatch := false } else s
      | _ => { s with isMatch := false }
  | .arrayIndex left right, s =>
      match s.currExpr with
      | .arrayIndex _ _ =>
          -- both operands of the access that is visited, not those of `currExpr`
          let s := Comparison.visit left { s with currExpr := left }
          if s.isMatch = false then s else Comparison.visit right { s with currExpr := right }
      | _ => { s with isMatch := false }
  | .constant value _, s =>
      match s.currExpr with
      | .constant currValue _ => if value ≠ currValue then { s with isMatch := false } else s
      | _ => { s with isMatch := false }

/-- The result of a comparison. -/
def compareExpression (curr e : Access) : Bool := (Comparison.visit e ⟨curr, true⟩).isMatch

/-- The accesses are the same from outside up to the first array access. -/
def Access.Alike : Access → Access → Prop
  | .path p, .path q => p = q
  | .member e m, .member e' m' => m = m' ∧ e.Alike e'
  | .arrayIndex _ _, .arrayIndex _ _ => True
  | .constant v _, .constant v' _ => v = v'
  | _, _ => False

theorem isMatch_visit_self (e : Access) : (Comparison.visit e ⟨e, true⟩).isMatch = true := by
  induction e with
  | path name =>
      rw [Comparison.visit]
      dsimp only
      rw [if_neg (not_not.mpr rfl)]
  | member expr name ih =>
      rw [Comparison.visit]
      dsimp only
      rw [if_neg (not_not.mpr rfl)]
      exact ih
  | arrayIndex left right ihl ihr =>
      rw [Comparison.visit]
      dsimp only
      rw [ihl, if_neg Bool.noConfusion]
      exact ihr
  | constant value width =>
      rw [Comparison.visit]
      dsimp only
      rw [if_neg (not_not.mpr rfl)]

/-- **What the comparison decides.** -/
theorem compareExpression_iff {curr e : Access} :
    compareExpression curr e = true ↔ curr.Alike e := by
  unfold compareExpression
  induction e generalizing curr with
  | path name =>
      rw [Comparison.visit]
      cases curr with
      | path currName =>
          dsimp only [Access.Alike]
          by_cases hname : name = currName
          · rw [if_neg (not_not.mpr hname)]
            exact iff_of_true rfl hname.symm
          · rw [if_pos hname]
            exact iff_of_false Bool.noConfusion (Ne.symm hname)
      | _ => exact iff_of_false Bool.noConfusion id
  | member expr name ih =>
      rw [Comparison.visit]
      cases curr with
      | member currExpr currName =>
          dsimp only [Access.Alike]
          by_cases hname : currName = name
          · rw [if_neg (not_not.mpr hname), ih]
            exact (and_iff_right hname).symm
          · rw [if_pos hname]
            exact iff_of_false Bool.noConfusion fun h => hname h.1
      | _ => exact iff_of_false Bool.noConfusion id
  | arrayIndex left right ihl ihr =>
      cases curr with
      | arrayIndex currLeft currRight =>
          -- the same as the comparison of the access with itself
          exact iff_of_true (isMatch_visit_self (.arrayIndex left right)) trivial
      | _ => exact iff_of_false Bool.noConfusion id
  | constant value width =>
      rw [Comparison.visit]
      cases curr with
      | constant currValue currWidth =>
          dsimp only [Access.Alike]
          by_cases hvalue : value = currValue
          · rw [if_neg (not_not.mpr hvalue)]
            exact iff_of_true rfl hvalue.symm
          · rw [if_pos hvalue]
            exact iff_of_false Bool.noConfusion (Ne.symm hvalue)
      | _ => exact iff_of_false Bool.noConfusion id

/-- Headers of two bytes; the width is known at every node. -/
def twoByteTypes : Types := ⟨fun _ => 16, fun _ => true⟩

/-- `p.msa_hdr_stack_s0[index].data`. -/
def dataOf (index : ℕ) : Access :=
  .member (.arrayIndex (.member (.path "p") "msa_hdr_stack_s0") (.constant index 32)) "data"

/-- Two elements of a stack are taken for one. -/
example : compareExpression (dataOf 0) (dataOf 1) = true := by decide

end Tofino
end MicroP4
