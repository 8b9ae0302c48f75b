import Mathlib.Data.Int.Notation
import Mathlib.Data.List.Dedup
import MicroP4.Deparser.EmitTable

/-!
# Header-validity operations in a deparser

When the control of a package sets headers valid or invalid, the rows of the emit table
are multiplied by the records of such operations (`multiplyHdrValidityOpsTable`).  A row
then has to move headers: a header set invalid closes a gap, a header set valid opens one,
and what follows the parsed headers moves by the sum of both.

`extendEntry` builds one action for a row and a record.  The action calls, for each header
that is valid afterwards, a byte move and the emission of the header, and once the move of
the rest of the byte stack.  It gets a name made of the headers, the offsets they were
found at and the total move, and is declared only if no action of that name is.
-/

namespace MicroP4
namespace Deparser

open BitString

/-- A record of header-validity operations.  A header that is set valid in one place and invalid
in another is in both lists. -/
structure HdrValidityOps (H : Type) where
  setValid : List H
  setInvalid : List H

/-- The input of the conversion of a deparser whose control performs operations. -/
structure OpsInput (H F : Type) extends DeparserInput H F where
  xoredValidityOps : List (HdrValidityOps H)
  byteStackSize : ℕ

/-- Headers, initial offsets and the byte stack are whole bytes, and `byteStackSize` is an
`unsigned` number.  The offsets and the size are sums of widths of headers. -/
structure OpsInput.WellSized {H F : Type} (D : OpsInput H F) : Prop where
  widths : D.WholeBytes
  offsets : ∀ os ∈ D.initialOffsets, 8 ∣ os
  stack : 8 ∣ D.byteStackSize
  stack_lt : D.byteStackSize < 2 ^ 32

/-- `CurrOSMoveOSHdr`: the offset a header is found at, how far it moves, the header. -/
structure EmitDatum (H : Type) where
  currOS : ℕ
  moveOS : ℤ
  hdr : H
  deriving DecidableEq, Repr

namespace EmitDatum

variable {H : Type}

/-- `co + mo`, an unsigned number: headers never move in front of the initial offset. -/
def target (d : EmitDatum H) : ℕ := (d.currOS + d.moveOS).toNat

end EmitDatum

variable {H F : Type} [DecidableEq H]

/-! ## Keys of the operations -/

/-- `hdrOpKeyNames`: the columns of the operations, those that set headers valid first. -/
def hdrOpKeyNames (xoredValidityOps : List (HdrValidityOps H)) : List (H × Bool) :=
  ((xoredValidityOps.flatMap HdrValidityOps.setValid).dedup.map fun h => (h, true)) ++
    (xoredValidityOps.flatMap HdrValidityOps.setInvalid).dedup.map fun h => (h, false)

/-- `createHdrValidityOpsKeysValues`, for one record. -/
def hdrValidityOpKeyValue (names : List (H × Bool)) (ops : HdrValidityOps H) : List Bool :=
  names.map fun p => if p.2 then ops.setValid.contains p.1 else ops.setInvalid.contains p.1

/-- The search of `multiplyHdrValidityOpsTable` for an operation on the header of a
column: `some true` if the header is set valid, `some false` if it is set invalid. -/
def findOp (h : H) (value : Bool) : List (H × Bool) → List Bool → Option Bool
  | (hn, op) :: names, opValue :: values =>
      if hn ≠ h then findOp h value names values
      else if op && opValue && !value then some true
      else if !op && opValue && value then some false
      else findOp h value names values
  | _, _ => none

/-! ## What is emitted, and where -/

/-- The loop over the columns of a row: the headers to emit, and at the end the total move
and the offset behind the parsed headers. -/
def emitData (D : HeaderDecls H F) (names : List (H × Bool)) (values : List Bool) :
    List (H × Bool) → (moveOffset : ℤ) → (currOffset : ℕ) → List (EmitDatum H) × ℤ × ℕ
  | [], moveOffset, currOffset => ([], moveOffset, currOffset)
  | (h, value) :: keys, moveOffset, currOffset =>
      let width := D.width h
      match findOp h value names values with
      | some true =>
          let (l, e) := emitData D names values keys (moveOffset + width) currOffset
          (⟨(currOffset + moveOffset).toNat, 0, h⟩ :: l, e)
      | some false => emitData D names values keys (moveOffset - width) (currOffset + width)
      | none =>
          if value then
            let (l, e) := emitData D names values keys moveOffset (currOffset + width)
            (⟨currOffset, moveOffset, h⟩ :: l, e)
          else emitData D names values keys moveOffset currOffset

/-- `emitOrder`, computed from the last header to the first.  A header that moves left
starts a run: headers are put in front of it up to and including the first that does not
move left, and the run follows what was ordered before.  `run` is empty between runs. -/
def emitOrder : (run : List (EmitDatum H)) → List (EmitDatum H) → List (EmitDatum H)
  | run, [] => run
  | [], d :: l => if d.moveOS < 0 then emitOrder [d] l else d :: emitOrder [] l
  | r :: run, d :: l =>
      if d.moveOS < 0 then emitOrder (d :: r :: run) l else (d :: r :: run) ++ emitOrder [] l

/-! ## Actions -/

/-- A call in the action of a row: `createByteMoveP4Action` or the emission of a header.
Both actions are determined by their names. -/
inductive OpsCall (H : Type) where
  | move (moveInitIdx : ℕ) (moveOffset : ℤ) (moveBlockSize : ℕ)
  | emit (h : H) (start : ℕ)
  deriving DecidableEq, Repr

/-- `actName` of `extendEntry`: each header with the two numbers behind it, whether the
total move is positive, and its absolute value, all in bytes. -/
abbrev ActName (H : Type) := List (H × ℕ × ℕ) × Bool × ℕ

/-- The name of the action for a row and a record. -/
def actName (D : HeaderDecls H F) (data : List (EmitDatum H)) (totalMoveOffset : ℤ) : ActName H :=
  (data.map fun d => (d.hdr, d.currOS / 8, (d.currOS + D.width d.hdr) / 8),
    decide (totalMoveOffset > 0), (totalMoveOffset.tdiv 8).natAbs)

/-- `resiBlockSize`: how much of the byte stack moves along with the last header.  The
subtraction is unsigned and wraps if the parsed headers end behind the byte stack. -/
def resiBlockSize (byteStackSize currOffset : ℕ) (totalMoveOffset : ℤ) : ℕ :=
  let resi := (((byteStackSize : ℤ) - currOffset) % 2 ^ 32).toNat
  let lhsMin := (currOffset + totalMoveOffset).toNat
  let lhsMax := (lhsMin + resi) % 2 ^ 32
  if lhsMin > byteStackSize then 0
  else if lhsMax > byteStackSize then byteStackSize - lhsMin
  else resi

/-- The calls for one header: a move, clipped at the end of the byte stack, and the
emission at the new place. -/
def emitCalls (D : HeaderDecls H F) (byteStackSize : ℕ) (d : EmitDatum H) : List (OpsCall H) :=
  let width := D.width d.hdr
  let moveBlockSize :=
    if d.target ≤ byteStackSize ∧ d.target + width > byteStackSize then byteStackSize - d.target
    else width
  (if d.moveOS ≠ 0 ∧ moveBlockSize ≠ 0 then [.move d.currOS d.moveOS moveBlockSize] else []) ++
    [.emit d.hdr d.target]

/-- `actionCallOrder` of `extendEntry`. -/
def actionCallOrder (D : HeaderDecls H F) (byteStackSize : ℕ) (data : List (EmitDatum H))
    (totalMoveOffset : ℤ) (currOffset : ℕ) : List (OpsCall H) :=
  let resi := resiBlockSize byteStackSize currOffset totalMoveOffset
  let calls := (emitOrder [] data.reverse).flatMap (emitCalls D byteStackSize)
  let resMove :=
    if totalMoveOffset ≠ 0 ∧ resi ≠ 0 then [OpsCall.move currOffset totalMoveOffset resi] else []
  if totalMoveOffset > 0 then resMove ++ calls else calls ++ resMove

/-- An entry of the multiplied table with the name of its action. -/
structure OpsRow (H : Type) where
  row : EmitRow H
  ops : HdrValidityOps H
  name : ActName H

/-- An action declaration. -/
structure OpsAction (H : Type) where
  name : ActName H
  calls : List (OpsCall H)

variable (D : OpsInput H F)

/-- The data of a row and a record, from the initial offset the row carries on. -/
def OpsInput.rowData (r : EmitRow H) (ops : HdrValidityOps H) : List (EmitDatum H) × ℤ × ℕ :=
  let names := hdrOpKeyNames D.xoredValidityOps
  emitData D.toHeaderDecls names (hdrValidityOpKeyValue names ops) r.keys 0 r.initOffset

/-- The action `extendEntry` builds for a row and a record. -/
def OpsInput.rowAction (r : EmitRow H) (ops : HdrValidityOps H) : OpsAction H :=
  let (data, totalMoveOffset, currOffset) := D.rowData r ops
  { name := actName D.toHeaderDecls data totalMoveOffset
    calls := actionCallOrder D.toHeaderDecls D.byteStackSize data totalMoveOffset currOffset }

/-- The pairs of a record and a row, in the order of `multiplyHdrValidityOpsTable`. -/
def OpsInput.pairs : List (EmitRow H × HdrValidityOps H) :=
  D.xoredValidityOps.flatMap fun ops => D.emitTable.map fun r => (r, ops)

/-- The entries of the multiplied table.  Without operations the emit table stays. -/
def OpsInput.opsTable : List (OpsRow H) :=
  if (hdrOpKeyNames D.xoredValidityOps).isEmpty then []
  else D.pairs.map fun p => ⟨p.1, p.2, (D.rowAction p.1 p.2).name⟩

/-- Declaring an action if none of its name is declared. -/
def declareAction (decls : List (OpsAction H)) (a : OpsAction H) : List (OpsAction H) :=
  if decls.any fun b => b.name = a.name then decls else decls ++ [a]

/-- The actions of rows and records that are declared in the end. -/
def OpsInput.actionDecls : List (OpsAction H) :=
  D.pairs.foldl (fun decls p => declareAction decls (D.rowAction p.1 p.2)) []

/-- The action found under a name. -/
def OpsInput.findAction (name : ActName H) : Option (OpsAction H) :=
  D.actionDecls.find? fun a => a.name = name

/-! ## Running an action -/

/-- The assignments of `createByteMoveP4Action`, as pairs of byte indices. -/
def byteMoves (moveInitIdx : ℕ) (moveOffset : ℤ) (moveBlockSize : ℕ) : List (ℕ × ℕ) :=
  let lhsIdx := (moveInitIdx + moveOffset).toNat / 8
  let rhsIdx := moveInitIdx / 8
  let asms := (List.range (moveBlockSize / 8)).map fun i => (lhsIdx + i, rhsIdx + i)
  if moveOffset > 0 then asms.reverse else asms

/-- Copying bytes one after the other. -/
def copyBytes (l : List (ℕ × ℕ)) (st : ℕ → Word) : ℕ → Word :=
  l.foldl (fun st p => Function.update st p.1 (st p.2)) st

/-- Running a call. -/
def OpsCall.exec (D : HeaderDecls H F) (vals : FieldValues H F) (st : ℕ → Word) :
    OpsCall H → (ℕ → Word)
  | .move moveInitIdx moveOffset moveBlockSize =>
      copyBytes (byteMoves moveInitIdx moveOffset moveBlockSize) st
  | .emit h start => execStats vals (D.emitHeader h start) st

/-- Running the calls of an action in order. -/
def execCalls (D : HeaderDecls H F) (vals : FieldValues H F) (calls : List (OpsCall H))
    (st : ℕ → Word) : ℕ → Word :=
  calls.foldl (fun st c => c.exec D vals st) st

end Deparser
end MicroP4
