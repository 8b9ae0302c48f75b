import Mathlib.Logic.Function.Basic
import MicroP4.Tofino.ByteHdrStack

/-!
# The generated Tofino parsers and deparsers

`CreateTofinoArchBlock` generates, for the ingress and for the egress pipeline, a
parser that loads the longest prefix a program may extract into the stacks of
two-byte headers, and a deparser that emits the stacks.  A parser has one state
for each stack: it decrements a parser counter, extracts into the `next` element
of the stack and stays where it is until the counter reads zero.  A trailing odd
byte goes to the single header `msa_byte`.

The parser is kept as data, a list of states that are looked up by name, because
two slips of the generator are about names and about what a state contains: the
state of the trailing byte is created under `nextStateName`, which is still empty
when there is no stack to load, and the ingress `start` state is built from a fresh
component list, so that the counters are never set there.

`ParserCounter` is an extern of the target, so its values and its operations are
parameters.
-/

namespace MicroP4
namespace Tofino

/-- A byte of the packet. -/
abbrev Byte := BitVec 8

/-! ## The parser counter extern -/

/-- The extern `ParserCounter`: `init` is the value of a counter that was never set. -/
structure ParserCounter where
  Counter : Type
  init : Counter
  set : ℕ → Counter
  decrement : ℕ → Counter → Counter
  isZero : Counter → Bool

variable {K : ParserCounter}

/-- The counter first reads zero after exactly `n` decrements by one, `n` positive. -/
def ParserCounter.firesAt (K : ParserCounter) : ℕ → K.Counter → Bool
  | 0, _ => false
  | n + 1, c =>
      let c' := K.decrement 1 c
      if K.isZero c' then n == 0 else K.firesAt n c'

theorem ParserCounter.firesAt_succ (K : ParserCounter) (n : ℕ) (c : K.Counter) :
    K.firesAt (n + 1) c =
      if K.isZero (K.decrement 1 c) then n == 0 else K.firesAt n (K.decrement 1 c) := rfl

/-- What the generated parsers rely on: a counter set to `n` counts `n` decrements. -/
def ParserCounter.Lawful (K : ParserCounter) : Prop :=
  ∀ n, 0 < n → n < 2 ^ 8 → K.firesAt n (K.set n) = true

theorem ParserCounter.firesAt_unique :
    ∀ {n m : ℕ} {c : K.Counter}, K.firesAt n c = true → K.firesAt m c = true → n = m
  | 0, _, _, hn, _ => by simp [ParserCounter.firesAt] at hn
  | _ + 1, 0, _, _, hm => by simp [ParserCounter.firesAt] at hm
  | n + 1, m + 1, c, hn, hm => by
      rw [ParserCounter.firesAt_succ] at hn hm
      split at hn
      · rename_i hz
        rw [if_pos hz] at hm
        simp only [beq_iff_eq] at hn hm
        omega
      · rename_i hz
        rw [if_neg hz] at hm
        rw [ParserCounter.firesAt_unique hn hm]

/-! ## The generated code -/

/-- The names of parser states; `empty` is the empty string. -/
inductive StateName where
  | start
  | parsePortMeta
  | parseResubmit
  | parseStack (stack : ℕ)
  | parseResidual
  | accept
  | empty
  deriving DecidableEq, Repr

/-- The statements that occur in generated states.  Counters and stacks are referred
to by their number. -/
inductive ParserStat where
  | setCounter (pc value : ℕ)
  | decrement (pc value : ℕ)
  | extractIM
  | advancePortMetadata
  | extractNext (stack : ℕ)
  | extractMsaByte
  deriving DecidableEq, Repr

/-- The transition of a state. -/
inductive Transition where
  | direct (next : StateName)
  | selectResubmit (one zero : StateName)
  | selectIsZero (pc : ℕ) (onFalse onTrue : StateName)
  deriving DecidableEq, Repr

/-- A generated parser state. -/
structure ParserState where
  name : StateName
  components : List ParserStat
  transition : Transition
  deriving DecidableEq, Repr

/-- The members that `CreateTofinoArchBlock::preorder(P4Program)` computes. -/
structure ExtractCounts where
  maxFullStToExct : ℕ
  maxHdrsToExctResSt : ℕ
  extctResidualByteHdr : ℕ

/-- `CreateTofinoArchBlock::preorder(P4Program)`. -/
def extractCounts (S : StackShape) (maxExtLen : ℕ) : ExtractCounts :=
  let maxExtHdr := maxExtLen / hdrBitWidth
  { maxFullStToExct := maxExtHdr / S.stackSize
    maxHdrsToExctResSt := maxExtHdr % S.stackSize
    extctResidualByteHdr := maxExtLen % hdrBitWidth }

namespace ExtractCounts

variable (S : StackShape) (E : ExtractCounts)

/-- `nc`, the number of parser counters. -/
def nc : ℕ := E.maxFullStToExct + if E.maxHdrsToExctResSt > 0 then 1 else 0

/-- `pcInstNameMaxPairVec`: each counter with the number of headers it counts. -/
def pcInstNameMaxPairVec : List (ℕ × ℕ) :=
  (List.range E.maxFullStToExct).map (fun i => (i, S.stackSize)) ++
    if E.maxHdrsToExctResSt > 0 then [(E.maxFullStToExct, E.maxHdrsToExctResSt)] else []

/-- `statesName`: one state for each counter, then where to go after the last. -/
def statesName : List StateName :=
  (List.range E.nc).map StateName.parseStack ++
    [if E.extctResidualByteHdr > 0 then .parseResidual else .accept]

/-- Element `i` of `statesName`. -/
def stateNameAt (i : ℕ) : StateName := E.statesName.getD i .empty

/-- The `pc.set` statements, one for each counter. -/
def setCounters : List ParserStat :=
  (E.pcInstNameMaxPairVec S).map fun p => .setCounter p.1 (p.2 % 2 ^ 8)

/-- The state that loads stack `i`. -/
def parseStackState (i : ℕ) : ParserState where
  name := E.stateNameAt i
  components := [.decrement i 1, .extractNext i]
  transition := .selectIsZero i (E.stateNameAt i) (E.stateNameAt (i + 1))

/-- The state for the trailing byte, under `nextStateName`: that variable holds
`statesName[nc]` after the loop over the counters, and is empty if there is none. -/
def residualState : ParserState where
  name := if E.nc = 0 then .empty else E.stateNameAt E.nc
  components := [.extractMsaByte]
  transition := .direct .accept

/-- The states after the start states; ingress and egress agree on them. -/
def bodyStates : List ParserState :=
  (List.range E.nc).map E.parseStackState ++
    if E.extctResidualByteHdr > 0 then [E.residualState] else []

/-- `createTofinoIngressParser`.  The counter settings are collected in `components`,
but the start state is built from another list. -/
def createTofinoIngressParser : List ParserState :=
  [ { name := .start
      components := [.extractIM]
      transition := .selectResubmit .parseResubmit .parsePortMeta },
    { name := .parsePortMeta
      components := [.advancePortMetadata]
      transition := .direct (E.stateNameAt 0) },
    { name := .parseResubmit
      components := []
      transition := .direct (E.stateNameAt 0) } ] ++ E.bodyStates

/-- `createTofinoEgressParser`. -/
def createTofinoEgressParser : List ParserState :=
  [ { name := .start
      components := E.setCounters S ++ [.extractIM]
      transition := .direct (E.stateNameAt 0) } ] ++ E.bodyStates

end ExtractCounts

/-- The argument of an `emit` in a generated deparser. -/
inductive EmitArg where
  | hdrStack (stack : ℕ)
  | msaByte
  deriving DecidableEq, Repr

/-- `hdrInsts`, built alike by `createTofinoIngressDeparser` and
`createTofinoEgressDeparser`. -/
def hdrInsts (E : ExtractCounts) (L : HdrStacks) : List EmitArg :=
  (List.range E.maxFullStToExct).map EmitArg.hdrStack ++
    (if L.residualStackSize > 0 then [.hdrStack E.maxFullStToExct] else []) ++ [.msaByte]

/-- `createTofinoIngressDeparser`. -/
def createTofinoIngressDeparser (E : ExtractCounts) (L : HdrStacks) : List EmitArg :=
  hdrInsts E L

/-- `createTofinoEgressDeparser`. -/
def createTofinoEgressDeparser (E : ExtractCounts) (L : HdrStacks) : List EmitArg :=
  hdrInsts E L

/-- The elements of two-byte stacks that an emit sends: `emit` of a stack emits its
elements from the first to the last. -/
def EmitArg.elements (S : StackShape) (L : HdrStacks) : EmitArg → List (ℕ × ℕ)
  | .hdrStack s => (List.range (L.declaredSize S s)).map fun x => (s, x)
  | .msaByte => []

@[simp] theorem EmitArg.elements_msaByte (S : StackShape) (L : HdrStacks) :
    EmitArg.elements S L .msaByte = [] := rfl

/-- The elements that the emits of a deparser send, in order. -/
def emittedElements (S : StackShape) (L : HdrStacks) (args : List EmitArg) : List (ℕ × ℕ) :=
  args.flatMap (EmitArg.elements S L)

/-! ## Running a generated parser -/

/-- The sizes in bytes of what precedes the packet on the wire between the MAC and
the parser, and how the resubmit flag is read from the intrinsic metadata. -/
structure Target where
  imSize : ℕ
  portMetadataSize : ℕ
  resubmitFlag : List Byte → Bool

/-- The state of a parser: the unread input, the counters, the two-byte stacks (the
length of a list is the stack's `nextIndex`), `msa_byte` and the resubmit flag. -/
@[ext] structure ParserConfig (K : ParserCounter) where
  pin : List Byte
  counters : ℕ → K.Counter
  hdrStack : ℕ → List (BitVec 16)
  msaByte : Option Byte
  resubmit : Bool

variable (S : StackShape) (L : HdrStacks) (T : Target)

/-- One statement; `none` is a parser error (`PacketTooShort`, `StackOutOfBounds`). -/
def ParserStat.exec : ParserStat → ParserConfig K → Option (ParserConfig K)
  | .setCounter pc v, c => some { c with counters := Function.update c.counters pc (K.set v) }
  | .decrement pc v, c =>
      some { c with counters := Function.update c.counters pc (K.decrement v (c.counters pc)) }
  | .extractIM, c =>
      if T.imSize ≤ c.pin.length then
        some { c with pin := c.pin.drop T.imSize
                      resubmit := T.resubmitFlag (c.pin.take T.imSize) }
      else none
  | .advancePortMetadata, c =>
      if T.portMetadataSize ≤ c.pin.length then
        some { c with pin := c.pin.drop T.portMetadataSize }
      else none
  | .extractNext s, c =>
      if (c.hdrStack s).length < L.declaredSize S s then
        match c.pin with
        | b₀ :: b₁ :: rest =>
            some { c with pin := rest
                          hdrStack := Function.update c.hdrStack s (c.hdrStack s ++ [b₀ ++ b₁]) }
        | _ => none
      else none
  | .extractMsaByte, c =>
      match c.pin with
      | b :: rest => some { c with pin := rest, msaByte := some b }
      | [] => none

/-- The statements of a state, in order. -/
def execAll (l : List ParserStat) (c : ParserConfig K) : Option (ParserConfig K) :=
  l.foldlM (fun c s => s.exec S L T c) c

/-- The state a transition goes to. -/
def Transition.next : Transition → ParserConfig K → StateName
  | .direct s, _ => s
  | .selectResubmit one zero, c => if c.resubmit then one else zero
  | .selectIsZero pc onFalse onTrue, c => if K.isZero (c.counters pc) then onTrue else onFalse

/-- The state declared under a name. -/
def findState (P : List ParserState) (s : StateName) : Option ParserState :=
  P.find? fun st => st.name = s

/-- A run with at most the given number of states.  `none` is a parser error, a
transition to an undeclared state, or too little fuel. -/
def runParser (P : List ParserState) : ℕ → StateName → ParserConfig K → Option (ParserConfig K)
  | 0, _, _ => none
  | n + 1, s, c =>
      if s = .accept then some c
      else
        match findState P s with
        | none => none
        | some st =>
            match execAll S L T st.components c with
            | none => none
            | some c₁ => runParser P n (st.transition.next c₁) c₁

/-- The parser accepts from state `s` and configuration `c` with result `c'`. -/
def Accepts (P : List ParserState) (s : StateName) (c c' : ParserConfig K) : Prop :=
  ∃ fuel, runParser S L T P fuel s c = some c'

end Tofino
end MicroP4
