import MicroP4.Parsing.Unroll

/-!
# What the symbolic interpreter knows of headers

`ParserSymbolicInterpreter` evaluates the statements of a parser on a value map: the offset of
the packet, and for every header whether it is valid and where in the packet it was extracted
from.  A header of a stack is named by `next`, by `last`, or by an index.  `next` and `last` are
found by the validity of the elements; an element of unknown validity makes them an
`AnyElement`, and so does an unknown index on the left of an assignment.  Elsewhere an unknown
index gives a copy that is merged from all elements.

What the interpreter knows of the variables and of the fields of headers is a parameter, the
`Scalars`.  It decides where a static error is found and what the index of a stack is.
-/

namespace MicroP4
namespace Unrolling

/-! ## Types of headers -/

/-- The type of a field of a header. -/
inductive FieldType where
  | bits (w : ℕ)
  | varbits (w : ℕ)
  | serEnum (w : ℕ)
  | newtype (t : FieldType)

/-- `SymbolicValueFactory::isFixedWidth`, of a field. -/
def FieldType.isFixedWidth : FieldType → Bool
  | .varbits _ => false
  | _ => true

/-- `SymbolicValueFactory::getWidth`, of a field. -/
def FieldType.getWidth : FieldType → ℕ
  | .bits w => w
  | _ => 0

/-- The number of bits of a field, when it is fixed. -/
def FieldType.width : FieldType → Option ℕ
  | .bits w => some w
  | .varbits _ => none
  | .serEnum w => some w
  | .newtype t => t.width

/-- An `unsigned`. -/
def unsigned (n : ℕ) : ℕ := n % 2 ^ 32

/-- `SymbolicValueFactory::isFixedWidth`, of a header. -/
def isFixedWidth (fields : List FieldType) : Bool := fields.all FieldType.isFixedWidth

/-- `SymbolicValueFactory::getWidth`, of a header. -/
def getWidth (fields : List FieldType) : ℕ := unsigned (fields.map FieldType.getWidth).sum

/-- The number of bits of a header, when it is fixed. -/
def width : List FieldType → Option ℕ
  | [] => some 0
  | f :: fields => f.width.bind fun w => (width fields).map (w + ·)

/-! ## Syntax -/

/-- An expression for a header: the header itself, or an element of a stack. -/
inductive HeaderExpr (H K I : Type) where
  | header (h : H)
  | next (k : K)
  | last (k : K)
  | index (k : K) (i : I)

/-- A statement of a parser state.  A header is assigned another one, or what a method returns.
All other statements leave the packet and the validity of headers alone; `lasts` and `nexts` are
the stacks of which they name the element `last` or `next`. -/
inductive ParserStat (H K I C : Type) where
  | extract (e : HeaderExpr H K I)
  | setValid (e : HeaderExpr H K I) (b : Bool)
  | assign (left : HeaderExpr H K I) (right : Option (HeaderExpr H K I))
  | other (lasts nexts : List K) (c : C)

/-- The declarations of a parser.  `headers` are the headers of its header struct, those of
stacks included. -/
structure ParserDecl (S H K I C : Type) where
  headers : List H
  elements : K → List H
  fields : H → List FieldType
  elementFields : K → List FieldType
  fields_of_mem_elements : ∀ k, ∀ h ∈ elements k, fields h = elementFields k
  start : S
  components : S → List (ParserStat H K I C)
  selectCases : S → List (Parsing.Target S)

/-- The type of an expression. -/
def ParserDecl.typeOf {S H K I C : Type} (P : ParserDecl S H K I C) :
    HeaderExpr H K I → List FieldType
  | .header h => P.fields h
  | .next k => P.elementFields k
  | .last k => P.elementFields k
  | .index k _ => P.elementFields k

/-! ## Values -/

/-- `SymbolicBool`. -/
inductive SymbolicBool where
  | uninitialized
  | unknown
  | constant (b : Bool)
  deriving DecidableEq

/-- The value of the index of a stack. -/
inductive SymbolicIndex where
  | uninitialized
  | unknown
  | constant (n : ℕ)

/-- `SymbolicHeader`.  The coordinates are unset before the header is extracted. -/
structure SymbolicHeader where
  valid : SymbolicBool
  coordinates : Option (ℕ × ℕ)

/-- `ValueMap`. -/
structure ValueMap (H E : Type) where
  offset : ℕ
  header : H → SymbolicHeader
  scalars : E

/-- The validity of the headers. -/
def ValueMap.valid {H E : Type} (m : ValueMap H E) (h : H) : SymbolicBool := (m.header h).valid

/-- Why a statement is not evaluated to its end. -/
inductive EvalError where
  | exception
  | staticError
  deriving DecidableEq

/-- The value of a header expression: a header of the map, an `AnyElement`, or a copy merged
from the elements of a stack. -/
inductive HeaderValue (H K : Type) where
  | header (h : H)
  | anyElement (k : K)
  | collapsed (valid : SymbolicBool)

/-- What the interpreter knows of variables and fields.  The other statements raise an exception
for a `last` or `next` that is out of bounds only. -/
structure Scalars (H K I C E : Type) (elements : K → List H) where
  initial : Option E
  index : I → E → SymbolicIndex
  collapse : K → (H → SymbolicBool) → E → SymbolicBool
  effect : ParserStat H K I C → (H → SymbolicBool) → E → E
  check : List K → List K → C → (H → SymbolicBool) → E → Option EvalError
  exception_of_check : ∀ {lasts nexts : List K} {c : C} {v : H → SymbolicBool} {m : E},
    check lasts nexts c v m = some .exception →
      (∃ k ∈ lasts, ∀ h ∈ elements k, v h = .constant false) ∨
        ∃ k ∈ nexts, ∀ h ∈ elements k, v h = .constant true

/-! ## Evaluation -/

section Evaluation

variable {S H K I C E : Type} [DecidableEq H]

/-- The first element whose validity flag is `b`: `SymbolicArray::next` looks for an invalid
one, and `SymbolicArray::last` for a valid one from the end. -/
def scan (v : H → SymbolicBool) (k : K) (b : Bool) : List H → Except EvalError (HeaderValue H K)
  | [] => .error .exception
  | h :: l =>
      match v h with
      | .constant b' => if b' = b then .ok (.header h) else scan v k b l
      | _ => .ok (.anyElement k)

variable (P : ParserDecl S H K I C) (N : Scalars H K I C E P.elements)

/-- The value of a header expression.  `leftValue` is `evaluatingLeftValue`. -/
def evaluate (leftValue : Bool) (m : ValueMap H E) :
    HeaderExpr H K I → Except EvalError (HeaderValue H K)
  | .header h => .ok (.header h)
  | .next k => scan m.valid k false (P.elements k)
  | .last k => scan m.valid k true (P.elements k).reverse
  | .index k i =>
      match N.index i m.scalars with
      | .uninitialized => .error .staticError
      | .unknown =>
          .ok (if leftValue then .anyElement k else .collapsed (N.collapse k m.valid m.scalars))
      | .constant n => ((P.elements k)[n]?).elim (.error .staticError) fun h => .ok (.header h)

/-- Setting the validity of a header.  An `AnyElement` makes its whole stack unknown, and a merged
copy is not in the map. -/
def setValidity (m : ValueMap H E) (b : SymbolicBool) : HeaderValue H K → H → SymbolicHeader
  | .header h => Function.update m.header h { m.header h with valid := b }
  | .anyElement k => fun h =>
      if h ∈ P.elements k then { m.header h with valid := .unknown } else m.header h
  | .collapsed _ => m.header

/-- The validity of a value. -/
def HeaderValue.valid (m : ValueMap H E) : HeaderValue H K → SymbolicBool
  | .header h => m.valid h
  | .anyElement _ => .uninitialized
  | .collapsed b => b

/-- `setCoordinatesFromBitStream`, on a header of the map. -/
def setCoordinates (hdr : H → SymbolicHeader) (start stop : ℕ) :
    HeaderValue H K → H → SymbolicHeader
  | .header h => Function.update hdr h { hdr h with coordinates := some (start, stop) }
  | _ => hdr

/-- `extractor.extract`. -/
def extract (m : ValueMap H E) (e : HeaderExpr H K I) : Except EvalError (ValueMap H E) :=
  match evaluate P N false m e with
  | .error err => .error err
  | .ok hdr =>
      if !isFixedWidth (P.typeOf e) then .error .staticError
      else if hdr.valid m = .constant true then .error .exception
      else
        .ok { offset := unsigned (m.offset + getWidth (P.typeOf e))
              header := setCoordinates (setValidity P m (.constant true) hdr) m.offset
                (unsigned (m.offset + getWidth (P.typeOf e))) hdr
              scalars := N.effect (.extract e) m.valid m.scalars }

/-- The value on the right of an assignment: a method returns an invalid header. -/
def evaluateRight (m : ValueMap H E) :
    Option (HeaderExpr H K I) → Except EvalError SymbolicBool
  | none => .ok (.constant false)
  | some e => (evaluate P N false m e).map (HeaderValue.valid m)

/-- `executeStatement`.  `setValid` of an expression without a value breaks off the compiler. -/
def executeStatement (m : ValueMap H E) :
    ParserStat H K I C → Except EvalError (ValueMap H E)
  | .extract e => extract P N m e
  | .setValid e b =>
      match evaluate P N false m e with
      | .error _ => .error .staticError
      | .ok hdr =>
          .ok { m with
            header := setValidity P m (.constant b) hdr
            scalars := N.effect (.setValid e b) m.valid m.scalars }
  | .assign left right =>
      match evaluate P N true m left, evaluateRight P N m right with
      | .error err, _ => .error err
      | .ok _, .error err => .error err
      | .ok hdr, .ok b =>
          .ok { m with
            header := setValidity P m b hdr
            scalars := N.effect (.assign left right) m.valid m.scalars }
  | .other lasts nexts c =>
      match N.check lasts nexts c m.valid m.scalars with
      | some err => .error err
      | none => .ok { m with scalars := N.effect (.other lasts nexts c) m.valid m.scalars }

/-- The statements of a state. -/
def executeStatements : List (ParserStat H K I C) → ValueMap H E → Except EvalError (ValueMap H E)
  | [], m => .ok m
  | st :: l, m =>
      match executeStatement P N m st with
      | .error err => .error err
      | .ok m' => executeStatements l m'

end Evaluation

end Unrolling
end MicroP4
