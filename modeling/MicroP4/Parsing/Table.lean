import Mathlib.Data.Finset.Sort
import MicroP4.Foundations.MatchTable
import MicroP4.Parsing.Actions

/-!
# The table of a converted parser

Besides the actions `ParserConverter` makes a table that selects one of them.  Its entries
are kept for each initial offset.  The visit of an instance with a `select` adds the key of
the `select`, once if the expression is not assigned in the state and once for each offset if
it is, and replaces every entry that is bound to the action of the instance by one for each
case.  The other entries get `default` in the new columns.  The init action is called first,
then the table is applied; if there are no keys, all actions are called instead.
-/

namespace MicroP4
namespace Parsing

open BitString Assignments

variable {S H F X : Type}

/-! ## Keys and entries -/

/-- The match kind of a key. -/
inductive MatchType where
  | exact
  | ternary
  deriving DecidableEq

/-- A key of the table. -/
structure KeyElement (H F X : Type) where
  expression : Rhs H F X
  matchType : MatchType

/-- The values of keys. -/
def keyValues (st : ℕ → Word) (σ : Store H F X) (keys : List (KeyElement H F X)) : List Value :=
  keys.map fun k => (k.expression.toExpr st).eval σ

/-- An entry of the table. -/
abbrev Entry := MatchTable.Entry Keyset ActName

/-- Whether a value is in the keyset of its column. -/
def Keyset.containsValue (k : Keyset) (v : Value) : Bool := k.contains [v]

/-- `caseKeysetExp`: a constant of a bit type gets a mask of ones. -/
def Keyset.withMask : Keyset → Keyset
  | .constant (.bits l) => .mask fun v => v = .bits l
  | k => k

/-- The expression of a `select` itself. -/
def SelectExpr.toExpr : SelectExpr H F X → Expr (Loc H F X) Value
  | .loc l => Expr.loc l
  | .expr e => e

/-- `hasSelectExpression`. -/
def Transition.hasSelectExpression : Transition S H F X → Bool
  | .goto _ => false
  | .select _ _ => true

/-- `hasDefaultSelectCase`. -/
def Transition.hasDefaultSelectCase : Transition S H F X → Bool
  | .goto _ => false
  | .select _ cases => cases.any fun c => match c.1 with
    | .default => true
    | _ => false

/-- The expressions of the `select`. -/
def Transition.selectExprs : Transition S H F X → List (SelectExpr H F X)
  | .goto _ => []
  | .select es _ => es

/-- `nextParserStateInfo`, with the keysets of the cases.  The next state of an unconditional
transition has none and is left out: it is looked at only where keys were added. -/
def Transition.nextParserStateInfo (p : List ℕ) : Transition S H F X → List (Keyset × List ℕ)
  | .goto _ => []
  | .select _ cases => cases.zipIdx.map fun c => (c.1.1, c.2 :: p)

/-- The keys an instance adds. -/
structure NewKeys (H F X : Type) where
  newKeyEles : List (KeyElement H F X)
  unsubstKeyAdded : Bool

/-- The `BUG_CHECK` on the keys of an instance, for the number of initial offsets. -/
def NewKeys.check (n : NewKeys H F X) (offsets : ℕ) : Bool :=
  (n.unsubstKeyAdded && n.newKeyEles.length = 1) || n.newKeyEles.length = offsets ||
    (n.newKeyEles.length = 0 && !n.unsubstKeyAdded)

/-- What becomes of an entry when an instance is visited: if it is bound to the action of the
instance, there is one for each next state, with the keyset in the column of the offset. -/
def rewriteEntry (name : ActName) (nexts : List (Keyset × ActName)) (pref suff total : ℕ)
    (e : Entry) : List Entry :=
  if e.action = name then
    nexts.map fun n =>
      ⟨e.keys ++ (List.replicate pref .default ++
        (if e.keys.length = 0 then n.1 else n.1.withMask) :: List.replicate suff .default), n.2⟩
  else [⟨e.keys ++ List.replicate total .default, e.action⟩]

/-- Adding names to the action list, unless they are there. -/
def addActions (actionList : List ActName) (names : List ActName) : List ActName :=
  names.foldl (fun l a => if a ∈ l then l else l ++ [a]) actionList

/-- The actions that are listed when the entries for an offset are updated: the next actions,
if there is an entry that is replaced by theirs, or no entry. -/
def listedActions (n : NewKeys H F X) (name : ActName) (nexts : List (Keyset × ActName))
    (oldEntries : List Entry) : List ActName :=
  if n.newKeyEles.length = 0 then []
  else if oldEntries.length = 0 then nexts.map Prod.snd
  else oldEntries.flatMap fun e => if e.action = name then nexts.map Prod.snd else []

/-- The entries for the offset of index `idx` after the visit of an instance.  `nexts` are the
next states but `accept`. -/
def updateEntries (n : NewKeys H F X) (offsets idx : ℕ) (name : ActName) (hasNext : Bool)
    (nexts : List (Keyset × ActName)) (oldEntries : List Entry) : List Entry :=
  if n.newKeyEles.length = 0 then oldEntries
  else if oldEntries.length = 0 then nexts.map fun k => ⟨[k.1], k.2⟩
  else
    (if hasNext then [] else oldEntries) ++
      if n.unsubstKeyAdded then
        oldEntries.flatMap (rewriteEntry name nexts 0 0 1)
      else
        oldEntries.flatMap
          (rewriteEntry name nexts idx (offsets - (idx + 1)) n.newKeyEles.length)

/-- What the converter has made of the instances visited so far. -/
structure Tables (H F X : Type) where
  decls : Decls H F X
  actionList : List ActName
  keyElementList : List (KeyElement H F X)
  entryListPerOffset : ℕ → List Entry

/-- The converted parser.  `NoAction`, which `createP4Table` adds to the action list, is left
out. -/
structure Control (H F X : Type) where
  actionDecls : List (ActName × List (Asgn H F X))
  actionList : List ActName
  keyElementList : List (KeyElement H F X)
  entries : List Entry

/-- The actions that run after the init action, on the store it leaves; `NoAction` does
nothing. -/
def Control.called (c : Control H F X) (st : ℕ → Word) (σ : Store H F X) : List ActName :=
  if c.keyElementList.length = 0 then
    (c.actionDecls.map Prod.fst).filter fun n => n ≠ .reject ∧ n ≠ .init
  else
    (MatchTable.lookup Keyset.containsValue (keyValues st σ c.keyElementList) c.entries).toList

/-! ## Visiting the instances -/

section Synthesis

variable [DecidableEq H] [DecidableEq F] [DecidableEq X]

/-- The right-hand side of the first assignment to the expression of a `select`. -/
def substituted (components : List (Asgn H F X)) : SelectExpr H F X → Option (Rhs H F X)
  | .loc l => (components.find? fun a => a.target = l).map Asgn.rhs
  | .expr _ => none

/-- Adding the key for an expression of the `select`. -/
def addKey (m : MatchType) (components : List (Asgn H F X)) (n : NewKeys H F X)
    (e : SelectExpr H F X) : NewKeys H F X :=
  match substituted components e with
  | some r => { n with newKeyEles := n.newKeyEles ++ [⟨r, m⟩] }
  | none => ⟨n.newKeyEles ++ [⟨.expr e.toExpr, m⟩], true⟩

end Synthesis

namespace Parser

variable (P : Parser S H F X) [DecidableEq S]

/-- `matchType`. -/
def matchType (s : S) : MatchType :=
  if (P.evaluatedInstances s).length > 1 ∨ (P.transition s).hasDefaultSelectCase then .ternary
  else .exact

/-- The next states of an instance but `accept`, with the names of their actions. -/
def nextActions (p : List ℕ) (s : S) (initOffset : ℕ) : List (Keyset × ActName) :=
  (((P.transition s).nextParserStateInfo p).filter fun n => P.targetOf n.2 ≠ some .accept).map
    fun n => (n.1, P.getActionName n.2 initOffset)

/-- The instances in the order of the visit. -/
def order : List (List ℕ) := P.sorted.flatMap P.evaluatedInstances

variable [DecidableEq H]

/-- `initTableWithOffsetEntries`, unless the only initial offset is 0. -/
def initTables (initialOffsets : List ℕ) : Tables H F X where
  decls := ⟨[(.init, P.initAction initialOffsets), (.reject, ParserDecl.rejectAction)], []⟩
  actionList := []
  keyElementList :=
    if initialOffsets = [0] then [] else [⟨.expr (Expr.loc .currOffset), .exact⟩]
  entryListPerOffset o :=
    if initialOffsets = [0] ∨ o ∉ initialOffsets then []
    else P.sorted.head?.toList.flatMap fun s => (P.evaluatedInstances s).map fun p =>
      ⟨[.constant (.num o)], P.getActionName p o⟩

variable [DecidableEq F] [DecidableEq X]

/-- The body of the first loop over `initialOffsets` in `stateIterator`. -/
def synthesize (p : List ℕ) (s : S) (c : Decls H F X × NewKeys H F X) (o : ℕ) :
    Decls H F X × NewKeys H F X :=
  if (lookup c.1.actionDecls (P.getActionName p o)).isSome then c
  else
    (P.declareAction c.1 (p, o),
      if (P.transition s).hasSelectExpression && !c.2.unsubstKeyAdded then
        (P.transition s).selectExprs.foldl (addKey (P.matchType s) (P.asgnsOf p o)) c.2
      else c.2)

/-- The body of the loop over the instances of a state in `stateIterator`.  It fails where the
converter stops with `BUG`. -/
def visitInstance (initialOffsets : List ℕ) (s : S) (t : Tables H F X) (p : List ℕ) :
    Option (Tables H F X) :=
  let c := initialOffsets.foldl (P.synthesize p s) (t.decls, ⟨[], false⟩)
  if c.2.check initialOffsets.length then
    some
      { decls := c.1
        actionList := initialOffsets.foldl (fun l o => addActions l (listedActions c.2
          (P.getActionName p o) (P.nextActions p s o) (t.entryListPerOffset o)))
          (addActions t.actionList (initialOffsets.map (P.getActionName p)))
        keyElementList := t.keyElementList ++ c.2.newKeyEles
        entryListPerOffset := initialOffsets.zipIdx.foldl (fun entries o =>
          Function.update entries o.1 (updateEntries c.2 initialOffsets.length o.2
            (P.getActionName p o.1) (((P.transition s).nextParserStateInfo p).length ≠ 0)
            (P.nextActions p s o.1) (entries o.1))) t.entryListPerOffset }
  else none

/-- `stateIterator`. -/
def stateIterator (initialOffsets : List ℕ) (t : Tables H F X) (s : S) : Option (Tables H F X) :=
  (P.evaluatedInstances s).foldlM (P.visitInstance initialOffsets s) t

/-- The conversion of the parser.  `createP4Table` appends the entries in the order of the
offsets. -/
def convert (initialOffsets : List ℕ) : Option (Control H F X) :=
  (P.sorted.foldlM (P.stateIterator initialOffsets) (P.initTables initialOffsets)).map fun t =>
    { actionDecls := t.decls.actionDecls
      actionList := t.actionList
      keyElementList := t.keyElementList
      entries := (initialOffsets.toFinset.sort (· ≤ ·)).flatMap t.entryListPerOffset }

end Parser
end Parsing
end MicroP4
