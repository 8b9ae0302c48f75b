import MicroP4.Foundations.Worklist
import MicroP4.Unrolling.SymbolicHeaders

/-!
# Instances of parser states

`ParserSymbolicInterpreter::run` evaluates a parser by instances of its states.  An instance has
a value map that is a clone of the one after its predecessor; evaluating its statements gives
the map after it, and every case of its `select` a new instance.  An instance of a state that
is among its own predecessors is a clone: it is not evaluated when the packet has not advanced or
no header has changed its validity since, and an exception in it is not reported.
-/

namespace MicroP4
namespace Unrolling

variable {S H K I C E : Type}

/-- `ParserStateInfo`.  Of the predecessors the original state is kept and the map before it,
the nearest one first. -/
structure ParserStateInfo (S H E : Type) where
  state : Parsing.Target S
  predecessors : List (S × ValueMap H E)
  before : ValueMap H E

/-- What is reported. -/
inductive Message where
  | exceptionTriggered
  | staticError
  | cycleWithoutExtracting
  | cannotBeUnrolled

/-- What visiting an instance gives: the map after it, the instances of the next states, and
what is reported. -/
structure Visit (S H E : Type) where
  after : Option (ValueMap H E)
  next : List (ParserStateInfo S H E)
  messages : List Message

/-- `ParserInfo`: the instances with what visiting them gave, and the maps at the end of the
parser. -/
structure ParserInfo (S H E : Type) where
  states : List (ParserStateInfo S H E × Visit S H E)
  allPossileFinalValueMaps : List (ValueMap H E)
  acceptStateFinalValueMaps : List (ValueMap H E)
  messages : List Message

section Interpreter

variable [DecidableEq S] [DecidableEq H] (P : ParserDecl S H K I C)
  (N : Scalars H K I C E P.elements)

/-- `reportIfError`, of a statement of an instance. -/
def reportIfError (clone : Bool) : EvalError → List Message
  | .exception => if clone then [] else [.exceptionTriggered]
  | .staticError => [.staticError]

/-- `evaluateSelect`. -/
def evaluateSelect (i : ParserStateInfo S H E) (s : S) (after : ValueMap H E) :
    List (ParserStateInfo S H E) :=
  (P.selectCases s).map fun t => ⟨t, (s, i.before) :: i.predecessors, after⟩

/-- `evaluateState`. -/
def evaluateState (i : ParserStateInfo S H E) : Visit S H E :=
  match i.state with
  | .accept => ⟨some i.before, [], []⟩
  | .reject => ⟨some i.before, [], []⟩
  | .state s =>
      match executeStatements P N (P.components s) i.before with
      | .ok m => ⟨some m, evaluateSelect P i s m, []⟩
      | .error err => ⟨none, [], reportIfError (s ∈ i.predecessors.map Prod.fst) err⟩

/-- `headerValidityChange`. -/
def headerValidityChange (before after : ValueMap H E) : Bool :=
  P.headers.any fun h => !decide (before.valid h = after.valid h)

/-- `checkLoops`, with what it reports. -/
def checkLoops (i : ParserStateInfo S H E) : Option Message :=
  match i.state with
  | .accept => none
  | .reject => none
  | .state s =>
      match i.predecessors.find? fun p => p.1 = s with
      | none => none
      | some (_, crt) =>
          if i.before.offset = crt.offset then some .cycleWithoutExtracting
          else if !headerValidityChange P crt i.before then some .cannotBeUnrolled
          else none

/-- An instance is checked for loops and evaluated. -/
def visit (i : ParserStateInfo S H E) : Visit S H E :=
  match checkLoops P i with
  | some msg => ⟨none, [], [msg]⟩
  | none => evaluateState P N i

/-- The map at the end of the parser, at an instance of `accept` or `reject`. -/
def finalValueMap (accepted : Bool) (i : ParserStateInfo S H E) : Option (ValueMap H E) :=
  match i.state with
  | .accept => some i.before
  | .reject => if accepted then none else some i.before
  | .state _ => none

/-- `ParserInfo`, when the instances are visited in this order. -/
def synthesizedParser (instances : List (ParserStateInfo S H E)) : ParserInfo S H E where
  states := instances.map fun i => (i, visit P N i)
  allPossileFinalValueMaps := instances.filterMap (finalValueMap false)
  acceptStateFinalValueMaps := instances.filterMap (finalValueMap true)
  messages := instances.flatMap fun i => (visit P N i).messages

/-- The instance of the start state. -/
def startInfo (initial : E) : ParserStateInfo S H E where
  state := .state P.start
  predecessors := []
  before := { offset := 0, header := fun _ => ⟨.constant false, none⟩, scalars := initial }

/-- `run`, when it visits no more instances than `fuel`. -/
def run (fuel : ℕ) : Option (ParserInfo S H E) :=
  match N.initial with
  | none => some ⟨[], [], [], [.staticError]⟩
  | some initial =>
      (Worklist.exhaust (fun i => (visit P N i).next) fuel [startInfo P initial]).map
        (synthesizedParser P N)

end Interpreter

/-! ## Offsets -/

namespace ParserInfo

variable (info : ParserInfo S H E)

/-- `getPktMaxOffset`. -/
def getPktMaxOffset : ℕ :=
  info.allPossileFinalValueMaps.foldl (fun ret m => if ret < m.offset then m.offset else ret) 0

/-- `getAcceptedPktOffsets`. -/
def getAcceptedPktOffsets : List ℕ := info.acceptStateFinalValueMaps.map ValueMap.offset

/-- The fold keeps what it has, and takes up what it meets. -/
theorem le_foldl_offset (l : List (ValueMap H E)) (n : ℕ) :
    n ≤ l.foldl (fun ret m => if ret < m.offset then m.offset else ret) n ∧
      ∀ m ∈ l, m.offset ≤ l.foldl (fun ret m => if ret < m.offset then m.offset else ret) n := by
  induction l generalizing n with
  | nil => exact ⟨Nat.le_refl _, fun _ hm => absurd hm List.not_mem_nil⟩
  | cons m l ih =>
      rw [List.foldl_cons]
      obtain ⟨hle, hmem⟩ := ih (if n < m.offset then m.offset else n)
      have hn : n ≤ (if n < m.offset then m.offset else n) := by split <;> omega
      have hm : m.offset ≤ (if n < m.offset then m.offset else n) := by split <;> omega
      refine ⟨Nat.le_trans hn hle, fun m' hm' => ?_⟩
      rcases List.mem_cons.mp hm' with rfl | hm'
      · exact Nat.le_trans hm hle
      · exact hmem m' hm'

/-- No final map has a greater offset. -/
theorem offset_le_getPktMaxOffset {m : ValueMap H E} (hm : m ∈ info.allPossileFinalValueMaps) :
    m.offset ≤ info.getPktMaxOffset :=
  (le_foldl_offset info.allPossileFinalValueMaps 0).2 m hm

end ParserInfo

/-! ## What a run collects -/

section Collected

variable [DecidableEq S] [DecidableEq H] {P : ParserDecl S H K I C}
  {N : Scalars H K I C E P.elements}

/-- Without a report a run visits the instances that come from the one of the start state. -/
theorem exists_instances_of_run {fuel : ℕ} {info : ParserInfo S H E} (h : run P N fuel = some info)
    (hmsg : info.messages = []) :
    ∃ initial instances, info = synthesizedParser P N instances ∧
      Worklist.exhaust (fun i => (visit P N i).next) fuel [startInfo P initial] =
        some instances := by
  rw [run] at h
  cases hinit : N.initial with
  | none =>
      rw [hinit] at h
      cases h
      exact absurd hmsg (List.cons_ne_nil _ _)
  | some initial =>
      simp only [hinit, Option.map_eq_some_iff] at h
      obtain ⟨instances, hinst, rfl⟩ := h
      exact ⟨initial, instances, rfl, hinst⟩

/-- An accepted offset is the one before an instance of `accept`. -/
theorem exists_of_mem_acceptedPktOffsets {instances : List (ParserStateInfo S H E)} {n : ℕ}
    (hn : n ∈ (synthesizedParser P N instances).getAcceptedPktOffsets) :
    ∃ i ∈ instances, i.before.offset = n := by
  obtain ⟨m, hm, rfl⟩ := List.mem_map.mp hn
  obtain ⟨i, hi, hfinal⟩ := List.mem_filterMap.mp hm
  refine ⟨i, hi, ?_⟩
  rw [finalValueMap] at hfinal
  cases hs : i.state with
  | accept =>
      rw [hs] at hfinal
      exact congrArg ValueMap.offset (Option.some.inj hfinal)
  | reject => simp [hs] at hfinal
  | state s => simp [hs] at hfinal

/-- A run reports what visiting any of its instances reports. -/
theorem messages_eq_nil {instances : List (ParserStateInfo S H E)}
    (hmsg : (synthesizedParser P N instances).messages = []) {i : ParserStateInfo S H E}
    (hi : i ∈ instances) : (visit P N i).messages = [] :=
  List.flatMap_eq_nil_iff.mp hmsg i hi

/-- Without a report an instance of a state is evaluated: to its end, or up to an exception in
a clone, which leaves no map after it. -/
theorem visit_of_messages {i : ParserStateInfo S H E} {s : S} (hs : i.state = .state s)
    (hmsg : (visit P N i).messages = []) :
    (∃ m, executeStatements P N (P.components s) i.before = .ok m ∧
        visit P N i = ⟨some m, evaluateSelect P i s m, []⟩) ∨
      executeStatements P N (P.components s) i.before = .error .exception ∧
        s ∈ i.predecessors.map Prod.fst ∧ (visit P N i).after = none := by
  have hvisit : visit P N i = evaluateState P N i := by
    rw [visit] at hmsg ⊢
    cases hc : checkLoops P i with
    | none => rfl
    | some msg =>
        rw [hc] at hmsg
        exact absurd hmsg (List.cons_ne_nil _ _)
  rw [hvisit] at hmsg ⊢
  rw [evaluateState, hs] at hmsg ⊢
  simp only at hmsg ⊢
  cases hexec : executeStatements P N (P.components s) i.before with
  | ok m => exact Or.inl ⟨m, rfl, rfl⟩
  | error err =>
      rw [hexec] at hmsg
      cases err with
      | staticError => exact absurd hmsg (List.cons_ne_nil _ _)
      | exception =>
          refine Or.inr ⟨rfl, ?_, rfl⟩
          by_contra hmem
          simp [reportIfError, hmem] at hmsg

end Collected

end Unrolling
end MicroP4
