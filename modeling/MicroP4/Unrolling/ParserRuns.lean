import MicroP4.Unrolling.StateInstances

/-!
# Runs of a parser and their instances

A run of a parser moves over a packet of some length.  What it reads into fields, what it
assigns to variables and which case of a `select` it takes is any relation: the interpreter
creates an instance for every case.  The position in the packet moves by the bits of the
extracted header, and an element `next` or `last` is found by the next index of its stack.

An accepted run has its instances if no exception is dropped on the way.  The interpreter raises
`OverwritingHeader` where a run overwrites the header, and it drops the exception in a clone.
It also takes fields of an enum or of a new type for fields without bits, and an element of a
stack for the first one that was not made valid.
-/

namespace MicroP4
namespace Unrolling

variable {S H K I C E D : Type}

/-! ## Runs -/

/-- What a run goes by besides its position: the length of the packet, the next index of a
stack and the value of an index, what a statement can do to the data, and which case of a
`select` can be taken. -/
structure Machine (S H K I C D : Type) where
  packetLength : ℕ
  nextIndex : D → K → ℕ
  index : D → I → ℕ
  effect : ParserStat H K I C → ℕ → (H → Bool) → D → D → Prop
  select : S → (H → Bool) → D → ℕ → Prop

/-- The state of a run.  `made` are the headers that its statements made valid: by an extraction,
by `setValid`, or by a copy of such a header. -/
structure Store (H D : Type) where
  position : ℕ
  made : H → Bool
  data : D

/-- What a statement of a run does to a header. -/
inductive Event (H K I : Type) where
  | extract (e : HeaderExpr H K I) (h : H) (start stop : ℕ)
  | setValid (e : HeaderExpr H K I) (h : H)
  | assign (left : HeaderExpr H K I) (h : H) (right : Option (HeaderExpr H K I × H))
  | other (lasts nexts : List K)

/-- A statement that is run, with the headers made valid before it. -/
structure Step (H K I : Type) where
  made : H → Bool
  event : Event H K I

/-- A state that is run through. -/
structure Pass (S H K I : Type) where
  state : S
  steps : List (Step H K I)

section Runs

variable [DecidableEq H] (P : ParserDecl S H K I C) (M : Machine S H K I C D)

/-- The header an expression stands for. -/
def resolve (d : D) : HeaderExpr H K I → Option H
  | .header h => some h
  | .next k => (P.elements k)[M.nextIndex d k]?
  | .last k => if M.nextIndex d k = 0 then none else (P.elements k)[M.nextIndex d k - 1]?
  | .index k i => (P.elements k)[M.index d i]?

/-- A statement is run. -/
inductive Exec : ParserStat H K I C → Store H D → Event H K I → Store H D → Prop
  | extract {σ : Store H D} {e : HeaderExpr H K I} {h : H} {w : ℕ} {d : D} :
      resolve P M σ.data e = some h → width (P.fields h) = some w →
      σ.position + w ≤ M.packetLength → M.effect (.extract e) σ.position σ.made σ.data d →
      Exec (.extract e) σ (.extract e h σ.position (σ.position + w))
        ⟨σ.position + w, Function.update σ.made h true, d⟩
  | setValid {σ : Store H D} {e : HeaderExpr H K I} {h : H} {b : Bool} {d : D} :
      resolve P M σ.data e = some h →
      M.effect (.setValid e b) σ.position σ.made σ.data d →
      Exec (.setValid e b) σ (.setValid e h) ⟨σ.position, Function.update σ.made h b, d⟩
  | assign {σ : Store H D} {left right : HeaderExpr H K I} {h h' : H} {d : D} :
      resolve P M σ.data left = some h → resolve P M σ.data right = some h' →
      M.effect (.assign left (some right)) σ.position σ.made σ.data d →
      Exec (.assign left (some right)) σ (.assign left h (some (right, h')))
        ⟨σ.position, Function.update σ.made h (σ.made h'), d⟩
  | assignResult {σ : Store H D} {left : HeaderExpr H K I} {h : H} {d : D} :
      resolve P M σ.data left = some h →
      M.effect (.assign left none) σ.position σ.made σ.data d →
      Exec (.assign left none) σ (.assign left h none)
        ⟨σ.position, Function.update σ.made h false, d⟩
  | other {σ : Store H D} {lasts nexts : List K} {c : C} {d : D} :
      M.effect (.other lasts nexts c) σ.position σ.made σ.data d →
      Exec (.other lasts nexts c) σ (.other lasts nexts) ⟨σ.position, σ.made, d⟩

/-- Statements are run in order. -/
inductive ExecAll : List (ParserStat H K I C) → Store H D → List (Step H K I) → Store H D → Prop
  | nil {σ : Store H D} : ExecAll [] σ [] σ
  | cons {st : ParserStat H K I C} {l : List (ParserStat H K I C)} {σ τ υ : Store H D}
      {ev : Event H K I} {steps : List (Step H K I)} :
      Exec P M st σ ev τ → ExecAll l τ steps υ → ExecAll (st :: l) σ (⟨σ.made, ev⟩ :: steps) υ

/-- From a state on a run accepts the packet, by way of these states. -/
inductive Accepts : S → Store H D → List (Pass S H K I) → Store H D → Prop
  | accept {s : S} {σ τ : Store H D} {steps : List (Step H K I)} {n : ℕ} :
      ExecAll P M (P.components s) σ steps τ → M.select s τ.made τ.data n →
      (P.selectCases s)[n]? = some .accept → Accepts s σ [⟨s, steps⟩] τ
  | next {s t : S} {σ τ υ : Store H D} {steps : List (Step H K I)} {n : ℕ}
      {passes : List (Pass S H K I)} :
      ExecAll P M (P.components s) σ steps τ → M.select s τ.made τ.data n →
      (P.selectCases s)[n]? = some (.state t) → Accepts t τ passes υ →
      Accepts s σ (⟨s, steps⟩ :: passes) υ

variable {P M}

theorem Exec.position_le {st : ParserStat H K I C} {σ τ : Store H D} {ev : Event H K I}
    (hexec : Exec P M st σ ev τ) : σ.position ≤ τ.position := by
  cases hexec with
  | extract _ _ _ _ => exact Nat.le_add_right _ _
  | _ => exact Nat.le_refl _

theorem ExecAll.position_le {l : List (ParserStat H K I C)} {σ τ : Store H D}
    {steps : List (Step H K I)} (hexec : ExecAll P M l σ steps τ) : σ.position ≤ τ.position := by
  induction hexec with
  | nil => exact Nat.le_refl _
  | cons hst _ ih => exact Nat.le_trans hst.position_le ih

theorem Accepts.position_le {s : S} {σ τ : Store H D} {passes : List (Pass S H K I)}
    (hacc : Accepts P M s σ passes τ) : σ.position ≤ τ.position := by
  induction hacc with
  | accept hexec _ _ => exact hexec.position_le
  | next hexec _ _ _ ih => exact Nat.le_trans hexec.position_le ih

end Runs

/-! ## Coordinates -/

/-- Where a statement extracts a header. -/
def Event.coordinates [DecidableEq H] : Event H K I → H → Option (ℕ × ℕ)
  | .extract _ h start stop, h' => if h = h' then some (start, stop) else none
  | _, _ => none

/-- Where a header is extracted last. -/
def lastExtract [DecidableEq H] (h : H) : List (Step H K I) → Option (ℕ × ℕ)
  | [] => none
  | x :: steps => (lastExtract h steps).or (x.event.coordinates h)

/-- Instances follow the states of a run, and the map after each of them has the coordinates of
the headers extracted there. -/
inductive Follows [DecidableEq H] (info : ParserInfo S H E) :
    ParserStateInfo S H E → List (Pass S H K I) → Prop
  | accept {i j : ParserStateInfo S H E} {v w : Visit S H E} {r : Pass S H K I}
      {m : ValueMap H E} :
      (i, v) ∈ info.states → i.state = .state r.state → v.after = some m →
      (∀ h c, lastExtract h r.steps = some c → (m.header h).coordinates = some c) →
      j ∈ v.next → (j, w) ∈ info.states → j.state = .accept → Follows info i [r]
  | next {i j : ParserStateInfo S H E} {v : Visit S H E} {r : Pass S H K I}
      {rs : List (Pass S H K I)} {m : ValueMap H E} :
      (i, v) ∈ info.states → i.state = .state r.state → v.after = some m →
      (∀ h c, lastExtract h r.steps = some c → (m.header h).coordinates = some c) →
      j ∈ v.next → Follows info j rs → Follows info i (r :: rs)

/-- The analysis covers a run that accepts after some number of bits. -/
structure Covers [DecidableEq H] (info : ParserInfo S H E) (passes : List (Pass S H K I))
    (consumed : ℕ) : Prop where
  mem_acceptedPktOffsets : consumed ∈ info.getAcceptedPktOffsets
  le_pktMaxOffset : consumed ≤ info.getPktMaxOffset
  follows : ∃ i, i.predecessors = [] ∧ Follows info i passes

/-! ## Runs without dropped exceptions -/

section Plain

variable (P : ParserDecl S H K I C)

/-- The interpreter takes an expression for this header, when it knows which ones were made
valid. -/
def Denotes (made : H → Bool) (h : H) : HeaderExpr H K I → Prop
  | .header h' => h' = h
  | .next k => (P.elements k).find? (fun x => made x = false) = some h
  | .last k => (P.elements k).reverse.find? (fun x => made x = true) = some h
  | .index _ _ => False

/-- A step that the interpreter follows: it knows the header and its width, and if the state was
run through before, the header was not made valid and no stack of which an element is named is
full or empty. -/
def Plain (again : Prop) (made : H → Bool) : Event H K I → Prop
  | .extract e h _ _ =>
      Denotes P made h e ∧ width (P.fields h) = some (getWidth (P.fields h)) ∧
        (again → made h = false)
  | .setValid e h => Denotes P made h e
  | .assign left h none => Denotes P made h left
  | .assign left h (some (right, h')) => Denotes P made h left ∧ Denotes P made h' right
  | .other lasts nexts =>
      again → (∀ k ∈ lasts, ∃ h ∈ P.elements k, made h = true) ∧
        ∀ k ∈ nexts, ∃ h ∈ P.elements k, made h = false

/-- All steps of a run are plain, when it has come through some states before. -/
def PlainFrom : List S → List (Pass S H K I) → Prop
  | _, [] => True
  | earlier, r :: rs =>
      (∀ x ∈ r.steps, Plain P (r.state ∈ earlier) x.made x.event) ∧
        PlainFrom (r.state :: earlier) rs

end Plain

/-! ## Statements -/

section Statements

variable [DecidableEq H] {P : ParserDecl S H K I C} {N : Scalars H K I C E P.elements}
  {M : Machine S H K I C D}

/-- The interpreter knows the position and which headers were made valid. -/
structure Agrees (m : ValueMap H E) (σ : Store H D) : Prop where
  offset : m.offset = σ.position
  valid : ∀ h, m.valid h = .constant (σ.made h)

omit [DecidableEq H] in
theorem scan_eq {v : H → SymbolicBool} {made : H → Bool} (hv : ∀ h, v h = .constant (made h))
    (k : K) (b : Bool) (l : List H) :
    scan v k b l = ((l.find? fun x => made x = b).elim (.error .exception) fun h =>
      .ok (.header h)) := by
  induction l with
  | nil => rfl
  | cons x l ih =>
      rw [scan, hv]
      by_cases hx : made x = b
      · rw [List.find?_cons_of_pos (by simpa using hx)]
        simp only [hx, if_true]
        rfl
      · rw [List.find?_cons_of_neg (by simpa using hx)]
        simp only [hx, if_false]
        exact ih

omit [DecidableEq H] in
theorem evaluate_of_denotes {m : ValueMap H E} {σ : Store H D} (hm : Agrees m σ) {h : H}
    {e : HeaderExpr H K I} (he : Denotes P σ.made h e) (leftValue : Bool) :
    evaluate P N leftValue m e = .ok (.header h) := by
  cases e with
  | header h' => exact congrArg _ (congrArg _ he)
  | next k =>
      have hfind : (P.elements k).find? (fun x => σ.made x = false) = some h := he
      rw [evaluate, scan_eq hm.valid, hfind]
      rfl
  | last k =>
      have hfind : (P.elements k).reverse.find? (fun x => σ.made x = true) = some h := he
      rw [evaluate, scan_eq hm.valid, hfind]
      rfl
  | index k i => exact he.elim

omit [DecidableEq H] in
/-- The elements of a stack have its type. -/
theorem typeOf_of_denotes {made : H → Bool} {h : H} {e : HeaderExpr H K I}
    (he : Denotes P made h e) : P.typeOf e = P.fields h := by
  cases e with
  | header h' => exact congrArg P.fields he
  | next k => exact (P.fields_of_mem_elements k h (List.mem_of_find?_eq_some he)).symm
  | last k =>
      have hmem : h ∈ (P.elements k).reverse := List.mem_of_find?_eq_some he
      exact (P.fields_of_mem_elements k h (List.mem_reverse.mp hmem)).symm
  | index k i => exact he.elim

variable (P N) in
/-- The map after the validity of one header is set. -/
def withValidity (m : ValueMap H E) (st : ParserStat H K I C) (b : SymbolicBool) (h : H) :
    ValueMap H E :=
  { m with
    header := setValidity P m b (.header h : HeaderValue H K)
    scalars := N.effect st m.valid m.scalars }

theorem agrees_withValidity {m : ValueMap H E} {σ : Store H D} (hm : Agrees m σ)
    (st : ParserStat H K I C) (h : H) (b : Bool) (d : D) :
    Agrees (withValidity P N m st (.constant b) h)
      ⟨σ.position, Function.update σ.made h b, d⟩ := by
  refine ⟨hm.offset, fun x => ?_⟩
  show (Function.update m.header h _ x).valid = .constant (Function.update σ.made h b x)
  by_cases hx : x = h
  · subst hx
    rw [Function.update_self, Function.update_self]
  · rw [Function.update_of_ne hx, Function.update_of_ne hx]
    exact hm.valid x

theorem coordinates_withValidity (m : ValueMap H E) (st : ParserStat H K I C) (h : H)
    (b : SymbolicBool) (x : H) :
    ((withValidity P N m st b h).header x).coordinates = (m.header x).coordinates := by
  show (Function.update m.header h _ x).coordinates = _
  by_cases hx : x = h
  · subst hx
    rw [Function.update_self]
  · rw [Function.update_of_ne hx]

/-- The header of an extraction gets its coordinates, and is valid. -/
theorem extract_of_denotes {m : ValueMap H E} {σ : Store H D} (hm : Agrees m σ) {h : H}
    {e : HeaderExpr H K I} (he : Denotes P σ.made h e)
    (hwidth : width (P.fields h) = some (getWidth (P.fields h)))
    (hlt : σ.position + getWidth (P.fields h) < 2 ^ 32) (d : D) :
    (∃ m', extract P N m e = .ok m' ∧
      Agrees m' ⟨σ.position + getWidth (P.fields h), Function.update σ.made h true, d⟩ ∧
      ∀ x, (m'.header x).coordinates =
        (if h = x then some (σ.position, σ.position + getWidth (P.fields h)) else none).or
          (m.header x).coordinates) ∨
      extract P N m e = .error .staticError ∨
      extract P N m e = .error .exception ∧ σ.made h = true := by
  have hstop : unsigned (m.offset + getWidth (P.fields h)) =
      σ.position + getWidth (P.fields h) := by
    rw [hm.offset, unsigned, Nat.mod_eq_of_lt hlt]
  rw [extract, evaluate_of_denotes hm he, typeOf_of_denotes he]
  simp only
  by_cases hfixed : isFixedWidth (P.fields h) = true
  swap
  · rw [if_pos (by simpa using hfixed)]
    exact Or.inr (Or.inl rfl)
  rw [if_neg (by simpa using hfixed), hstop]
  by_cases hmade : σ.made h = true
  · rw [if_pos (by rw [← hmade]; exact hm.valid h)]
    exact Or.inr (Or.inr ⟨rfl, hmade⟩)
  rw [if_neg]
  swap
  · intro hvalid
    have hconst : SymbolicBool.constant (σ.made h) = .constant true :=
      (hm.valid h).symm.trans hvalid
    exact hmade (SymbolicBool.constant.inj hconst)
  refine Or.inl ⟨_, rfl, ⟨rfl, fun x => ?_⟩, fun x => ?_⟩
  · show (Function.update (setValidity P m (.constant true) (.header h : HeaderValue H K)) h
      _ x).valid = .constant (Function.update σ.made h true x)
    have hset := (agrees_withValidity (P := P) (N := N) hm (.extract e) h true d).valid x
    by_cases hx : x = h
    · subst hx
      rw [Function.update_self]
      exact hset
    · rw [Function.update_of_ne hx]
      exact hset
  · show (Function.update (setValidity P m (.constant true) (.header h : HeaderValue H K)) h
      _ x).coordinates = _
    by_cases hx : h = x
    · subst hx
      rw [Function.update_self, if_pos rfl, hm.offset]
      rfl
    · rw [Function.update_of_ne (Ne.symm hx), if_neg hx, Option.none_or]
      exact coordinates_withValidity (N := N) m (.extract e) h _ x

/-- A plain step is followed, or it is reported.  An exception in it is not reported in a clone
only, and then the step is not plain. -/
theorem executeStatement_of_plain {m : ValueMap H E} {σ τ : Store H D} (hm : Agrees m σ)
    {st : ParserStat H K I C} {ev : Event H K I} (hexec : Exec P M st σ ev τ)
    (hlt : τ.position < 2 ^ 32) {again : Prop} (hplain : Plain P again σ.made ev) :
    (∃ m', executeStatement P N m st = .ok m' ∧ Agrees m' τ ∧
      ∀ x, (m'.header x).coordinates = (ev.coordinates x).or (m.header x).coordinates) ∨
      executeStatement P N m st = .error .staticError ∨
      executeStatement P N m st = .error .exception ∧ ¬ again := by
  cases hexec with
  | @extract _ e h w d _ hw hle _ =>
      obtain ⟨hden, hwidth, hfresh⟩ := hplain
      obtain rfl : w = getWidth (P.fields h) := Option.some.inj (hw.symm.trans hwidth)
      rcases extract_of_denotes (N := N) hm hden hwidth hlt d with
        ⟨m', hm', hagrees, hcoord⟩ | herr | ⟨herr, hmade⟩
      · exact Or.inl ⟨m', hm', hagrees, hcoord⟩
      · exact Or.inr (Or.inl herr)
      · refine Or.inr (Or.inr ⟨herr, fun hagain => ?_⟩)
        rw [hfresh hagain] at hmade
        exact Bool.false_ne_true hmade
  | @setValid _ e h b d _ _ =>
      have hden : Denotes P σ.made h e := hplain
      have heq : executeStatement P N m (.setValid e b) =
          .ok (withValidity P N m (.setValid e b) (.constant b) h) := by
        rw [executeStatement, evaluate_of_denotes hm hden]
        rfl
      exact Or.inl ⟨_, heq, agrees_withValidity hm _ h b d, coordinates_withValidity m _ h _⟩
  | @assign _ left right h h' d _ _ _ =>
      obtain ⟨hleft, hright⟩ := hplain
      have heq : executeStatement P N m (.assign left (some right)) =
          .ok (withValidity P N m (.assign left (some right)) (.constant (σ.made h')) h) := by
        rw [executeStatement, evaluate_of_denotes hm hleft, evaluateRight,
          evaluate_of_denotes hm hright, ← hm.valid h']
        rfl
      exact Or.inl ⟨_, heq, agrees_withValidity hm _ h _ d, coordinates_withValidity m _ h _⟩
  | @assignResult _ left h d _ _ =>
      have hden : Denotes P σ.made h left := hplain
      have heq : executeStatement P N m (.assign left none) =
          .ok (withValidity P N m (.assign left none) (.constant false) h) := by
        rw [executeStatement, evaluate_of_denotes hm hden]
        rfl
      exact Or.inl ⟨_, heq, agrees_withValidity hm _ h false d, coordinates_withValidity m _ h _⟩
  | @other _ lasts nexts c d _ =>
      rw [executeStatement]
      cases hcheck : N.check lasts nexts c m.valid m.scalars with
      | none => exact Or.inl ⟨_, rfl, ⟨hm.offset, hm.valid⟩, fun x => (Option.none_or).symm⟩
      | some err =>
          cases err with
          | staticError => exact Or.inr (Or.inl rfl)
          | exception =>
              refine Or.inr (Or.inr ⟨rfl, fun hagain => ?_⟩)
              obtain ⟨hlasts, hnexts⟩ := hplain hagain
              -- a stack without a valid element for `last`, or without an invalid one for `next`
              rcases N.exception_of_check hcheck with ⟨k, hk, hall⟩ | ⟨k, hk, hall⟩
              · obtain ⟨h, hh, hmade⟩ := hlasts k hk
                have hconst := (hm.valid h).symm.trans (hall h hh)
                rw [hmade] at hconst
                exact absurd hconst (by decide)
              · obtain ⟨h, hh, hmade⟩ := hnexts k hk
                have hconst := (hm.valid h).symm.trans (hall h hh)
                rw [hmade] at hconst
                exact absurd hconst (by decide)

/-- All statements of a state: the map has the coordinates of the last extractions. -/
theorem executeStatements_of_plain {l : List (ParserStat H K I C)} {m : ValueMap H E}
    {σ τ : Store H D} (hm : Agrees m σ) {steps : List (Step H K I)}
    (hexec : ExecAll P M l σ steps τ) (hlt : τ.position < 2 ^ 32) {again : Prop}
    (hplain : ∀ x ∈ steps, Plain P again x.made x.event) :
    (∃ m', executeStatements P N l m = .ok m' ∧ Agrees m' τ ∧
      ∀ x, (m'.header x).coordinates = (lastExtract x steps).or (m.header x).coordinates) ∨
      executeStatements P N l m = .error .staticError ∨
      executeStatements P N l m = .error .exception ∧ ¬ again := by
  induction hexec generalizing m with
  | nil => exact Or.inl ⟨m, rfl, hm, fun x => (Option.none_or).symm⟩
  | @cons st l σ τ υ ev steps hst htail ih =>
      have hfirst : Plain P again σ.made ev := hplain _ List.mem_cons_self
      have hτ : τ.position < 2 ^ 32 := Nat.lt_of_le_of_lt htail.position_le hlt
      rw [executeStatements]
      rcases executeStatement_of_plain (N := N) hm hst hτ hfirst with
        ⟨m', hm', hagrees, hcoord⟩ | herr | ⟨herr, hagain⟩
      · rw [hm']
        rcases ih hagrees hlt fun x hx => hplain x (List.mem_cons_of_mem _ hx) with
          ⟨m'', hm'', hagrees', hcoord'⟩ | herr
        · refine Or.inl ⟨m'', hm'', hagrees', fun x => ?_⟩
          rw [hcoord', hcoord, lastExtract, Option.or_assoc]
        · exact Or.inr herr
      · rw [herr]
        exact Or.inr (Or.inl rfl)
      · rw [herr]
        exact Or.inr (Or.inr ⟨rfl, hagain⟩)

end Statements

/-! ## Instances of a run -/

section Instances

variable [DecidableEq S] [DecidableEq H] {P : ParserDecl S H K I C}
  {N : Scalars H K I C E P.elements} {M : Machine S H K I C D}

/-- An instance of a state whose steps are all plain is evaluated to its end. -/
theorem exists_after_of_plain {i : ParserStateInfo S H E} {s : S} (hs : i.state = .state s)
    (hmsg : (visit P N i).messages = []) {σ τ : Store H D} (hagrees : Agrees i.before σ)
    {steps : List (Step H K I)} (hexec : ExecAll P M (P.components s) σ steps τ)
    (hlt : τ.position < 2 ^ 32)
    (hplain : ∀ x ∈ steps, Plain P (s ∈ i.predecessors.map Prod.fst) x.made x.event) :
    ∃ m, visit P N i = ⟨some m, evaluateSelect P i s m, []⟩ ∧ Agrees m τ ∧
      ∀ h c, lastExtract h steps = some c → (m.header h).coordinates = some c := by
  rcases visit_of_messages hs hmsg with ⟨m, hm, hvisit⟩ | ⟨herr, hclone, -⟩
  · rcases executeStatements_of_plain (N := N) hagrees hexec hlt hplain with
      ⟨m', hm', hagrees', hcoord⟩ | herr | ⟨herr, -⟩
    · obtain rfl : m = m' := Except.ok.inj (hm.symm.trans hm')
      refine ⟨m, hvisit, hagrees', fun h c hc => ?_⟩
      rw [hcoord, hc, Option.some_or]
    · exact absurd (hm.symm.trans herr) (by simp)
    · exact absurd (hm.symm.trans herr) (by simp)
  · rcases executeStatements_of_plain (N := N) hagrees hexec hlt hplain with
      ⟨m', hm', -⟩ | herr' | ⟨-, hagain⟩
    · exact absurd (herr.symm.trans hm') (by simp)
    · exact absurd (herr.symm.trans herr') (by simp)
    · exact absurd hclone hagain

/-- From any instance on, a plain run has its instances, and its end is a final map. -/
theorem follows_of_plain {instances : List (ParserStateInfo S H E)}
    (hmsg : (synthesizedParser P N instances).messages = [])
    (hnext : ∀ i ∈ instances, ∀ j ∈ (visit P N i).next, j ∈ instances)
    {s : S} {σ τ : Store H D} {passes : List (Pass S H K I)} (hacc : Accepts P M s σ passes τ)
    (hlt : τ.position < 2 ^ 32) :
    ∀ {i : ParserStateInfo S H E}, i ∈ instances → i.state = .state s → Agrees i.before σ →
      PlainFrom P (i.predecessors.map Prod.fst) passes →
      Follows (synthesizedParser P N instances) i passes ∧
        ∃ j ∈ instances, j.state = .accept ∧ j.before.offset = τ.position := by
  have hstates : ∀ i ∈ instances, (i, visit P N i) ∈ (synthesizedParser P N instances).states :=
    fun i hi => List.mem_map.mpr ⟨i, hi, rfl⟩
  induction hacc with
  | @accept s σ τ steps n hexec hsel ht =>
      intro i hi hs hagrees hplain
      obtain ⟨m, hvisit, hm, hcoord⟩ :=
        exists_after_of_plain hs (messages_eq_nil hmsg hi) hagrees hexec hlt hplain.1
      have hj : (⟨.accept, (s, i.before) :: i.predecessors, m⟩ : ParserStateInfo S H E) ∈
          (visit P N i).next := by
        rw [hvisit]
        exact List.mem_map.mpr ⟨_, List.mem_of_getElem? ht, rfl⟩
      have hj' := hnext i hi _ hj
      exact ⟨.accept (hstates i hi) hs (by rw [hvisit]) hcoord hj (hstates _ hj') rfl,
        _, hj', rfl, hm.offset⟩
  | @next s t σ τ υ steps n passes hexec hsel ht hrest ih =>
      intro i hi hs hagrees hplain
      have hτ : τ.position < 2 ^ 32 := Nat.lt_of_le_of_lt hrest.position_le hlt
      obtain ⟨m, hvisit, hm, hcoord⟩ :=
        exists_after_of_plain hs (messages_eq_nil hmsg hi) hagrees hexec hτ hplain.1
      have hj : (⟨.state t, (s, i.before) :: i.predecessors, m⟩ : ParserStateInfo S H E) ∈
          (visit P N i).next := by
        rw [hvisit]
        exact List.mem_map.mpr ⟨_, List.mem_of_getElem? ht, rfl⟩
      obtain ⟨hfollows, hend⟩ := ih hlt (hnext i hi _ hj) rfl hm hplain.2
      exact ⟨.next (hstates i hi) hs (by rw [hvisit]) hcoord hj hfollows, hend⟩

/-- The analysis covers every run whose steps are plain and whose bits an `unsigned` can count. -/
theorem covers_of_plain {fuel : ℕ} {info : ParserInfo S H E} (hrun : run P N fuel = some info)
    (hmsg : info.messages = []) {d : D} {τ : Store H D} {passes : List (Pass S H K I)}
    (hacc : Accepts P M P.start ⟨0, fun _ => false, d⟩ passes τ) (hlt : τ.position < 2 ^ 32)
    (hplain : PlainFrom P [] passes) :
    Covers info passes τ.position := by
  obtain ⟨initial, instances, rfl, hinst⟩ := exists_instances_of_run hrun hmsg
  obtain ⟨htodo, hnext⟩ := Worklist.closed_of_exhaust hinst
  have hstart := htodo _ List.mem_cons_self
  have hagrees : Agrees (startInfo P initial).before ⟨0, fun _ => false, d⟩ :=
    ⟨rfl, fun _ => rfl⟩
  obtain ⟨hfollows, j, hj, haccept, hoffset⟩ :=
    follows_of_plain hmsg hnext hacc hlt hstart rfl hagrees hplain
  have hfinal : ∀ accepted, finalValueMap accepted j = some j.before := by
    intro accepted
    rw [finalValueMap, haccept]
  refine ⟨?_, ?_, startInfo P initial, rfl, hfollows⟩
  · rw [← hoffset]
    exact List.mem_map.mpr ⟨j.before, List.mem_filterMap.mpr ⟨j, hj, hfinal true⟩, rfl⟩
  · rw [← hoffset]
    exact ParserInfo.offset_le_getPktMaxOffset _ (List.mem_filterMap.mpr ⟨j, hj, hfinal false⟩)

end Instances

/-! ## A stack of labels -/

/-- The analysis covers every run of a parser. -/
def CoversRuns [DecidableEq S] [DecidableEq H] (P : ParserDecl S H K I C)
    (N : Scalars H K I C E P.elements) : Prop :=
  ∀ (fuel : ℕ) (info : ParserInfo S H E), run P N fuel = some info → info.messages = [] →
    ∀ (D : Type) (M : Machine S H K I C D) (d : D) (passes : List (Pass S H K I)) (τ : Store H D),
      Accepts P M P.start ⟨0, fun _ => false, d⟩ passes τ → Covers info passes τ.position

/-- `extract(hdr.mpls); transition select(hdr.mpls.bos) { 0: parse_mpls; 1: accept; }`. -/
def mplsParser : ParserDecl Unit Unit Empty Empty Empty where
  headers := [()]
  elements := nofun
  fields := fun _ => [.bits 20, .bits 3, .bits 1, .bits 8]
  elementFields := nofun
  fields_of_mem_elements := nofun
  start := ()
  components := fun _ => [.extract (.header ())]
  selectCases := fun _ => [.state (), .accept]

/-- The parser has no variables. -/
def mplsScalars : Scalars Unit Empty Empty Empty Unit mplsParser.elements where
  initial := some ()
  index := nofun
  collapse := nofun
  effect := fun _ _ m => m
  check := fun _ _ c => nomatch c
  exception_of_check := fun {_ _ c} => nomatch c

/-- Runs on a packet; the data is the bit `bos` of the label that was read. -/
def mplsMachine (pkt : List Bool) : Machine Unit Unit Empty Empty Empty Bool where
  packetLength := pkt.length
  nextIndex := fun _ => nofun
  index := fun _ => nofun
  effect := fun _ position _ _ bos => pkt[position + 23]? = some bos
  select := fun _ _ bos n => n = if bos then 1 else 0

/-- A label. -/
def mplsLabel (bos : Bool) : List Bool := List.replicate 23 false ++ bos :: List.replicate 8 false

theorem accepts_mplsLabel : Accepts mplsParser (mplsMachine (mplsLabel true)) ()
    ⟨0, fun _ => false, false⟩
    [⟨(), [⟨fun _ => false, .extract (.header ()) () 0 32⟩]⟩]
    ⟨32, Function.update (fun _ => false) () true, true⟩ := by
  refine .accept (n := 1) (.cons ?_ .nil) rfl rfl
  exact .extract (w := 32) rfl rfl (by decide) (by show (mplsLabel true)[23]? = _; decide)

/-- On a packet with one label the only step is plain. -/
theorem covers_mplsLabel : ∃ info, run mplsParser mplsScalars 3 = some info ∧
    Covers info [⟨(), [⟨fun _ => false,
      (.extract (.header ()) () 0 32 : Event Unit Empty Empty)⟩]⟩] 32 := by
  have hrun : run mplsParser mplsScalars 3 = some _ := rfl
  refine ⟨_, hrun, covers_of_plain hrun rfl accepts_mplsLabel (by decide)
    ⟨fun x hx => ?_, trivial⟩⟩
  obtain rfl := List.mem_singleton.mp hx
  exact ⟨rfl, rfl, fun _ => rfl⟩

/-- On a packet with two labels the second one overwrites the header in a clone. -/
theorem not_coversRuns_mplsParser : ¬ CoversRuns mplsParser mplsScalars := by
  intro hcovers
  have haccepts : Accepts mplsParser (mplsMachine (mplsLabel false ++ mplsLabel true)) ()
      ⟨0, fun _ => false, false⟩
      [⟨(), [⟨fun _ => false, .extract (.header ()) () 0 32⟩]⟩,
        ⟨(), [⟨Function.update (fun _ => false) () true, .extract (.header ()) () 32 64⟩]⟩]
      ⟨64, Function.update (Function.update (fun _ => false) () true) () true, true⟩ := by
    refine .next (n := 0) (t := ()) (τ := ⟨32, Function.update (fun _ => false) () true, false⟩)
      (.cons ?_ .nil) rfl rfl (.accept (n := 1) (.cons ?_ .nil) rfl rfl)
    · exact .extract (w := 32) rfl rfl (by decide)
        (by show (mplsLabel false ++ mplsLabel true)[23]? = _; decide)
    · exact .extract (w := 32) rfl rfl (by decide)
        (by show (mplsLabel false ++ mplsLabel true)[55]? = _; decide)
  have hmem : 64 ∈ [32] := (hcovers 3 _ rfl rfl _ _ _ _ _ haccepts).mem_acceptedPktOffsets
  exact absurd hmem (by decide)

end Unrolling
end MicroP4
