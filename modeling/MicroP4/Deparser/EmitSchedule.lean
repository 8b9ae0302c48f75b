import Mathlib.Data.List.Basic

/-!
# The order of the emit calls of a deparser

`CreateEmitSchedule` walks over the body of a deparser and records in a call graph which
emit calls can be the one executed directly before another, its callers.  It keeps a stack
of frontiers.  A frontier holds the emit calls that can have been the last; every emit call
pushes itself, and a conditional takes the stack back to its height after each branch and
pushes the frontiers of its branches joined.  They are joined as lists, so a conditional
without an emit call in it leaves the call before it twice.

When the deparser is entered at other offsets than `0` alone, the bottom of the stack is a
dummy call that stands for the table of the initial offsets.
-/

namespace MicroP4
namespace Deparser

mutual

/-- A statement of the body of a deparser.  What is neither an emit call nor a conditional
is `skip`, as is a branch or a case that is left out. -/
inductive Stmt (H : Type) where
  | skip
  | emit (h : H)
  | seq (s t : Stmt H)
  | ite (ifTrue ifFalse : Stmt H)
  | switch (cases : Cases H)

/-- The cases of a `switch`.  There is one at least: `SimplifyControlFlow` puts the table
application in the place of a `switch` without cases. -/
inductive Cases (H : Type) where
  | last (statement : Stmt H)
  | cons (statement : Stmt H) (rest : Cases H)

end

variable {H : Type}

/-- The straight-line body of some emit calls. -/
def Stmt.ofEmits : List H → Stmt H
  | [] => .skip
  | h :: hs => .seq (.emit h) (Stmt.ofEmits hs)

/-- An emit call and its callers.  The emit calls are numbered from `1` as they are visited,
and the dummy call is `0`. -/
structure EmitCall (H : Type) where
  hdr : H
  callers : List ℕ
  deriving DecidableEq, Repr

/-- The state of `CreateEmitSchedule`, `frontierStack.back()` first. -/
structure EmitSchedule (H : Type) where
  frontierStack : List (List ℕ)
  calls : List (EmitCall H)

/-- Visiting an emit call. -/
def EmitSchedule.visitEmit (h : H) (S : EmitSchedule H) : EmitSchedule H :=
  let orig := S.calls.length + 1
  let frontierStack := if S.frontierStack.isEmpty then [[]] else S.frontierStack
  let frontier := frontierStack.headD []
  { frontierStack := [orig] :: frontierStack
    calls := S.calls ++ [⟨h, frontier⟩] }

/-- The frontiers above the height `size` are popped. -/
def EmitSchedule.popTo (size : ℕ) (S : EmitSchedule H) : EmitSchedule H :=
  { S with frontierStack := S.frontierStack.drop (S.frontierStack.length - size) }

/-- A frontier is pushed. -/
def EmitSchedule.push (frontier : List ℕ) (S : EmitSchedule H) : EmitSchedule H :=
  { S with frontierStack := frontier :: S.frontierStack }

mutual

/-- Visiting a statement.  The behaviour of `back()` on the empty stack is not defined, and
the result is `none`. -/
def Stmt.schedule : Stmt H → EmitSchedule H → Option (EmitSchedule H)
  | .skip, S => some S
  | .emit h, S => some (S.visitEmit h)
  | .seq s t, S => do
      let S₁ ← s.schedule S
      t.schedule S₁
  | .ite ifTrue ifFalse, S => do
      let size := S.frontierStack.length
      let S₁ ← ifTrue.schedule S
      let trueFront ← S₁.frontierStack.head?
      let S₂ ← ifFalse.schedule (S₁.popTo size)
      let falseFront ← S₂.frontierStack.head?
      return (S₂.popTo size).push (trueFront ++ falseFront)
  | .switch cases, S => cases.schedule S.frontierStack.length [] S

/-- Visiting the cases of a `switch`. -/
def Cases.schedule : Cases H → (size : ℕ) → (pushBackStack : List ℕ) → EmitSchedule H →
    Option (EmitSchedule H)
  | .last s, size, pushBackStack, S => do
      let S₁ ← s.schedule S
      let caseFront ← S₁.frontierStack.head?
      return (S₁.popTo size).push (pushBackStack ++ caseFront)
  | .cons s rest, size, pushBackStack, S => do
      let S₁ ← s.schedule S
      let caseFront ← S₁.frontierStack.head?
      rest.schedule size (pushBackStack ++ caseFront) (S₁.popTo size)

end

/-- `CreateEmitSchedule` on the body of a deparser. -/
def Stmt.emitCalls (body : Stmt H) (addDummyInit : Bool) : Option (List (EmitCall H)) :=
  (body.schedule ⟨if addDummyInit then [[0]] else [], []⟩).map EmitSchedule.calls

/-! ## Callers -/

/-- A frontier is not empty when there is a dummy call, and else it is empty as long as
there was no emit call. -/
def GoodFrontier (addDummyInit : Bool) (calls : List (EmitCall H)) (frontier : List ℕ) : Prop :=
  if addDummyInit then frontier ≠ [] else calls = [] → frontier = []

/-- Every emit call has a caller when there is a dummy call, and else the first has none. -/
def GoodCallers (addDummyInit : Bool) (calls : List (EmitCall H)) : Prop :=
  if addDummyInit then ∀ e ∈ calls, e.callers ≠ [] else ∀ e ∈ calls.head?, e.callers = []

/-- What `CreateEmitSchedule` keeps. -/
structure EmitSchedule.Inv (addDummyInit : Bool) (S : EmitSchedule H) : Prop where
  frontier : ∀ f ∈ S.frontierStack, GoodFrontier addDummyInit S.calls f
  callers : GoodCallers addDummyInit S.calls
  stack_ne_nil : addDummyInit = true → S.frontierStack ≠ []

/-- A visit pushes frontiers and adds emit calls. -/
def EmitSchedule.Extends (S' S : EmitSchedule H) : Prop :=
  S.frontierStack <:+ S'.frontierStack ∧ S.calls <+: S'.calls

theorem GoodFrontier.mono {b : Bool} {calls calls' : List (EmitCall H)} {f : List ℕ}
    (hf : GoodFrontier b calls f) (hcalls : calls <+: calls') : GoodFrontier b calls' f := by
  cases b with
  | true => exact hf
  | false =>
      intro hnil
      rw [hnil] at hcalls
      exact hf (List.prefix_nil.mp hcalls)

/-- A frontier is good when its last part is and the part in front is empty as long as there
was no emit call. -/
theorem GoodFrontier.append {b : Bool} {calls : List (EmitCall H)} {f g : List ℕ}
    (hf : b = false → GoodFrontier b calls f) (hg : GoodFrontier b calls g) :
    GoodFrontier b calls (f ++ g) := by
  cases b with
  | true => exact List.append_ne_nil_of_right_ne_nil f hg
  | false =>
      intro hnil
      rw [hf rfl hnil, hg hnil, List.append_nil]

@[simp] theorem EmitSchedule.frontierStack_push (f : List ℕ) (S : EmitSchedule H) :
    (S.push f).frontierStack = f :: S.frontierStack := rfl

/-- Popping to the height before a visit restores the stack from before it. -/
theorem EmitSchedule.Extends.frontierStack_popTo {S' S : EmitSchedule H} (h : S'.Extends S) :
    (S'.popTo S.frontierStack.length).frontierStack = S.frontierStack := by
  obtain ⟨⟨new, hnew⟩, -⟩ := h
  simp [popTo, ← hnew]

theorem EmitSchedule.Extends.refl (S : EmitSchedule H) : S.Extends S :=
  ⟨List.suffix_refl _, List.prefix_refl _⟩

theorem EmitSchedule.Extends.trans {S₁ S₂ S₃ : EmitSchedule H} (h : S₂.Extends S₁)
    (h' : S₃.Extends S₂) : S₃.Extends S₁ :=
  ⟨h.1.trans h'.1, h.2.trans h'.2⟩

/-- The state with the stack from before a visit. -/
theorem EmitSchedule.Inv.popTo {b : Bool} {S S' : EmitSchedule H} (hS : S.Inv b)
    (hS' : S'.Inv b) (h : S'.Extends S) : (S'.popTo S.frontierStack.length).Inv b := by
  have hstack := h.frontierStack_popTo
  refine ⟨?_, hS'.callers, ?_⟩
  · rw [hstack]
    exact fun f hf => (hS.frontier f hf).mono h.2
  · rw [hstack]
    exact hS.stack_ne_nil

theorem EmitSchedule.Inv.push {b : Bool} {S : EmitSchedule H} {f : List ℕ} (hS : S.Inv b)
    (hf : GoodFrontier b S.calls f) : (S.push f).Inv b := by
  refine ⟨?_, hS.callers, fun _ => List.cons_ne_nil _ _⟩
  intro g hg
  rcases List.mem_cons.mp hg with rfl | hg
  · exact hf
  · exact hS.frontier g hg

/-- After popping to an earlier height, pushing a frontier is again an extension. -/
theorem EmitSchedule.Extends.push_popTo {S S' : EmitSchedule H} (h : S'.Extends S)
    (f : List ℕ) : ((S'.popTo S.frontierStack.length).push f).Extends S := by
  refine ⟨?_, h.2⟩
  rw [frontierStack_push, h.frontierStack_popTo]
  exact List.suffix_cons f _

theorem EmitSchedule.Extends.popTo {S S' : EmitSchedule H} (h : S'.Extends S) :
    (S'.popTo S.frontierStack.length).Extends S := by
  refine ⟨⟨[], ?_⟩, h.2⟩
  rw [List.nil_append, h.frontierStack_popTo]

theorem EmitSchedule.extends_visitEmit (h : H) (S : EmitSchedule H) :
    (S.visitEmit h).Extends S := by
  refine ⟨?_, List.prefix_append _ _⟩
  simp only [visitEmit]
  split
  · rename_i hempty
    rw [List.isEmpty_iff.mp hempty]
    exact List.nil_suffix
  · exact List.suffix_cons _ _

theorem EmitSchedule.Inv.visitEmit {b : Bool} {S : EmitSchedule H} (hS : S.Inv b) (h : H) :
    (S.visitEmit h).Inv b := by
  cases b with
  | true =>
      obtain ⟨f, fs, hstack⟩ := List.exists_cons_of_ne_nil (hS.stack_ne_nil rfl)
      have hf : f ≠ [] := hS.frontier f (by rw [hstack]; exact List.mem_cons_self)
      refine ⟨?_, ?_, fun _ => List.cons_ne_nil _ _⟩
      · intro g hg
        simp only [EmitSchedule.visitEmit, hstack, List.isEmpty_cons, Bool.false_eq_true,
          if_false] at hg
        rcases List.mem_cons.mp hg with rfl | hg
        · exact List.cons_ne_nil _ _
        · exact hS.frontier g (by rw [hstack]; exact hg)
      · intro e he
        simp only [EmitSchedule.visitEmit, hstack, List.isEmpty_cons, Bool.false_eq_true,
          if_false, List.headD_cons] at he
        rcases List.mem_append.mp he with he | he
        · exact hS.callers e he
        · rw [List.mem_singleton.mp he]
          exact hf
  | false =>
      have hne : (S.visitEmit h).calls ≠ [] := by simp [EmitSchedule.visitEmit]
      refine ⟨fun _ _ hnil => absurd hnil hne, ?_, fun hb => Bool.noConfusion hb⟩
      intro e he
      cases hcalls : S.calls with
      | nil =>
          simp only [EmitSchedule.visitEmit, hcalls, List.nil_append, List.head?_cons,
            Option.mem_some_iff] at he
          subst he
          have hempty : ∀ f ∈ S.frontierStack, f = [] := fun f hf => hS.frontier f hf hcalls
          cases hstack : S.frontierStack with
          | nil => rfl
          | cons f fs => exact hempty f (by rw [hstack]; exact List.mem_cons_self)
      | cons e' es =>
          have hhead : e ∈ S.calls.head? := by
            simpa [EmitSchedule.visitEmit, hcalls] using he
          exact hS.callers e hhead

mutual

/-- A visit keeps the invariant and only adds to the state. -/
theorem Stmt.inv_schedule {b : Bool} : ∀ (s : Stmt H) {S S' : EmitSchedule H}, S.Inv b →
    s.schedule S = some S' → S'.Inv b ∧ S'.Extends S
  | .skip, S, S', hS, h => by
      obtain rfl := Option.some.inj h
      exact ⟨hS, EmitSchedule.Extends.refl S⟩
  | .emit h, S, S', hS, hS' => by
      obtain rfl := Option.some.inj hS'
      exact ⟨hS.visitEmit h, S.extends_visitEmit h⟩
  | .seq s t, S, S', hS, h => by
      obtain ⟨S₁, hs, ht⟩ := Option.bind_eq_some_iff.mp h
      obtain ⟨hS₁, hext₁⟩ := s.inv_schedule hS hs
      obtain ⟨hS₂, hext₂⟩ := t.inv_schedule hS₁ ht
      exact ⟨hS₂, hext₁.trans hext₂⟩
  | .ite s t, S, S', hS, h => by
      obtain ⟨S₁, hs, h⟩ := Option.bind_eq_some_iff.mp h
      obtain ⟨trueFront, htrue, h⟩ := Option.bind_eq_some_iff.mp h
      obtain ⟨S₂, ht, h⟩ := Option.bind_eq_some_iff.mp h
      obtain ⟨falseFront, hfalse, h⟩ := Option.bind_eq_some_iff.mp h
      obtain rfl := Option.some.inj h
      obtain ⟨hS₁, hext₁⟩ := s.inv_schedule hS hs
      have hstack := hext₁.frontierStack_popTo
      obtain ⟨hS₂, hext₂⟩ := t.inv_schedule (hS.popTo hS₁ hext₁) ht
      have hext : S₂.Extends S := hext₁.popTo.trans hext₂
      refine ⟨(hS.popTo hS₂ hext).push ?_, hext.push_popTo _⟩
      have htrueFront := hS₁.frontier _ (List.mem_of_mem_head? htrue)
      have hfalseFront := hS₂.frontier _ (List.mem_of_mem_head? hfalse)
      exact GoodFrontier.append (fun _ => htrueFront.mono hext₂.2) hfalseFront
  | .switch cases, S, S', hS, h =>
      cases.inv_schedule rfl hS (fun _ _ => rfl) h

/-- The cases of a `switch`, with the frontiers of the cases in front. -/
theorem Cases.inv_schedule {b : Bool} : ∀ (cases : Cases H) {size : ℕ}
    {pushBackStack : List ℕ} {S S' : EmitSchedule H}, S.frontierStack.length = size →
    S.Inv b → (b = false → GoodFrontier false S.calls pushBackStack) →
    cases.schedule size pushBackStack S = some S' → S'.Inv b ∧ S'.Extends S
  | .last s, _, pushBackStack, S, S', rfl, hS, hpush, h => by
      obtain ⟨S₁, hs, h⟩ := Option.bind_eq_some_iff.mp h
      obtain ⟨caseFront, hcase, h⟩ := Option.bind_eq_some_iff.mp h
      obtain rfl := Option.some.inj h
      obtain ⟨hS₁, hext⟩ := s.inv_schedule hS hs
      have hcaseFront := hS₁.frontier _ (List.mem_of_mem_head? hcase)
      refine ⟨(hS.popTo hS₁ hext).push ?_, hext.push_popTo _⟩
      refine GoodFrontier.append (fun hb => ?_) hcaseFront
      subst hb
      exact (hpush rfl).mono hext.2
  | .cons s rest, _, pushBackStack, S, S', rfl, hS, hpush, h => by
      obtain ⟨S₁, hs, h⟩ := Option.bind_eq_some_iff.mp h
      obtain ⟨caseFront, hcase, h⟩ := Option.bind_eq_some_iff.mp h
      obtain ⟨hS₁, hext⟩ := s.inv_schedule hS hs
      have hcaseFront := hS₁.frontier _ (List.mem_of_mem_head? hcase)
      have hlength := congrArg List.length hext.frontierStack_popTo
      obtain ⟨hS', hext'⟩ := rest.inv_schedule hlength (hS.popTo hS₁ hext) (fun hb => by
        subst hb
        exact GoodFrontier.append (fun _ => (hpush rfl).mono hext.2) hcaseFront) h
      exact ⟨hS', hext.popTo.trans hext'⟩

end

/-- With a dummy call every emit call has a caller; without it the first has none. -/
theorem Stmt.goodCallers_emitCalls {body : Stmt H} {addDummyInit : Bool}
    {calls : List (EmitCall H)} (h : body.emitCalls addDummyInit = some calls) :
    GoodCallers addDummyInit calls := by
  obtain ⟨S, hS, rfl⟩ := Option.map_eq_some_iff.mp h
  refine (body.inv_schedule ?_ hS).1.callers
  cases addDummyInit with
  | true =>
      refine ⟨?_, fun e he => absurd he List.not_mem_nil, fun _ => List.cons_ne_nil _ _⟩
      intro f hf
      rw [List.mem_singleton.mp hf]
      exact List.cons_ne_nil _ _
  | false =>
      exact ⟨fun f hf => absurd hf List.not_mem_nil, fun e he => absurd he (by simp),
        fun hb => Bool.noConfusion hb⟩

/-! ## Straight-line bodies -/

/-- The emit calls of a straight-line body: each has the one before as its caller. -/
def chainCalls : (callers : List ℕ) → (n : ℕ) → List H → List (EmitCall H)
  | _, _, [] => []
  | callers, n, h :: hs => ⟨h, callers⟩ :: chainCalls [n] (n + 1) hs

theorem Stmt.schedule_ofEmits : ∀ (hs : List H) (S : EmitSchedule H),
    ((Stmt.ofEmits hs).schedule S).map EmitSchedule.calls =
      some (S.calls ++ chainCalls (S.frontierStack.headD []) (S.calls.length + 1) hs)
  | [], S => by simp [Stmt.ofEmits, Stmt.schedule, chainCalls]
  | h :: hs, S => by
      have hfrontier : (if S.frontierStack.isEmpty then [[]] else S.frontierStack).headD [] =
          S.frontierStack.headD [] := by
        cases S.frontierStack <;> rfl
      rw [Stmt.ofEmits, Stmt.schedule, Stmt.schedule]
      show ((Stmt.ofEmits hs).schedule (S.visitEmit h)).map EmitSchedule.calls = _
      rw [Stmt.schedule_ofEmits hs]
      simp only [EmitSchedule.visitEmit, hfrontier, chainCalls, List.append_assoc,
        List.cons_append, List.nil_append, List.headD_cons, List.length_append,
        List.length_singleton]

theorem Stmt.emitCalls_ofEmits (hs : List H) (addDummyInit : Bool) :
    (Stmt.ofEmits hs).emitCalls addDummyInit =
      some (chainCalls (if addDummyInit then [0] else []) 1 hs) := by
  cases addDummyInit <;> exact Stmt.schedule_ofEmits hs _

end Deparser
end MicroP4
