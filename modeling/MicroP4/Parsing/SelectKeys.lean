import MicroP4.Parsing.ActionCorrect
import MicroP4.Parsing.TableVisit

/-!
# When the key of a select is right

The parser evaluates a `select` behind the statements of its state; the table evaluates its
keys in front of all actions.  `KeyFits` is when this gives the same value: nothing the
expression reads is assigned on the path, or it is a field or a local that is assigned in the
state itself and the key is what is assigned to it.
-/

namespace MicroP4
namespace Parsing

open BitString Assignments

variable {S H F X : Type}

namespace ParserDecl

variable (P : ParserDecl S H F X)

/-- The locations a statement assigns. -/
def Assigns : ParserStat H F X → Loc H F X → Prop
  | .extract h, x => x = .valid h ∨ (∃ f ∈ (P.fields h).map Prod.fst, x = .field h f) ∨
      x = .currOffset
  | .assign y _, x => x = .var y

/-- No statement of a list assigns a location. -/
def Untouched (l : List (ParserStat H F X)) (x : Loc H F X) : Prop := ∀ s ∈ l, ¬ P.Assigns s x

/-- The key for the `select` of an instance has the value of its expression. -/
inductive KeyFits (p : List ℕ) (o : ℕ) : SelectExpr H F X → Prop
  | untouched {e : SelectExpr H F X} (h : ∀ x, e.toExpr.reads x → P.Untouched (P.statsTo p) x) :
      KeyFits p o e
  | extracted {h : H} {f : F} {w : ℕ} {l₁ l₂ : List (ParserStat H F X)} {fs₁ fs₂ : List (F × ℕ)}
      (hstats : P.statsOf p = l₁ ++ .extract h :: l₂)
      (hfields : P.fields h = fs₁ ++ (f, w) :: fs₂)
      (haligned : Aligned (o + advance P (P.statsBefore p ++ l₁) + (fs₁.map Prod.snd).sum) w) :
      KeyFits p o (.loc (.field h f))
  | assigned {x : X} {e : Expr (Loc H F X) Value} {l₁ l₂ : List (ParserStat H F X)}
      (hstats : P.statsOf p = l₁ ++ .assign x e :: l₂)
      (h₁ : P.Untouched l₁ (.var x)) (h₂ : P.Untouched l₂ (.var x))
      (h : ∀ y, e.reads y → P.Untouched (P.statsBefore p ++ l₁) y) :
      KeyFits p o (.loc (.var x))

variable (rd : ℕ → ℕ → List Bool)

theorem assigns_of_mem_statAssigns {a : Assignment (Loc H F X) Value} :
    ∀ {l : List (ParserStat H F X)} {start : ℕ}, a ∈ statAssigns P rd start l →
      ∃ s ∈ l, P.Assigns s a.target
  | [], _, ha => absurd ha List.not_mem_nil
  | .extract h :: l, start, ha => by
      rw [statAssigns, List.mem_append, extractAssigns, List.mem_append, List.mem_cons,
        List.mem_singleton] at ha
      rcases ha with ((rfl | ha) | rfl) | ha
      · exact ⟨_, List.mem_cons_self, Or.inl rfl⟩
      · obtain ⟨f, hf, htarget⟩ := target_of_mem_fieldAssigns rd ha
        exact ⟨_, List.mem_cons_self, Or.inr (Or.inl ⟨f, hf, htarget⟩)⟩
      · exact ⟨_, List.mem_cons_self, Or.inr (Or.inr rfl)⟩
      · obtain ⟨s, hs, h'⟩ := assigns_of_mem_statAssigns ha
        exact ⟨s, List.mem_cons_of_mem _ hs, h'⟩
  | .assign x e :: l, start, ha => by
      rw [statAssigns, List.mem_cons] at ha
      rcases ha with rfl | ha
      · exact ⟨_, List.mem_cons_self, rfl⟩
      · obtain ⟨s, hs, h'⟩ := assigns_of_mem_statAssigns ha
        exact ⟨s, List.mem_cons_of_mem _ hs, h'⟩

theorem exists_mem_fieldAssigns {h : H} {f : F} : ∀ {fs : List (F × ℕ)} {start : ℕ},
    f ∈ fs.map Prod.fst →
      ∃ a ∈ (fieldAssigns rd h start fs : List (Assignment (Loc H F X) Value)),
        a.target = .field h f
  | [], _, hf => absurd hf List.not_mem_nil
  | (f', w) :: fs, start, hf => by
      rcases List.mem_cons.mp hf with rfl | hf
      · exact ⟨_, List.mem_cons_self, rfl⟩
      · obtain ⟨a, ha, htarget⟩ := exists_mem_fieldAssigns hf
        exact ⟨a, List.mem_cons_of_mem _ ha, htarget⟩

/-- What a statement assigns is a target. -/
theorem exists_mem_statAssigns {s : ParserStat H F X} {x : Loc H F X} (hx : P.Assigns s x) :
    ∀ {l : List (ParserStat H F X)} {start : ℕ}, s ∈ l →
      ∃ a ∈ statAssigns P rd start l, a.target = x
  | [], _, hs => absurd hs List.not_mem_nil
  | s' :: l, start, hmem => by
      rcases List.mem_cons.mp hmem with rfl | hs
      · cases s with
        | extract h =>
            have hmem : ∃ a ∈ extractAssigns P rd h start, a.target = x := by
              rcases hx with rfl | ⟨f, hf, rfl⟩ | rfl
              · exact ⟨_, List.mem_append_left _ List.mem_cons_self, rfl⟩
              · obtain ⟨a, ha, htarget⟩ := exists_mem_fieldAssigns (X := X) rd hf
                exact ⟨a, List.mem_append_left _ (List.mem_cons_of_mem _ ha), htarget⟩
              · exact ⟨_, List.mem_append_right _ List.mem_cons_self, rfl⟩
            obtain ⟨a, ha, htarget⟩ := hmem
            exact ⟨a, List.mem_append_left _ ha, htarget⟩
        | assign y e => exact ⟨_, List.mem_cons_self, Eq.symm hx⟩
      · cases s' with
        | extract h =>
            obtain ⟨a, ha, htarget⟩ : ∃ a ∈ statAssigns P rd (start + P.width h) l, a.target = x :=
              exists_mem_statAssigns hx hs
            exact ⟨a, List.mem_append_right _ ha, htarget⟩
        | assign y e =>
            obtain ⟨a, ha, htarget⟩ : ∃ a ∈ statAssigns P rd start l, a.target = x :=
              exists_mem_statAssigns hx hs
            exact ⟨a, List.mem_cons_of_mem _ ha, htarget⟩

variable {P} in
/-- Untouched locations are no targets. -/
theorem Untouched.target_ne {l : List (ParserStat H F X)} {x : Loc H F X} (h : P.Untouched l x)
    {start : ℕ} : ∀ a ∈ statAssigns P rd start l, a.target ≠ x := by
  rintro a ha rfl
  obtain ⟨s, hs, h'⟩ := P.assigns_of_mem_statAssigns rd ha
  exact h s hs h'

variable {P} in
theorem Untouched.mono {l l' : List (ParserStat H F X)} {x : Loc H F X} (h : P.Untouched l x)
    (hl : ∀ s ∈ l', s ∈ l) : P.Untouched l' x :=
  fun s hs => h s (hl s hs)

end ParserDecl

namespace Parser

variable (P : Parser S H F X) [DecidableEq H] [DecidableEq F] [DecidableEq X]

/-- The store behind the states on a path. -/
def storeAt (st : ℕ → Word) (σ : Store H F X) (o : ℕ) (p : List ℕ) : Store H F X :=
  P.execAll (bitAt st) (P.statsTo p) (P.startStore σ o)

/-- The key is the right-hand side of the first assignment. -/
theorem keyRhs_eq (st : ℕ → Word) {p : List ℕ} {o : ℕ} {x : Loc H F X}
    {a : Assignment (Loc H F X) Value} {m m' : List (Assignment (Loc H F X) Value)}
    (h : (P.asgnsOf p o).map (Asgn.on st) = m ++ a :: m') (hm : ∀ b ∈ m, b.target ≠ x)
    (ha : a.target = x) : (P.keyRhs p o (.loc x)).toExpr st = a.rhs := by
  have hfind : ((P.asgnsOf p o).map (Asgn.on st)).find? (fun b => b.target = x) = some a := by
    rw [h, List.find?_append, List.find?_eq_none.mpr fun b hb => by simpa using hm b hb,
      Option.none_or, List.find?_cons_of_pos (by simpa using ha)]
  rw [List.find?_map, Option.map_eq_some_iff] at hfind
  obtain ⟨b, hb, rfl⟩ := hfind
  have hsub : substituted (P.asgnsOf p o) (.loc x) = some b.rhs := by
    rw [substituted, Option.map_eq_some_iff]
    exact ⟨b, hb, rfl⟩
  rw [keyRhs, hsub]
  rfl

/-- Where nothing is assigned the key is the expression itself. -/
theorem keyRhs_eq_self (st : ℕ → Word) {p : List ℕ} {o : ℕ} {e : SelectExpr H F X}
    (h : ∀ x, e.toExpr.reads x → P.Untouched (P.statsOf p) x) :
    P.keyRhs p o e = .expr e.toExpr := by
  have hnone : substituted (P.asgnsOf p o) e = none := by
    cases e with
    | expr e => rfl
    | loc x =>
        rw [substituted, Option.map_eq_none_iff, List.find?_eq_none]
        intro a ha
        have hmem : a.on st ∈ statAssigns P.toParserDecl (readSlices st)
            (advance P.toParserDecl (P.statsBefore p) + o) (P.statsOf p) := by
          rw [← map_on_asgnsOf]
          exact List.mem_map_of_mem ha
        exact fun heq => (h x rfl).target_ne _ _ hmem (of_decide_eq_true heq)
  rw [keyRhs, hnone]
  rfl

/-- The value of a key that fits is the value of the `select`. -/
theorem eval_keyRhs (st : ℕ → Word) (σ : Store H F X) {p : List ℕ} {o : ℕ}
    {e : SelectExpr H F X} (h : P.KeyFits p o e) :
    ((P.keyRhs p o e).toExpr st).eval (P.startStore σ o) =
      e.toExpr.eval (P.storeAt st σ o p) := by
  rw [storeAt, execAll_statsTo]
  have hstore := map_on_asgnsOf P st p o
  cases h with
  | untouched h =>
      rw [P.keyRhs_eq_self st fun x hx => (h x hx).mono fun s hs => by
        rw [P.statsTo_eq]
        exact List.mem_append_right _ hs]
      exact e.toExpr.eval_congr fun x hx => (run_of_ne ((h x hx).target_ne _)).symm
  | @extracted h f w l₁ l₂ fs₁ fs₂ hstats hfields haligned =>
      have hnodup := P.extracted_nodup p
      rw [P.statsTo_eq, hstats, ParserDecl.extracted_append,
        ParserDecl.extracted_append] at hnodup
      obtain ⟨-, hl₂, hl₁⟩ := List.nodup_append.mp (List.nodup_append.mp hnodup).2.1
      have hfnodup := P.fields_nodup h
      rw [hfields, List.map_append] at hfnodup
      obtain ⟨-, hfs₂, hfs₁⟩ := List.nodup_append.mp hfnodup
      rw [hstats, statAssigns_append, statAssigns, extractAssigns, hfields, fieldAssigns_append,
        fieldAssigns, ← List.cons_append, List.append_assoc, List.append_assoc,
        ← List.append_assoc (statAssigns _ _ _ l₁)] at hstore
      have hstart : advance P.toParserDecl (P.statsBefore p) + o + advance P.toParserDecl l₁ =
          o + advance P.toParserDecl (P.statsBefore p ++ l₁) := by
        rw [advance_append]
        omega
      rw [P.keyRhs_eq st hstore ?_ rfl, hstart, readSlices_eq st haligned, P.statsTo_eq, hstats,
        ← List.append_assoc]
      · exact (run_statAssigns_field P.toParserDecl _ o (List.nodup_cons.mp hl₂).1 hfields
          (List.nodup_cons.mp hfs₂).1).symm
      · intro b hb htarget
        rcases List.mem_append.mp hb with hb | hb
        · exact target_ne_of_not_mem P.toParserDecl _ (Or.inr ⟨f, rfl⟩)
            (fun hh => hl₁ h hh h List.mem_cons_self rfl) b hb htarget
        · rcases List.mem_cons.mp hb with rfl | hb
          · cases htarget
          · obtain ⟨f', hf', hb'⟩ := target_of_mem_fieldAssigns _ hb
            rw [hb'] at htarget
            cases htarget
            exact hfs₁ f hf' f List.mem_cons_self rfl
  | @assigned x d l₁ l₂ hstats h₁ h₂ h =>
      rw [hstats, statAssigns_append, statAssigns] at hstore
      rw [P.keyRhs_eq st hstore (h₁.target_ne _) rfl, P.statsTo_eq, hstats, ← List.append_assoc,
        statAssigns_append, statAssigns, run_append, run_cons]
      refine Eq.trans ?_ (run_of_ne (x := Loc.var x) (h₂.target_ne _)).symm
      rw [exec_target]
      exact d.eval_congr fun y hy => (run_of_ne ((h y hy).target_ne _)).symm

end Parser
end Parsing
end MicroP4
