import MicroP4.Partitioning.Statements

/-!
# Statements among other declarations

What some statements do depends on the declarations they name, on those that these name, and so
on.  If all of these have become declarations with their variables at other places, the statements
with their variables there do the same (`Moves.runIn_bisim`).
-/

namespace MicroP4
namespace Partitioning

open CopyInCopyOut

variable {N O E : Type}

/-- The parameters of an action, which its body names as variables of its own. -/
def Decl.own : Decl N O → List N
  | .action _ params _ => params.map Param.name
  | _ => []

/-- A declaration with its variables at other places. -/
def Decl.under (loc : N → Place N) : Decl N O → Decl N O
  | .variable x type => .variable x type
  | .action a params body => .action a params (underOf loc body)
  | .table t keys actions => .table t (keys.map (Expr.under loc)) actions
  | .instance c type => .instance c type

def Decl.isVariable : Decl N O → Bool
  | .variable _ _ => true
  | _ => false

theorem Decl.name_under (loc : N → Place N) : ∀ d : Decl N O, (d.under loc).name = d.name
  | .variable _ _ | .action _ _ _ | .table _ _ _ | .instance _ _ => rfl

theorem Decl.own_under (loc : N → Place N) : ∀ d : Decl N O, (d.under loc).own = d.own
  | .variable _ _ | .action _ _ _ | .table _ _ _ | .instance _ _ => rfl

theorem Decl.under_ofVar : ∀ d : Decl N O, d.under .ofVar = d
  | .variable _ _ | .instance _ _ => rfl
  | .action _ _ _ => by rw [Decl.under, underOf_ofVar]
  | .table _ _ _ => by rw [Decl.under, List.map_id'' Expr.under_ofVar]

/-- What some statements name. -/
def namesOf (l : List (Statement N O)) : List (Ref N) := (leavesOf l).flatMap Stmt.names

theorem namesOf_under (loc : N → Place N) (l : List (Statement N O)) :
    namesOf (underOf loc l) = (namesOf l).map (Ref.under loc) := by
  rw [namesOf, namesOf, leavesOf_under, List.flatMap_map, List.map_flatMap]
  exact List.flatMap_congr fun s _ => s.names_under loc

theorem Decl.names_under (loc : N → Place N) : ∀ d : Decl N O,
    (d.under loc).names = d.names.map (Ref.under loc)
  | .variable _ _ | .instance _ _ => rfl
  | .action _ _ body => namesOf_under loc body
  | .table _ keys actions => by
      have hactions : (actions.map Ref.action).map (Ref.under loc) = actions.map Ref.action := by
        rw [List.map_map]
        rfl
      rw [Decl.under, Decl.names, Decl.names, List.map_append, hactions, List.flatMap_map,
        List.map_flatMap]
      congr 1
      exact List.flatMap_congr fun e _ => e.names_under loc

theorem forall_mem_namesOf {l : List (Statement N O)} {P : Ref N → Prop} :
    (∀ r ∈ namesOf l, P r) ↔ ∀ s ∈ leavesOf l, ∀ r ∈ s.names, P r := by
  refine ⟨fun h s hs r hr => h r (List.mem_flatMap.mpr ⟨s, hs, hr⟩), fun h r hr => ?_⟩
  obtain ⟨s, hs, hrs⟩ := List.mem_flatMap.mp hr
  exact h s hs r hrs

section Declared

variable [DecidableEq N]

/-- A name is declared as what it is used for.  Variables may be parameters as well. -/
def Declared (locals : List (Decl N O)) : Ref N → Prop
  | .var _ => True
  | .table t => ∃ keys actions, getDeclaration locals t = some (.table t keys actions)
  | .action a => ∃ params body, getDeclaration locals a = some (.action a params body)
  | .control c => ∃ type, getDeclaration locals c = some (.instance c type)

theorem mem_of_getDeclaration {locals : List (Decl N O)} {n : N} {d : Decl N O}
    (h : getDeclaration locals n = some d) : d ∈ locals ∧ d.name = n := by
  refine ⟨List.mem_of_find?_eq_some h, ?_⟩
  have hname := List.find?_some h
  rwa [decide_eq_true_eq] at hname

theorem getDeclaration_of_mem {locals : List (Decl N O)} (h : (locals.map Decl.name).Nodup)
    {d : Decl N O} (hd : d ∈ locals) : getDeclaration locals d.name = some d := by
  cases hfind : getDeclaration locals d.name with
  | none =>
      have hne := List.find?_eq_none.mp hfind d hd
      simp at hne
  | some d' =>
      obtain ⟨hd', hname⟩ := mem_of_getDeclaration hfind
      rw [List.inj_on_of_nodup_map h hd' hd hname]

theorem getDeclaration_eq_none {locals : List (Decl N O)} {n : N}
    (h : n ∉ locals.map Decl.name) : getDeclaration locals n = none := by
  rw [getDeclaration, List.find?_eq_none]
  intro d hd hname
  rw [decide_eq_true_eq] at hname
  exact h (hname ▸ List.mem_map_of_mem hd)

theorem getDeclaration_append (locals locals' : List (Decl N O)) (n : N) :
    getDeclaration (locals ++ locals') n
      = (getDeclaration locals n).or (getDeclaration locals' n) := List.find?_append

omit [DecidableEq N] in
theorem mem_variablesOf {locals : List (Decl N O)} {x : N} :
    x ∈ variablesOf locals ↔ ∃ type, Decl.variable x type ∈ locals := by
  rw [variablesOf, List.mem_filterMap]
  constructor
  · rintro ⟨d, hd, hx⟩
    rcases d with ⟨y, type⟩ | _ | _ | _
    · rw [Option.some.inj hx] at hd
      exact ⟨type, hd⟩
    · cases hx
    · cases hx
    · cases hx
  · rintro ⟨type, h⟩
    exact ⟨_, h, rfl⟩

end Declared

/-! ## Names that are closed -/

section Scope

variable [DecidableEq N] (I : Interp N O E) (locals : List (Decl N O))

/-- Names with all that their declarations name.  A table runs one of its actions. -/
structure Scope (M : Set N) : Prop where
  names : ∀ n ∈ M, ∀ d, getDeclaration locals n = some d → ∀ r ∈ d.names,
    (r.name ∈ M ∧ Declared locals r) ∨ r.name ∈ d.own
  select : ∀ t ∈ M, ∀ keys actions, getDeclaration locals t = some (.table t keys actions) →
    ∀ vals a ws, I.select t vals = some (a, ws) → a ∈ actions

variable {I locals}

/-- What a table runs is an action that is declared. -/
theorem Scope.action {M : Set N} (h : Scope I locals M) {t : N} {keys : List (Expr N O)}
    {actions : List N} (ht : t ∈ M) (hd : getDeclaration locals t = some (.table t keys actions))
    {vals : List (Val N)} {a : N} {ws : N → Val N} (hs : I.select t vals = some (a, ws)) :
    a ∈ M ∧ Declared locals (.action a) := by
  refine (h.names t ht _ hd (.action a) ?_).resolve_right List.not_mem_nil
  exact List.mem_append_right _ (List.mem_map_of_mem (h.select t ht keys actions hd vals a ws hs))

variable (program : N → Option (Callee N E))

/-- A variable keeps its value if neither the statements nor the actions in reach assign it. -/
theorem Scope.runIn_keeps {M : Set N} (h : Scope I locals M) {l : List (Statement N O)} {x : N}
    (hl : ∀ r ∈ namesOf l, r.name ∈ M ∧ Declared locals r)
    (hx : ∀ s ∈ leavesOf l, x ∉ s.assigned (ctrlsOf program locals) (actsOf I locals))
    (hacts : ∀ a ∈ M, ∀ params body, getDeclaration locals a = some (.action a params body) →
      x ∈ params.map Param.name ∨
        ∀ s ∈ leavesOf body, x ∉ s.assigned (fun _ => none) fun _ => (none : Option (Callee N E))) :
    (runIn I program locals l).Keeps x := by
  have hbody : ∀ a ∈ M, ∀ c, actsOf I locals a = some c →
      x ∈ c.params.map Param.name ∨ c.body.Keeps x := by
    intro a ha c hc
    rw [actsOf] at hc
    split at hc
    · rename_i b params body hd
      obtain rfl := Option.some.inj hc
      obtain rfl := (mem_of_getDeclaration hd).2
      refine (hacts _ ha params body hd).imp id fun hbody => execOf_keeps I _ fun s hs => ?_
      refine exec_keeps I (hbody s hs) fun r _ => ?_
      cases r with
      | table t => exact fun _ _ _ _ _ hnone => absurd hnone (Option.some_ne_none _).symm
      | action a => exact fun _ hnone => absurd hnone (Option.some_ne_none _).symm
      | var | control => trivial
    · cases hc
  rw [forall_mem_namesOf] at hl
  refine execOf_keeps I l fun s hs => exec_keeps I (hx s hs) fun r hr => ?_
  obtain ⟨hrM, hdecl⟩ := hl s hs r hr
  cases r with
  | table t =>
      obtain ⟨keys, actions, hd⟩ := hdecl
      exact fun vals a ws hsel => hbody a (h.action hrM hd hsel).1
  | action a => exact hbody a hrM
  | var | control => trivial

/-- Other variables keep their values. -/
theorem Scope.runIn_keeps_of_notMem {M : Set N} (h : Scope I locals M) {l : List (Statement N O)}
    {x : N} (hl : ∀ r ∈ namesOf l, r.name ∈ M ∧ Declared locals r) (hx : x ∉ M) :
    (runIn I program locals l).Keeps x := by
  refine h.runIn_keeps program hl (fun s hs hmem => ?_) fun a ha params body hd => ?_
  · exact hx (forall_mem_namesOf.mp hl s hs _ (names_of_assigned hmem)).1
  · by_cases hown : x ∈ params.map Param.name
    · exact Or.inl hown
    · refine Or.inr fun s hs hmem => ?_
      have hr : Ref.var x ∈ namesOf body := List.mem_flatMap.mpr ⟨s, hs, names_of_assigned hmem⟩
      exact (h.names a ha _ hd _ hr).elim (fun hr => hx hr.1) hown

end Scope

/-! ## Declarations with their variables at other places -/

section Moves

variable [DecidableEq N] (I : Interp N O E) (loc : N → Place N) (V M : Set N)
  (locals locals' : List (Decl N O))

/-- The declarations of some names have become declarations with their variables at other
places. -/
structure Moves : Prop where
  scope : Scope I locals M
  sub : ∀ n ∈ M, n ∈ V
  separate : Separate loc V
  own : ∀ n ∈ M, ∀ d, getDeclaration locals n = some d → ∀ p ∈ d.own,
    loc p = .ofVar p ∧ ∀ x ∈ V, x ≠ p → (loc x).var ≠ p
  decl : ∀ n ∈ M, ∀ d, getDeclaration locals n = some d → d.isVariable = false →
    getDeclaration locals' n = some (d.under loc)

variable {I loc V M locals locals'}

namespace Moves

/-- The parameters of an action stand where no other variable is. -/
theorem separate_own (h : Moves I loc V M locals locals') {n : N} (hn : n ∈ M) {d : Decl N O}
    (hd : getDeclaration locals n = some d) : Separate loc (V ∪ {p | p ∈ d.own}) := by
  have hown := h.own n hn d hd
  have hapart : ∀ x ∈ V, ∀ p ∈ d.own, x ≠ p → (loc x).var ≠ (loc p).var := fun x hx p hp hne => by
    rw [(hown p hp).1]
    exact (hown p hp).2 x hx hne
  rintro x (hx | hx) y (hy | hy) hne hvar
  · exact h.separate x hx y hy hne hvar
  · exact absurd hvar (hapart x hx y hy hne)
  · exact absurd hvar.symm (hapart y hy x hx hne.symm)
  · rw [(hown x hx).1, (hown y hy).1] at hvar
    exact absurd hvar hne

theorem action_alike (h : Moves I loc V M locals locals') {a : N} (ha : a ∈ M)
    (hdecl : Declared locals (.action a)) :
    Option.Rel (Callee.Alike loc V) (actsOf I locals a) (actsOf I locals' a) := by
  obtain ⟨params, body, hd⟩ := hdecl
  have hown := h.own a ha _ hd
  rw [actsOf, actsOf, hd, h.decl a ha _ hd rfl]
  refine .some ⟨rfl, fun x hx hxp hmem => ?_, fun p hp => (hown p hp).1, ?_⟩
  · exact (hown _ hmem).2 x hx (fun heq => hxp (heq ▸ hmem)) rfl
  · refine execOf_bisim I (h.separate_own ha hd) body ?_
    have hnames : ∀ r ∈ namesOf body, r.name ∈ V ∪ {p | p ∈ params.map Param.name} := fun r hr =>
      (h.scope.names a ha _ hd r hr).imp (fun hr => h.sub _ hr.1) id
    rw [forall_mem_namesOf] at hnames
    intro s hs r hr
    cases r with
    | var x => exact hnames s hs _ hr
    | table t => exact ⟨rfl, fun _ h => absurd h List.not_mem_nil, fun _ _ _ _ => .none⟩
    | action b => exact .none
    | control c => rfl

/-- **Statements do the same with their variables at other places**, among the declarations with
their variables there. -/
theorem runIn_bisim (h : Moves I loc V M locals locals') (program : N → Option (Callee N E))
    {l : List (Statement N O)} (hl : ∀ r ∈ namesOf l, r.name ∈ M ∧ Declared locals r) :
    Bisim (Located loc V) (runIn I program locals l) (runIn I program locals' (underOf loc l)) := by
  refine execOf_bisim I h.separate l ?_
  rw [forall_mem_namesOf] at hl
  intro s hs r hr
  obtain ⟨hrM, hdecl⟩ := hl s hs r hr
  cases r with
  | var x => exact h.sub x hrM
  | table t =>
      obtain ⟨keys, actions, hd⟩ := hdecl
      refine ⟨?_, fun e he x hx => ?_, fun vals a ws hs => ?_⟩
      · rw [keysOf, keysOf, hd, h.decl t hrM _ hd rfl]
        rfl
      · rw [keysOf, hd] at he
        have hmem : Ref.var x ∈ (Decl.table t keys actions).names :=
          List.mem_append_left _ (List.mem_flatMap.mpr ⟨e, he, List.mem_map_of_mem hx⟩)
        exact h.sub x ((h.scope.names t hrM _ hd _ hmem).resolve_right List.not_mem_nil).1
      · obtain ⟨ha, hact⟩ := h.scope.action hrM hd hs
        exact h.action_alike ha hact
  | action a => exact h.action_alike hrM hdecl
  | control c =>
      obtain ⟨type, hd⟩ := hdecl
      show ctrlsOf program locals' c = ctrlsOf program locals c
      rw [ctrlsOf, ctrlsOf, hd, h.decl c hrM _ hd rfl]
      rfl

end Moves

end Moves

end Partitioning
end MicroP4
