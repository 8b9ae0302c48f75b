import MicroP4.Foundations.FirstVisits

/-!
# Merging compilation units

`MergeDeclarations` puts the objects of several programs into one list, those of the program
that is compiled last, and applies `Consolidator`, which visits the objects in order and
removes some.  A type is kept if no type of its name was kept before, whatever kind of type
the two are, and an action likewise.  The members of all error types are collected in one
node, which takes the place of the first.  Of the `match_kind` declarations the first is kept
as it is, and of the extern functions of one name the first is kept too, although functions
can be overloaded.

So members of later `match_kind` declarations and further overloads of extern functions are
lost, and that is all that can be lost.  The objects are different nodes, as those of
programs that were read one by one are; a transformation visits a node once.
-/

namespace MicroP4
namespace Composition

open Foundations

/-- A top-level object of a program, over names `N` and bodies `B` that the merge does not
look into.  A type declaration is a struct, a header, an enumeration, an extern, a parser, a
control, a package and so on.  The `type` of a composable package is what type inference
recorded.  Constants, instances and functions with a body are `other`. -/
inductive Object (N B : Type) where
  | typeDeclaration (name : N) (body : B)
  | composablePackage (name : N) (body : B) (type : Option B)
  | typeError (members : List N)
  | matchKind (members : List N)
  | method (name : N) (type : B)
  | action (name : N) (body : B)
  | other (body : B)
  deriving DecidableEq, Repr

/-- The three kinds of names that are kept once. -/
inductive NameSpace where
  | type
  | action
  | method
  deriving DecidableEq, Repr

/-- A node of the merged program.  The collected error type is a node that changes while the
objects after it are visited. -/
inductive Result (N B : Type) where
  | object (o : Object N B)
  | typeError
  deriving DecidableEq, Repr

/-- The state of `Consolidator`.  Of the declarations in its tables only the names are read. -/
structure Consolidator (N : Type) where
  typeError : Option (List N)
  remove : Bool
  removeMatchKind : Bool
  seenMethods : List N
  typeDecls : List N
  decls : List N

variable {N B : Type}

/-- The name an object declares in a name space. -/
def Object.nameIn : NameSpace → Object N B → Option N
  | .type, .typeDeclaration name _ => some name
  | .type, .composablePackage name _ _ => some name
  | .action, .action name _ => some name
  | .method, .method name _ => some name
  | _, _ => none

/-- The members of an error type. -/
def Object.errorMembers : Object N B → List N
  | .typeError members => members
  | _ => []

/-- The members of a `match_kind` declaration. -/
def Object.matchKind? : Object N B → Option (List N)
  | .matchKind members => some members
  | _ => none

/-- What is left of an object that is kept.  `preorder(Type_ComposablePackage)` removes the
inferred type of a composable package. -/
def Object.consolidated : Object N B → Object N B
  | .composablePackage name body _ => .composablePackage name body none
  | o => o

/-- A new `Consolidator`. -/
def Consolidator.new : Consolidator N := ⟨none, false, false, [], [], []⟩

/-- The names that were kept. -/
def Consolidator.names (C : Consolidator N) : NameSpace → List N
  | .type => C.typeDecls
  | .action => C.decls
  | .method => C.seenMethods

/-- The members of the collected error type. -/
def Consolidator.errors (C : Consolidator N) : List N := C.typeError.getD []

variable [DecidableEq N]

/-- Visiting a top-level object. -/
def Consolidator.visit (C : Consolidator N) : Object N B → Consolidator N × Option (Result N B)
  | .typeDeclaration name body =>
      if name ∈ C.typeDecls then (C, none)
      else ({ C with typeDecls := C.typeDecls ++ [name] },
        some (.object (.typeDeclaration name body)))
  | .composablePackage name body _ =>
      if name ∈ C.typeDecls then (C, none)
      else ({ C with typeDecls := C.typeDecls ++ [name] },
        some (.object (.composablePackage name body none)))
  | .typeError members =>
      let typeError := addNew id (C.typeError.getD []) members
      if C.remove then ({ C with typeError := some typeError }, none)
      else ({ C with typeError := some typeError, remove := true }, some .typeError)
  | .matchKind members =>
      if C.removeMatchKind then (C, none)
      else ({ C with removeMatchKind := true }, some (.object (.matchKind members)))
  | .method name type =>
      if name ∈ C.seenMethods then (C, none)
      else ({ C with seenMethods := C.seenMethods ++ [name] },
        some (.object (.method name type)))
  | .action name body =>
      if name ∈ C.decls then (C, none)
      else ({ C with decls := C.decls ++ [name] }, some (.object (.action name body)))
  | .other body => (C, some (.object (.other body)))

/-- Visiting the objects of a program. -/
def Consolidator.visitObjects : Consolidator N → List (Object N B) →
    Consolidator N × List (Result N B)
  | C, [] => (C, [])
  | C, o :: os =>
      let rest := Consolidator.visitObjects (C.visit o).1 os
      (rest.1, (C.visit o).2.toList ++ rest.2)

/-- A node of the merged program, after the visit. -/
def Result.toObject (errors : List N) : Result N B → Object N B
  | .object o => o
  | .typeError => .typeError errors

/-- The objects that are visited: those of the given programs and, last, those of the program
the pass is applied to. -/
def allObjects (p4Programs : List (List (Object N B))) (p4Program : List (Object N B)) :
    List (Object N B) :=
  (p4Programs ++ [p4Program]).flatten

/-- `MergeDeclarations`. -/
def mergeDeclarations (p4Programs : List (List (Object N B))) (p4Program : List (Object N B)) :
    List (Object N B) :=
  let visited := Consolidator.new.visitObjects (allObjects p4Programs p4Program)
  visited.2.map (Result.toObject visited.1.errors)

/-- The objects of one name in a name space are identical. -/
def Identical (s : NameSpace) (inputs : List (Object N B)) : Prop :=
  ∀ o ∈ inputs, ∀ o' ∈ inputs, o.nameIn s ≠ none → o.nameIn s = o'.nameIn s → o = o'

instance [DecidableEq B] (s : NameSpace) (inputs : List (Object N B)) :
    Decidable (Identical s inputs) :=
  inferInstanceAs (Decidable (∀ o ∈ inputs, ∀ o' ∈ inputs,
    o.nameIn s ≠ none → o.nameIn s = o'.nameIn s → o = o'))

/-- The members of the first `match_kind` declaration. -/
def firstMatchKind (inputs : List (Object N B)) : List N :=
  (inputs.filterMap Object.matchKind?).head?.getD []

/-- Every type and every action is declared once in the merged program, every extern function
is in it with all overloads, and the errors and match kinds are those of all inputs. -/
structure LosesNothing (inputs merged : List (Object N B)) : Prop where
  declared_once : ∀ s, s ≠ NameSpace.method → ∀ o ∈ inputs, ∀ n, o.nameIn s = some n →
    (merged.filter fun o' => o'.nameIn s = some n) = [o.consolidated]
  functions : ∀ o ∈ inputs, ∀ n, o.nameIn .method = some n → o ∈ merged
  errors : ∀ id, id ∈ merged.flatMap Object.errorMembers ↔
    id ∈ inputs.flatMap Object.errorMembers
  matchKinds : ∀ id, id ∈ (merged.filterMap Object.matchKind?).flatten ↔
    id ∈ (inputs.filterMap Object.matchKind?).flatten

/-! ## Names -/

/-- The state after a name was added. -/
def Consolidator.addName (C : Consolidator N) (n : N) : NameSpace → Consolidator N
  | .type => { C with typeDecls := C.typeDecls ++ [n] }
  | .action => { C with decls := C.decls ++ [n] }
  | .method => { C with seenMethods := C.seenMethods ++ [n] }

omit [DecidableEq N] in
@[simp] theorem Consolidator.names_addName (C : Consolidator N) (n : N) (s : NameSpace) :
    (C.addName n s).names s = C.names s ++ [n] := by
  cases s <;> rfl

/-- The name of a node of the merged program. -/
def Result.nameIn (s : NameSpace) : Result N B → Option N
  | .object o => o.nameIn s
  | .typeError => none

omit [DecidableEq N] in
@[simp] theorem Object.nameIn_consolidated (s : NameSpace) (o : Object N B) :
    o.consolidated.nameIn s = o.nameIn s := by
  cases o <;> cases s <;> rfl

omit [DecidableEq N] in
@[simp] theorem Result.nameIn_toObject (s : NameSpace) (errors : List N) (r : Result N B) :
    (r.toObject errors).nameIn s = r.nameIn s := by
  cases r with
  | object o => rfl
  | typeError => cases s <;> rfl

/-- An object with a name that was kept before is removed. -/
theorem Consolidator.visit_of_mem {C : Consolidator N} {s : NameSpace} {o : Object N B} {n : N}
    (ho : o.nameIn s = some n) (hn : n ∈ C.names s) : C.visit o = (C, none) := by
  cases o <;> cases s <;> simp only [Object.nameIn, reduceCtorEq, Option.some.injEq] at ho
  all_goals
    subst ho
    exact if_pos hn

/-- An object with a new name is kept. -/
theorem Consolidator.visit_of_notMem {C : Consolidator N} {s : NameSpace} {o : Object N B}
    {n : N} (ho : o.nameIn s = some n) (hn : n ∉ C.names s) :
    C.visit o = (C.addName n s, some (.object o.consolidated)) := by
  cases o <;> cases s <;> simp only [Object.nameIn, reduceCtorEq, Option.some.injEq] at ho
  all_goals
    subst ho
    exact if_neg hn

/-- An object without a name in a name space does not change the names there. -/
theorem Consolidator.visit_of_none {s : NameSpace} {o : Object N B} (C : Consolidator N)
    (ho : o.nameIn s = none) :
    (C.visit o).1.names s = C.names s ∧ ∀ r ∈ (C.visit o).2, r.nameIn s = none := by
  cases o <;> cases s <;> simp only [Object.nameIn, reduceCtorEq] at ho <;>
    (simp only [visit]; try split) <;> simp [names, Result.nameIn, Object.nameIn]

/-- Of the objects with a given name the first is kept, if the name is new. -/
theorem filter_visitObjects (s : NameSpace) (n : N) : ∀ (os : List (Object N B))
    (C : Consolidator N),
    ((C.visitObjects os).2.filter fun r => r.nameIn s = some n) =
      if n ∈ C.names s then []
      else ((os.find? fun o => o.nameIn s = some n).map fun o =>
        Result.object o.consolidated).toList
  | [], C => by simp [Consolidator.visitObjects]
  | o :: os, C => by
      have ih := filter_visitObjects s n os (C.visit o).1
      rw [Consolidator.visitObjects, List.filter_append, ih]
      cases ho : o.nameIn s with
      | none =>
          obtain ⟨hnames, hresult⟩ := C.visit_of_none ho
          have hfilter : ((C.visit o).2.toList.filter fun r => r.nameIn s = some n) = [] := by
            refine List.filter_eq_nil_iff.mpr fun r hr => ?_
            rw [hresult r (Option.mem_toList.mp hr)]
            simp
          rw [hfilter, List.nil_append, hnames, List.find?_cons_of_neg (by simp [ho])]
      | some m =>
          by_cases hm : m ∈ C.names s
          · -- `o` is removed, and it is not the first of the name `n` when `n` is new
            rw [Consolidator.visit_of_mem ho hm]
            by_cases hn : n ∈ C.names s
            · simp [hn]
            · have hne : m ≠ n := fun heq => hn (heq ▸ hm)
              rw [if_neg hn, if_neg hn, List.find?_cons_of_neg (by simp [ho, hne])]
              rfl
          · rw [Consolidator.visit_of_notMem ho hm, Consolidator.names_addName]
            by_cases hmn : m = n
            · subst hmn
              rw [if_pos (List.mem_append_right _ List.mem_cons_self), if_neg hm,
                List.find?_cons_of_pos (by simp [ho])]
              simp [Result.nameIn, ho]
            · rw [List.find?_cons_of_neg (by simp [ho, hmn])]
              simp [Result.nameIn, ho, hmn, Ne.symm hmn]

/-! ## Errors and match kinds -/

/-- The members of an error type are added to the collected ones. -/
theorem Consolidator.errors_visit (C : Consolidator N) (o : Object N B) :
    (C.visit o).1.errors = addNew id C.errors o.errorMembers := by
  cases o <;> simp only [visit] <;> (try split) <;> rfl

theorem Consolidator.remove_visit (C : Consolidator N) (o : Object N B) :
    (C.visit o).1.remove = false ↔
      C.remove = false ∧ ¬∃ members, o = .typeError members := by
  cases o <;> simp only [visit] <;> (try split) <;> simp_all

theorem Consolidator.typeError_mem_visit (C : Consolidator N) (o : Object N B) :
    (C.visit o).2 = some .typeError ↔ C.remove = false ∧ ∃ members, o = .typeError members := by
  cases o <;> simp only [visit] <;> (try split) <;> simp_all

/-- Apart from the collected error type, what stands in the merged program is the object
visited. -/
theorem Consolidator.visit_eq_object {C : Consolidator N} {o o' : Object N B}
    (h : (C.visit o).2 = some (.object o')) : o' = o.consolidated ∧ o'.errorMembers = [] := by
  cases o <;> simp only [visit] at h <;> (try split at h) <;>
    simp only [reduceCtorEq, Option.some.injEq, Result.object.injEq] at h <;> subst h <;>
    exact ⟨rfl, rfl⟩

theorem Consolidator.removeMatchKind_visit (C : Consolidator N) (o : Object N B) :
    (C.visit o).1.removeMatchKind = (C.removeMatchKind || o.matchKind?.isSome) := by
  cases o <;> simp only [visit] <;> (try split) <;> simp_all [Object.matchKind?]

theorem Consolidator.matchKind_visit (C : Consolidator N) (o : Object N B) (errors : List N) :
    ((C.visit o).2.map (Result.toObject errors)).bind Object.matchKind? =
      if C.removeMatchKind then none else o.matchKind? := by
  cases o <;> simp only [visit] <;> (try split) <;>
    simp_all [Result.toObject, Object.matchKind?]

/-- The collected error type has the members it had and those of the error types visited. -/
theorem mem_errors_visitObjects {e : N} : ∀ (os : List (Object N B)) (C : Consolidator N),
    e ∈ (C.visitObjects os).1.errors ↔ e ∈ C.errors ∨ e ∈ os.flatMap Object.errorMembers
  | [], C => by simp [Consolidator.visitObjects]
  | o :: os, C => by
      have hadd : e ∈ (addNew id C.errors o.errorMembers).map id ↔
          e ∈ C.errors.map id ∨ e ∈ o.errorMembers.map id := mem_map_key_addNew
      rw [List.map_id, List.map_id, List.map_id] at hadd
      rw [Consolidator.visitObjects, mem_errors_visitObjects os, C.errors_visit o, hadd,
        List.flatMap_cons, List.mem_append, or_assoc]

/-- The collected error type stands in the program when an error type was visited and it
did not stand there before. -/
theorem typeError_mem_visitObjects : ∀ (os : List (Object N B)) (C : Consolidator N),
    Result.typeError ∈ (C.visitObjects os).2 ↔
      C.remove = false ∧ ∃ members, Object.typeError members ∈ os
  | [], C => by simp [Consolidator.visitObjects]
  | o :: os, C => by
      rw [Consolidator.visitObjects, List.mem_append, Option.mem_toList,
        C.typeError_mem_visit, typeError_mem_visitObjects os, C.remove_visit]
      simp only [List.mem_cons, exists_or, @eq_comm _ (Object.typeError _) o]
      tauto

/-- No other node of the merged program is an error type. -/
theorem errorMembers_of_mem_visitObjects {o : Object N B} : ∀ (os : List (Object N B))
    (C : Consolidator N), Result.object o ∈ (C.visitObjects os).2 → o.errorMembers = []
  | [], _, ho => absurd ho List.not_mem_nil
  | o' :: os, C, ho => by
      rw [Consolidator.visitObjects, List.mem_append] at ho
      rcases ho with ho | ho
      · exact (Consolidator.visit_eq_object (Option.mem_toList.mp ho)).2
      · exact errorMembers_of_mem_visitObjects os _ ho

/-- Of the `match_kind` declarations the first is kept, if none was kept before. -/
theorem matchKind_visitObjects (errors : List N) : ∀ (os : List (Object N B))
    (C : Consolidator N),
    ((C.visitObjects os).2.map (Result.toObject errors)).filterMap Object.matchKind? =
      if C.removeMatchKind then [] else (os.filterMap Object.matchKind?).head?.toList
  | [], C => by simp [Consolidator.visitObjects]
  | o :: os, C => by
      have hhead : ((C.visit o).2.toList.map (Result.toObject errors)).filterMap
          Object.matchKind? = (if C.removeMatchKind then none else o.matchKind?).toList := by
        rw [← C.matchKind_visit o errors]
        cases (C.visit o).2 with
        | none => rfl
        | some r => cases h : (r.toObject errors).matchKind? <;> simp [h]
      rw [Consolidator.visitObjects, List.map_append, List.filterMap_append, hhead,
        matchKind_visitObjects errors os, C.removeMatchKind_visit]
      cases hkind : o.matchKind? with
      | none => simp [List.filterMap_cons_none hkind]
      | some members =>
          rw [List.filterMap_cons_some hkind]
          cases C.removeMatchKind <;> rfl

/-! ## The merged program -/

/-- Among identical objects the first one is as good as any. -/
theorem exists_find_of_identical {s : NameSpace} {inputs : List (Object N B)}
    (h : Identical s inputs) {o : Object N B} (ho : o ∈ inputs) {n : N}
    (hn : o.nameIn s = some n) :
    ∃ o', inputs.find? (fun o => o.nameIn s = some n) = some o' ∧ o' = o := by
  have hsome : (inputs.find? fun o => o.nameIn s = some n).isSome :=
    List.find?_isSome.mpr ⟨o, ho, by simpa using hn⟩
  obtain ⟨o', hfind⟩ := Option.isSome_iff_exists.mp hsome
  have hn' : o'.nameIn s = some n := by simpa using List.find?_some hfind
  refine ⟨o', hfind, h o' (List.mem_of_find?_eq_some hfind) o ho ?_ (hn'.trans hn.symm)⟩
  rw [hn']
  exact Option.some_ne_none n

section Merged

variable (p4Programs : List (List (Object N B))) (p4Program : List (Object N B))

/-- The first declaration of a name is the one in the merged program. -/
theorem filter_mergeDeclarations (s : NameSpace) (n : N) :
    ((mergeDeclarations p4Programs p4Program).filter fun o => o.nameIn s = some n) =
      (((allObjects p4Programs p4Program).find? fun o => o.nameIn s = some n).map
        Object.consolidated).toList := by
  have hnew : n ∉ (Consolidator.new : Consolidator N).names s := by
    cases s <;> exact List.not_mem_nil
  have hfilter := filter_visitObjects s n (allObjects p4Programs p4Program) Consolidator.new
  rw [if_neg hnew] at hfilter
  have hcongr : ∀ errors : List N, ((fun o : Object N B => decide (o.nameIn s = some n)) ∘
      Result.toObject errors) = fun r => decide (r.nameIn s = some n) := fun errors => by
    funext r
    simp
  rw [mergeDeclarations, List.filter_map, hcongr, hfilter]
  cases (allObjects p4Programs p4Program).find? fun o => o.nameIn s = some n with
  | none => rfl
  | some o => rfl

/-- An extern function is in the merged program when it is the first of its name. -/
theorem method_mem_mergeDeclarations_iff {o : Object N B} {n : N}
    (ho : o.nameIn .method = some n) : o ∈ mergeDeclarations p4Programs p4Program ↔
      (allObjects p4Programs p4Program).find? (fun o' => o'.nameIn .method = some n) =
        some o := by
  have hmem : o ∈ mergeDeclarations p4Programs p4Program ↔
      o ∈ (mergeDeclarations p4Programs p4Program).filter
        fun o' => o'.nameIn .method = some n := by
    rw [List.mem_filter]
    exact ⟨fun h => ⟨h, by simpa using ho⟩, And.left⟩
  rw [hmem, filter_mergeDeclarations, Option.mem_toList]
  cases hfind : (allObjects p4Programs p4Program).find?
      fun o' => o'.nameIn .method = some n with
  | none => simp
  | some o' =>
      have ho' : o'.nameIn .method = some n := by simpa using List.find?_some hfind
      have hself : o'.consolidated = o' := by
        cases o' <;> first | rfl | exact absurd ho' (by simp [Object.nameIn])
      rw [Option.map_some, hself]

/-- The error types are merged. -/
theorem mem_errorMembers_mergeDeclarations {e : N} :
    e ∈ (mergeDeclarations p4Programs p4Program).flatMap Object.errorMembers ↔
      e ∈ (allObjects p4Programs p4Program).flatMap Object.errorMembers := by
  set inputs := allObjects p4Programs p4Program with hinputs
  have herrors := mem_errors_visitObjects (e := e) inputs Consolidator.new
  have hnew : (Consolidator.new : Consolidator N).errors = [] := rfl
  rw [hnew, or_iff_right List.not_mem_nil] at herrors
  rw [mergeDeclarations, ← hinputs, List.mem_flatMap]
  constructor
  · rintro ⟨o, ho, he⟩
    obtain ⟨r, hr, rfl⟩ := List.mem_map.mp ho
    cases r with
    | object o =>
        rw [Result.toObject, errorMembers_of_mem_visitObjects inputs _ hr] at he
        exact absurd he List.not_mem_nil
    | typeError => exact herrors.mp he
  · intro he
    refine ⟨.typeError _, List.mem_map.mpr ⟨.typeError, ?_, rfl⟩, herrors.mpr he⟩
    obtain ⟨o, ho, hmem⟩ := List.mem_flatMap.mp he
    refine (typeError_mem_visitObjects inputs _).mpr ⟨rfl, ?_⟩
    cases o with
    | typeError members => exact ⟨members, ho⟩
    | _ => exact absurd hmem List.not_mem_nil

/-- The first `match_kind` declaration is in the merged program. -/
theorem matchKind_mergeDeclarations :
    (mergeDeclarations p4Programs p4Program).filterMap Object.matchKind? =
      ((allObjects p4Programs p4Program).filterMap Object.matchKind?).head?.toList :=
  matchKind_visitObjects _ _ Consolidator.new

/-- Types and actions are declared once. -/
theorem filter_mergeDeclarations_of_identical {s : NameSpace}
    (h : Identical s (allObjects p4Programs p4Program)) {o : Object N B}
    (ho : o ∈ allObjects p4Programs p4Program) {n : N} (hn : o.nameIn s = some n) :
    ((mergeDeclarations p4Programs p4Program).filter fun o' => o'.nameIn s = some n) =
      [o.consolidated] := by
  obtain ⟨o', hfind, heq⟩ := exists_find_of_identical h ho hn
  rw [filter_mergeDeclarations, hfind, heq]
  rfl

/-- All overloads of extern functions are kept exactly when there are none. -/
theorem functions_mem_mergeDeclarations_iff :
    (∀ o ∈ allObjects p4Programs p4Program, ∀ n, o.nameIn .method = some n →
      o ∈ mergeDeclarations p4Programs p4Program) ↔
        Identical .method (allObjects p4Programs p4Program) := by
  constructor
  · intro hkept o ho o' ho' hne heq
    obtain ⟨n, hn⟩ := Option.ne_none_iff_exists'.mp hne
    have hn' : o'.nameIn .method = some n := heq ▸ hn
    have hfind := (method_mem_mergeDeclarations_iff p4Programs p4Program hn).mp
      (hkept o ho n hn)
    have hfind' := (method_mem_mergeDeclarations_iff p4Programs p4Program hn').mp
      (hkept o' ho' n hn')
    exact Option.some.inj (hfind.symm.trans hfind')
  · intro h o ho n hn
    obtain ⟨o', hfind, rfl⟩ := exists_find_of_identical h ho hn
    exact (method_mem_mergeDeclarations_iff p4Programs p4Program hn).mpr hfind

/-- No member of a `match_kind` declaration is lost exactly when the first declaration has
them all. -/
theorem matchKinds_mergeDeclarations_iff :
    (∀ e, e ∈ ((mergeDeclarations p4Programs p4Program).filterMap Object.matchKind?).flatten ↔
      e ∈ ((allObjects p4Programs p4Program).filterMap Object.matchKind?).flatten) ↔
        ∀ members ∈ (allObjects p4Programs p4Program).filterMap Object.matchKind?,
          members ⊆ firstMatchKind (allObjects p4Programs p4Program) := by
  have hfirst : ((mergeDeclarations p4Programs p4Program).filterMap Object.matchKind?).flatten =
      firstMatchKind (allObjects p4Programs p4Program) := by
    rw [matchKind_mergeDeclarations, firstMatchKind]
    cases ((allObjects p4Programs p4Program).filterMap Object.matchKind?).head? <;> simp
  simp only [hfirst]
  constructor
  · intro h members hmembers e he
    exact (h e).mpr (List.mem_flatten.mpr ⟨members, hmembers, he⟩)
  · intro h e
    constructor
    · intro he
      rw [firstMatchKind] at he
      cases hhead : ((allObjects p4Programs p4Program).filterMap Object.matchKind?).head? with
      | none =>
          rw [hhead] at he
          exact absurd he List.not_mem_nil
      | some members =>
          rw [hhead] at he
          exact List.mem_flatten.mpr ⟨members, List.mem_of_mem_head? hhead, he⟩
    · intro he
      obtain ⟨members, hmembers, he⟩ := List.mem_flatten.mp he
      exact h members hmembers he

/-- Merging loses nothing exactly when extern functions of one name are identical and the
first `match_kind` declaration has the members of all. -/
theorem losesNothing_iff
    (h : ∀ s, s ≠ NameSpace.method → Identical s (allObjects p4Programs p4Program)) :
    LosesNothing (allObjects p4Programs p4Program) (mergeDeclarations p4Programs p4Program) ↔
      Identical .method (allObjects p4Programs p4Program) ∧
        ∀ members ∈ (allObjects p4Programs p4Program).filterMap Object.matchKind?,
          members ⊆ firstMatchKind (allObjects p4Programs p4Program) := by
  constructor
  · intro hloses
    exact ⟨(functions_mem_mergeDeclarations_iff p4Programs p4Program).mp hloses.functions,
      (matchKinds_mergeDeclarations_iff p4Programs p4Program).mp hloses.matchKinds⟩
  · rintro ⟨hmethods, hkinds⟩
    refine ⟨fun s hs o ho n hn => ?_, ?_, fun e => ?_, ?_⟩
    · exact filter_mergeDeclarations_of_identical p4Programs p4Program (h s hs) ho hn
    · exact (functions_mem_mergeDeclarations_iff p4Programs p4Program).mpr hmethods
    · exact mem_errorMembers_mergeDeclarations p4Programs p4Program
    · exact (matchKinds_mergeDeclarations_iff p4Programs p4Program).mpr hkinds

end Merged

/-! ## What is lost -/

/-- The declarations of `v1model.p4` with those of `core.p4` in front. -/
def v1model : List (Object String Unit) :=
  [.typeError ["NoError"], .matchKind ["exact", "ternary", "lpm"],
    .typeDeclaration "packet_in" (), .matchKind ["range", "selector"]]

/-- A program that was translated with `core.p4`. -/
def translated : List (Object String Unit) :=
  [.typeError ["NoError"], .matchKind ["exact", "ternary", "lpm"],
    .typeDeclaration "packet_in" (), .typeDeclaration "MyIngress" (), .action "drop" ()]

/-- A file with an extern function of two overloads. -/
def overloads : List (Object String Bool) := [.method "log" false, .method "log" true]

/-- The match kinds of the target are lost, and so is an overload. -/
theorem not_losesNothing :
    ((∀ s, s ≠ NameSpace.method → Identical s (allObjects [v1model] translated)) ∧
      ¬ LosesNothing (allObjects [v1model] translated) (mergeDeclarations [v1model] translated)) ∧
    ((∀ s, s ≠ NameSpace.method → Identical s (allObjects [overloads] [])) ∧
      ¬ LosesNothing (allObjects [overloads] []) (mergeDeclarations [overloads] [])) := by
  refine ⟨⟨?_, fun h => ?_⟩, ?_, fun h => ?_⟩
  · intro s _
    cases s <;> decide
  · have hrange := (h.matchKinds "range").mpr (by decide)
    exact absurd hrange (by decide)
  · intro s hs
    cases s <;> first | decide | exact absurd rfl hs
  · have hmethod := h.functions (.method "log" true) (by decide) "log" rfl
    exact absurd hmethod (by decide)

/-- Nothing is lost when the target declares no match kinds of its own. -/
theorem losesNothing_translated :
    LosesNothing (allObjects [translated] translated) (mergeDeclarations [translated] translated) :=
  (losesNothing_iff [translated] translated (by
    intro s _
    cases s <;> decide)).mpr ⟨by decide, by decide⟩

end Composition
end MicroP4
