import MicroP4.Foundations.FirstVisits
import Mathlib

/-!
# Initial offsets of packages

`Converter` converts the packages of a composed program in a depth-first traversal of their calls.
A stack holds the offsets at which the package under conversion can start; behind its parser they
are moved by the offsets at which the parser accepts, and a callee is converted with what is on
top.  As a `Transform` the converter visits a package once, so a package that is called in several
places is converted with the offsets of the first call.

`offsetsCover_iff` says for which programs every package is converted with each offset that it can
be called at, and with none of them twice.
-/

namespace MicroP4
namespace Composition

open Foundations (addNew addNew_append addNew_cons_of_notMem addNew_eq_self mem_addNew_iff
  mem_map_key_addNew)

/-! ## Programs -/

/-- A package: what `getAcceptedPktOffsets` gives for its parser, and the packages that its
controls apply, one for each call in the order they stand there. -/
structure Package where
  acceptedPktOffsets : List ℕ
  callees : List ℕ

/-- A composed program.  A package is not called from itself, also not through others, so that
packages can be numbered with callees in front of their callers. -/
structure Program where
  package : ℕ → Package
  main : ℕ
  callees_lt : ∀ p, ∀ q ∈ (package p).callees, q < p

/-- `std::unique`. -/
def unique : List ℕ → List ℕ
  | a :: b :: l => if a = b then unique (b :: l) else a :: unique (b :: l)
  | l => l

/-- `currentParserOffsets`. -/
def Package.currentParserOffsets (pkg : Package) : List ℕ :=
  unique (pkg.acceptedPktOffsets.mergeSort (· ≤ ·))

/-- What is pushed on `offsetsStack` behind the parser. -/
def Package.acceptedPktOffset (pkg : Package) (initialOffsets : List ℕ) : List ℕ :=
  initialOffsets.flatMap fun currentOffset =>
    pkg.currentParserOffsets.map fun o => currentOffset + o

/-! ## The converter -/

/-- `offsetsStack`, its back first, and the initial offsets that parsers and deparsers have been
converted with. -/
structure Converter where
  offsetsStack : List (List ℕ)
  parsers : List (ℕ × List ℕ)
  deparsers : List (ℕ × List ℕ)

namespace Converter

/-- The conversion of a parser. -/
def preorderParser (c : Converter) (p : ℕ) (pkg : Package) : Converter where
  offsetsStack := pkg.acceptedPktOffset (c.offsetsStack.headD []) :: c.offsetsStack
  parsers := c.parsers ++ [(p, c.offsetsStack.headD [])]
  deparsers := c.deparsers

/-- The conversion of a deparser. -/
def preorderDeparser (c : Converter) (p : ℕ) : Converter where
  offsetsStack := c.offsetsStack.tail
  parsers := c.parsers
  deparsers := c.deparsers ++ [(p, c.offsetsStack.tail.headD [])]

end Converter

variable (prog : Program)

/-- Visiting a package, if it was not visited: its parser, the packages that its controls call,
and its deparser. -/
def visit : ℕ → ℕ → Converter → Converter
  | 0, _, c => c
  | n + 1, p, c =>
      if p ∈ c.parsers.map Prod.fst then c
      else ((prog.package p).callees.foldl (fun c q => visit n q c)
        (c.preorderParser p (prog.package p))).preorderDeparser p

/-- The conversion of the program. -/
def convert : Converter := visit prog (prog.main + 1) prog.main ⟨[[0]], [], []⟩

/-! ## What can happen at run time -/

/-- From a package that is called at an offset to a package that it calls. -/
def Call (a b : ℕ × ℕ) : Prop :=
  b.1 ∈ (prog.package a.1).callees ∧
    ∃ o ∈ (prog.package a.1).acceptedPktOffsets, b.2 = a.2 + o

/-- The package can be called while `curr_offset` is `v`. -/
def Reaches (q v : ℕ) : Prop := Relation.ReflTransGen (Call prog) (prog.main, 0) (q, v)

/-- Every package is converted with distinct offsets, among them each one it can be called at. -/
def OffsetsCover : Prop :=
  ∀ q offsets, (q, offsets) ∈ (convert prog).parsers ∨ (q, offsets) ∈ (convert prog).deparsers →
    offsets.Nodup ∧ ∀ v, Reaches prog q v → v ∈ offsets

/-! ## Chains of calls -/

/-- The chains of calls that start with a package, in depth-first order. -/
def chains : ℕ → ℕ → List (List ℕ)
  | 0, _ => []
  | n + 1, p => [p] :: (prog.package p).callees.flatMap fun q => (chains n q).map (p :: ·)

/-- The chains of calls of the program. -/
def callChains : List (List ℕ) := chains prog (prog.main + 1) prog.main

/-- The package a chain ends in. -/
def target (c : List ℕ) : ℕ := c.getLastD 0

/-- The first chain that ends in a package. -/
def firstChain (q : ℕ) : Option (List ℕ) := (callChains prog).find? fun c => target c = q

/-- The ways to pick one of the offsets at which the parser accepts, for each package of a chain
but the last. -/
def picks : List ℕ → List (List ℕ)
  | p :: q :: c => (prog.package p).currentParserOffsets.flatMap fun o =>
      (picks (q :: c)).map (o :: ·)
  | _ => [[]]

/-- The offsets for the last package of a chain. -/
def offsetsAlong : List ℕ → List ℕ → List ℕ
  | offsets, p :: q :: c => offsetsAlong ((prog.package p).acceptedPktOffset offsets) (q :: c)
  | offsets, _ => offsets

variable {prog}

/-! ## Sorting -/

theorem mem_unique {a : ℕ} {l : List ℕ} : a ∈ unique l ↔ a ∈ l := by
  fun_induction unique l with
  | case1 b l ih =>
      rw [ih, List.mem_cons (b := b) (l := b :: l)]
      exact (or_iff_right_of_imp fun h => h ▸ List.mem_cons_self).symm
  | case2 b c l hne ih => rw [List.mem_cons, ih, List.mem_cons (b := b) (l := c :: l)]
  | case3 l _ => rfl

theorem nodup_unique {l : List ℕ} (h : l.Pairwise (· ≤ ·)) : (unique l).Nodup := by
  fun_induction unique l with
  | case1 b l ih => exact ih (List.pairwise_cons.mp h).2
  | case2 b c l hne ih =>
      obtain ⟨hb, hc⟩ := List.pairwise_cons.mp h
      refine List.nodup_cons.mpr ⟨fun hmem => ?_, ih hc⟩
      have hlt : b < c := Nat.lt_of_le_of_ne (hb c List.mem_cons_self) hne
      rcases List.mem_cons.mp (mem_unique.mp hmem) with rfl | hmem
      · exact hne rfl
      · exact Nat.not_le.mpr hlt ((List.pairwise_cons.mp hc).1 b hmem)
  | case3 l hl =>
      match l, hl with
      | [], _ => exact List.nodup_nil
      | [a], _ => exact List.nodup_singleton a
      | a :: b :: l, hl => exact absurd rfl (hl a b l)

theorem Package.mem_currentParserOffsets {pkg : Package} {o : ℕ} :
    o ∈ pkg.currentParserOffsets ↔ o ∈ pkg.acceptedPktOffsets := by
  unfold Package.currentParserOffsets
  rw [mem_unique, List.mem_mergeSort]

theorem Package.nodup_currentParserOffsets (pkg : Package) : pkg.currentParserOffsets.Nodup :=
  nodup_unique (by simpa using List.pairwise_mergeSort' (· ≤ ·) pkg.acceptedPktOffsets)

/-! ## All visits -/

theorem exists_cons_of_mem_chains {n p : ℕ} {c : List ℕ} (h : c ∈ chains prog n p) :
    ∃ t, c = p :: t := by
  cases n with
  | zero => exact absurd h List.not_mem_nil
  | succ n =>
      rcases List.mem_cons.mp h with rfl | h
      · exact ⟨[], rfl⟩
      · obtain ⟨q, -, hc⟩ := List.mem_flatMap.mp h
        obtain ⟨t, -, rfl⟩ := List.mem_map.mp hc
        exact ⟨t, rfl⟩

variable (prog) in
/-- The visits of a traversal that does not remember what it has visited. -/
def visits (n p : ℕ) (offsets : List ℕ) : List (ℕ × List ℕ) :=
  (chains prog n p).map fun c => (target c, offsetsAlong prog offsets c)

theorem visits_succ (n p : ℕ) (offsets : List ℕ) : visits prog (n + 1) p offsets =
    (p, offsets) :: (prog.package p).callees.flatMap fun q =>
      visits prog n q ((prog.package p).acceptedPktOffset offsets) := by
  unfold visits
  rw [chains, List.map_cons, List.map_flatMap]
  refine congrArg₂ List.cons rfl (congrArg (List.flatMap · _) ?_)
  ext1 q
  rw [List.map_map]
  refine List.map_congr_left fun c hc => ?_
  obtain ⟨t, rfl⟩ := exists_cons_of_mem_chains hc
  rfl

/-! ## Visiting once -/

variable (prog) in
/-- Below a bound, everything that a visited package calls is visited. -/
def Closed (m : ℕ) (done : List (ℕ × List ℕ)) : Prop :=
  ∀ p ∈ done.map Prod.fst, p < m → ∀ q ∈ (prog.package p).callees, q ∈ done.map Prod.fst

theorem Closed.target_mem {m : ℕ} {done : List (ℕ × List ℕ)} (h : Closed prog m done) {n : ℕ} :
    ∀ {p : ℕ}, p < m → p ∈ done.map Prod.fst → ∀ {offsets : List ℕ},
      ∀ x ∈ visits prog n p offsets, x.1 ∈ done.map Prod.fst := by
  induction n with
  | zero => exact fun _ _ _ _ hx => absurd hx List.not_mem_nil
  | succ n ih =>
      intro p hm hp offsets x hx
      rw [visits_succ] at hx
      rcases List.mem_cons.mp hx with rfl | hx
      · exact hp
      · obtain ⟨q, hq, hx⟩ := List.mem_flatMap.mp hx
        exact ih (Nat.lt_trans (prog.callees_lt p q hq) hm) (h p hp hm q hq) x hx

theorem le_of_mem_visits {n : ℕ} : ∀ {p : ℕ} {offsets : List ℕ},
    ∀ x ∈ visits prog n p offsets, x.1 ≤ p := by
  induction n with
  | zero => exact fun _ hx => absurd hx List.not_mem_nil
  | succ n ih =>
      intro p offsets x hx
      rw [visits_succ] at hx
      rcases List.mem_cons.mp hx with rfl | hx
      · exact Nat.le_refl _
      · obtain ⟨q, hq, hx⟩ := List.mem_flatMap.mp hx
        exact Nat.le_of_lt (Nat.lt_of_le_of_lt (ih x hx) (prog.callees_lt p q hq))

/-- What a visit leaves, for a converter that may have visited others before: the stack is as
before, the parsers are converted with the offsets of first visits, and each deparser like its
parser. -/
structure Visited (prog : Program) (m : ℕ) (new : List (ℕ × List ℕ)) (c c' : Converter) : Prop where
  stack : c'.offsetsStack = c.offsetsStack
  parsers : c'.parsers = addNew Prod.fst c.parsers new
  closed : Closed prog m c'.parsers
  deparsers : ∀ x ∈ c'.deparsers, x ∈ c.deparsers ∨ x ∈ c'.parsers

theorem subset_addNew {done xs : List (ℕ × List ℕ)} {x : ℕ × List ℕ} (h : x ∈ done) :
    x ∈ addNew Prod.fst done xs :=
  mem_addNew_iff.mpr (Or.inl h)

theorem Visited.trans {m : ℕ} {xs ys : List (ℕ × List ℕ)} {c₁ c₂ c₃ : Converter}
    (h : Visited prog m xs c₁ c₂) (h' : Visited prog m ys c₂ c₃) :
    Visited prog m (xs ++ ys) c₁ c₃ := by
  refine ⟨h'.stack.trans h.stack, ?_, h'.closed, fun x hx => ?_⟩
  · rw [h'.parsers, h.parsers, addNew_append]
  · rcases h'.deparsers x hx with hx | hx
    · refine (h.deparsers x hx).imp_right fun hx => ?_
      rw [h'.parsers]
      exact subset_addNew hx
    · exact Or.inr hx

/-- The callees of a package, which all have smaller numbers. -/
theorem visited_callees {n m : ℕ} (hvisit : ∀ {q : ℕ} {c : Converter}, q < n → q < m →
    Closed prog m c.parsers →
      Visited prog m (visits prog n q (c.offsetsStack.headD [])) c (visit prog n q c)) :
    ∀ {callees : List ℕ} {c : Converter}, (∀ q ∈ callees, q < n ∧ q < m) →
      Closed prog m c.parsers →
        Visited prog m (callees.flatMap fun q => visits prog n q (c.offsetsStack.headD [])) c
          (callees.foldl (fun c q => visit prog n q c) c) := by
  intro callees
  induction callees with
  | nil => exact fun _ hclosed => ⟨rfl, rfl, hclosed, fun _ hx => Or.inl hx⟩
  | cons q callees ih =>
      intro c hlt hclosed
      obtain ⟨hn, hm⟩ := hlt q List.mem_cons_self
      have hfirst := hvisit hn hm hclosed
      have hrest := ih (c := visit prog n q c) (fun r hr => hlt r (List.mem_cons_of_mem _ hr))
        hfirst.closed
      rw [hfirst.stack] at hrest
      exact hfirst.trans hrest

/-- Behind the callees of a package the package and all of them are closed. -/
theorem Closed.of_callees {n m p : ℕ} {offsets accepted : List ℕ} {done : List (ℕ × List ℕ)}
    (hn : p < n + 1) (h : Closed prog m done)
    (hcallees : Closed prog p (addNew Prod.fst done ((p, offsets) ::
      (prog.package p).callees.flatMap fun q => visits prog n q accepted))) :
    Closed prog m (addNew Prod.fst done ((p, offsets) ::
      (prog.package p).callees.flatMap fun q => visits prog n q accepted)) := by
  intro r hr hrm q hq
  rw [mem_map_key_addNew, List.map_cons, List.mem_cons] at hr ⊢
  rcases Nat.lt_trichotomy r p with hrp | rfl | hrp
  · have hmem := hcallees r (mem_map_key_addNew.mpr (by rwa [List.map_cons, List.mem_cons])) hrp q
      hq
    rwa [mem_map_key_addNew, List.map_cons, List.mem_cons] at hmem
  · obtain ⟨n, rfl⟩ : ∃ k, n = k + 1 :=
      Nat.exists_eq_succ_of_ne_zero (Nat.ne_of_gt (Nat.lt_of_lt_of_le
        (Nat.zero_lt_of_lt (prog.callees_lt r q hq)) (Nat.le_of_lt_succ hn)))
    have hvisit : (q, accepted) ∈ (prog.package r).callees.flatMap fun q =>
        visits prog (n + 1) q accepted :=
      List.mem_flatMap.mpr ⟨q, hq, by
        rw [visits_succ]
        exact List.mem_cons_self⟩
    exact Or.inr (Or.inr (List.mem_map_of_mem hvisit))
  · have hdone : r ∈ done.map Prod.fst := by
      rcases hr with hr | rfl | hr
      · exact hr
      · exact absurd hrp (Nat.lt_irrefl _)
      · obtain ⟨x, hx, rfl⟩ := List.mem_map.mp hr
        obtain ⟨q', hq', hx⟩ := List.mem_flatMap.mp hx
        have hlt := Nat.lt_of_le_of_lt (le_of_mem_visits x hx) (prog.callees_lt p q' hq')
        exact absurd hrp (Nat.lt_asymm hlt)
    exact Or.inl (h r hdone hrm q hq)

/-- **A visit**, for a bound below which no visited package is still under conversion. -/
theorem visited_visit {n : ℕ} : ∀ {m p : ℕ} {c : Converter}, p < n → p < m →
    Closed prog m c.parsers →
      Visited prog m (visits prog n p (c.offsetsStack.headD [])) c (visit prog n p c) := by
  induction n with
  | zero => exact fun hn => absurd hn (Nat.not_lt_zero _)
  | succ n ih =>
      intro m p c hn hm hclosed
      rw [visit]
      by_cases hp : p ∈ c.parsers.map Prod.fst
      · rw [if_pos hp]
        have hself : addNew Prod.fst c.parsers
            (visits prog (n + 1) p (c.offsetsStack.headD [])) = c.parsers :=
          addNew_eq_self (hclosed.target_mem hm hp)
        exact ⟨rfl, hself.symm, hclosed, fun _ hx => Or.inl hx⟩
      · rw [if_neg hp, visits_succ]
        have hstart : Closed prog p (c.preorderParser p (prog.package p)).parsers := by
          intro r hr hrp q hq
          rw [Converter.preorderParser, List.map_append, List.mem_append] at hr ⊢
          have hr' : r ∈ c.parsers.map Prod.fst :=
            hr.resolve_right fun h => Nat.ne_of_lt hrp (List.mem_singleton.mp h)
          exact Or.inl (hclosed r hr' (Nat.lt_trans hrp hm) q hq)
        have hlt : ∀ q ∈ (prog.package p).callees, q < n ∧ q < p := fun q hq =>
          ⟨Nat.lt_of_lt_of_le (prog.callees_lt p q hq) (Nat.le_of_lt_succ hn),
            prog.callees_lt p q hq⟩
        have hcallees := visited_callees ih hlt hstart
        generalize (prog.package p).callees.foldl (fun c q => visit prog n q c)
          (c.preorderParser p (prog.package p)) = c₂ at hcallees ⊢
        have hstack : c₂.offsetsStack.tail = c.offsetsStack := congrArg List.tail hcallees.stack
        have hparsers := hcallees.parsers
        rw [Converter.preorderParser, ← addNew_cons_of_notMem hp] at hparsers
        refine ⟨hstack, hparsers, ?_, fun x hx => ?_⟩
        · have hclosed' := hcallees.closed
          show Closed prog m c₂.parsers
          rw [hparsers] at hclosed' ⊢
          exact hclosed.of_callees hn hclosed'
        · rcases List.mem_append.mp hx with hx | hx
          · exact hcallees.deparsers x hx
          · right
            have hx' : x = (p, c.offsetsStack.headD []) := by
              rw [List.mem_singleton.mp hx]
              exact congrArg (fun stack => (p, stack.headD [])) hstack
            show x ∈ c₂.parsers
            rw [hcallees.parsers, hx']
            exact subset_addNew (List.mem_append_right _ (List.mem_singleton_self _))

variable (prog) in
theorem visited_convert : Visited prog (prog.main + 1) (visits prog (prog.main + 1) prog.main [0])
    ⟨[[0]], [], []⟩ (convert prog) :=
  visited_visit (c := ⟨[[0]], [], []⟩) (Nat.lt_succ_self _) (Nat.lt_succ_self _)
    fun _ hp => absurd hp List.not_mem_nil

/-- A package is converted with the offsets along the first chain of calls to it. -/
theorem mem_parsers_iff {q : ℕ} {offsets : List ℕ} : (q, offsets) ∈ (convert prog).parsers ↔
    ∃ c, firstChain prog q = some c ∧ offsets = offsetsAlong prog [0] c := by
  have hfind : (visits prog (prog.main + 1) prog.main [0]).find? (fun x => x.1 = q) =
      (firstChain prog q).map fun c => (target c, offsetsAlong prog [0] c) :=
    List.find?_map
  rw [(visited_convert prog).parsers, mem_addNew_iff]
  show (_ ∈ [] ∨ _ ∧ (visits prog (prog.main + 1) prog.main [0]).find? (fun x => x.1 = q) = _) ↔ _
  rw [hfind, Option.map_eq_some_iff]
  constructor
  · rintro (h | ⟨-, c, hc, heq⟩)
    · exact absurd h List.not_mem_nil
    · exact ⟨c, hc, (Prod.mk.inj heq).2.symm⟩
  · rintro ⟨c, hc, rfl⟩
    have htarget : target c = q :=
      of_decide_eq_true (List.find?_some (p := fun c => target c = q) hc)
    exact Or.inr ⟨List.not_mem_nil, c, hc, by rw [htarget]⟩

theorem mem_parsers_of_mem_deparsers {x : ℕ × List ℕ} (h : x ∈ (convert prog).deparsers) :
    x ∈ (convert prog).parsers :=
  ((visited_convert prog).deparsers x h).resolve_left List.not_mem_nil

/-! ## Sums of picks -/

theorem offsetsAlong_eq : ∀ (c : List ℕ) (offsets : List ℕ), offsetsAlong prog offsets c =
    offsets.flatMap fun o => (picks prog c).map fun l => o + l.sum
  | [], offsets => by simp [offsetsAlong, picks]
  | [_], offsets => by simp [offsetsAlong, picks]
  | p :: q :: c, offsets => by
      rw [offsetsAlong, offsetsAlong_eq (q :: c), Package.acceptedPktOffset, List.flatMap_assoc]
      refine congrArg (List.flatMap · offsets) ?_
      ext1 o
      rw [List.flatMap_map, picks, List.map_flatMap]
      refine congrArg (List.flatMap · _) ?_
      ext1 a
      rw [List.map_map]
      refine List.map_congr_left fun l _ => ?_
      show o + a + l.sum = o + (a :: l).sum
      rw [List.sum_cons, Nat.add_assoc]

theorem offsetsAlong_zero (c : List ℕ) :
    offsetsAlong prog [0] c = (picks prog c).map List.sum := by
  rw [offsetsAlong_eq, List.flatMap_singleton]
  exact List.map_congr_left fun l _ => Nat.zero_add _

theorem nodup_picks : ∀ c : List ℕ, (picks prog c).Nodup
  | [] => List.nodup_singleton _
  | [_] => List.nodup_singleton _
  | p :: q :: c => by
      refine List.nodup_flatMap.mpr ⟨fun o _ => ?_, ?_⟩
      · exact (nodup_picks (q :: c)).map fun _ _ h => (List.cons.inj h).2
      · refine (prog.package p).nodup_currentParserOffsets.imp fun hne => ?_
        intro l hl hl'
        obtain ⟨t, -, rfl⟩ := List.mem_map.mp hl
        obtain ⟨t', -, heq⟩ := List.mem_map.mp hl'
        exact hne (List.cons.inj heq).1.symm

/-! ## The offsets at run time -/

/-- The offsets a package is called at are the sums of picks along the chains to it. -/
theorem reflTransGen_call_iff {n : ℕ} : ∀ {p i q v : ℕ}, p < n →
    (Relation.ReflTransGen (Call prog) (p, i) (q, v) ↔
      ∃ c ∈ chains prog n p, target c = q ∧ ∃ l ∈ picks prog c, v = i + l.sum) := by
  induction n with
  | zero => exact fun h => absurd h (Nat.not_lt_zero _)
  | succ n ih =>
      intro p i q v hp
      have hlt : ∀ r ∈ (prog.package p).callees, r < n := fun r hr =>
        Nat.lt_of_lt_of_le (prog.callees_lt p r hr) (Nat.le_of_lt_succ hp)
      constructor
      · intro h
        rcases Relation.ReflTransGen.cases_head h with heq | ⟨⟨r, j⟩, ⟨hr, o, ho, hj⟩, h⟩
        · obtain ⟨rfl, rfl⟩ := Prod.mk.inj heq
          exact ⟨[p], List.mem_cons_self, rfl, [], List.mem_singleton_self _, rfl⟩
        · obtain ⟨c, hc, htarget, l, hl, rfl⟩ := (ih (hlt r hr)).mp h
          obtain ⟨t, rfl⟩ := exists_cons_of_mem_chains hc
          refine ⟨p :: r :: t, ?_, htarget, o :: l, ?_, ?_⟩
          · exact List.mem_cons_of_mem _
              (List.mem_flatMap.mpr ⟨r, hr, List.mem_map_of_mem hc⟩)
          · exact List.mem_flatMap.mpr ⟨o, Package.mem_currentParserOffsets.mpr ho,
              List.mem_map_of_mem hl⟩
          · have hj' : j = i + o := hj
            rw [hj', List.sum_cons, Nat.add_assoc]
      · rintro ⟨c, hc, htarget, l, hl, rfl⟩
        rcases List.mem_cons.mp hc with rfl | hc
        · obtain rfl := List.mem_singleton.mp hl
          obtain rfl : p = q := htarget
          exact Relation.ReflTransGen.refl
        · obtain ⟨r, hr, hc⟩ := List.mem_flatMap.mp hc
          obtain ⟨c, hchain, rfl⟩ := List.mem_map.mp hc
          obtain ⟨t, rfl⟩ := exists_cons_of_mem_chains hchain
          obtain ⟨o, ho, hpick⟩ := List.mem_flatMap.mp hl
          obtain ⟨rest, hrest, rfl⟩ := List.mem_map.mp hpick
          have hcall : Call prog (p, i) (r, i + o) :=
            ⟨hr, o, Package.mem_currentParserOffsets.mp ho, rfl⟩
          refine Relation.ReflTransGen.head hcall ((ih (hlt r hr)).mpr
            ⟨r :: t, hchain, htarget, rest, hrest, ?_⟩)
          rw [List.sum_cons, Nat.add_assoc]

theorem reaches_iff {q v : ℕ} : Reaches prog q v ↔
    ∃ c ∈ callChains prog, target c = q ∧ ∃ l ∈ picks prog c, v = l.sum := by
  refine (reflTransGen_call_iff (Nat.lt_succ_self _)).trans ?_
  simp only [Nat.zero_add]
  rfl

/-! ## When the offsets are right -/

theorem offsetsAlong_covers_iff {q : ℕ} {c : List ℕ} :
    (∀ v, Reaches prog q v → v ∈ offsetsAlong prog [0] c) ↔
      ∀ c' ∈ callChains prog, target c' = q → ∀ l' ∈ picks prog c',
        ∃ l ∈ picks prog c, l.sum = l'.sum := by
  rw [offsetsAlong_zero]
  constructor
  · intro h c' hc' htarget l' hl'
    exact List.mem_map.mp (h _ (reaches_iff.mpr ⟨c', hc', htarget, l', hl', rfl⟩))
  · intro h v hv
    obtain ⟨c', hc', htarget, l', hl', rfl⟩ := reaches_iff.mp hv
    exact List.mem_map.mpr (h c' hc' htarget l' hl')

theorem nodup_offsetsAlong_iff {c : List ℕ} : (offsetsAlong prog [0] c).Nodup ↔
    ∀ l ∈ picks prog c, ∀ l' ∈ picks prog c, l.sum = l'.sum → l = l' := by
  rw [offsetsAlong_zero]
  exact List.nodup_map_iff_inj_on (nodup_picks c)

/-- **The initial offsets** of every package are distinct and cover the offsets at run time
exactly if, along the first chain of calls to the package, different picks of accepting offsets
have different sums, and every sum along another chain to it is one of these. -/
theorem offsetsCover_iff : OffsetsCover prog ↔ ∀ q c, firstChain prog q = some c →
    (∀ l ∈ picks prog c, ∀ l' ∈ picks prog c, l.sum = l'.sum → l = l') ∧
      ∀ c' ∈ callChains prog, target c' = q → ∀ l' ∈ picks prog c',
        ∃ l ∈ picks prog c, l.sum = l'.sum := by
  constructor
  · intro h q c hc
    obtain ⟨hnodup, hcover⟩ := h q _ (Or.inl (mem_parsers_iff.mpr ⟨c, hc, rfl⟩))
    exact ⟨nodup_offsetsAlong_iff.mp hnodup, offsetsAlong_covers_iff.mp hcover⟩
  · intro h q offsets hconv
    obtain ⟨c, hc, rfl⟩ := mem_parsers_iff.mp (hconv.elim id mem_parsers_of_mem_deparsers)
    obtain ⟨hsums, hchains⟩ := h q c hc
    exact ⟨nodup_offsetsAlong_iff.mpr hsums, offsetsAlong_covers_iff.mpr hchains⟩

/-- Three packages, each calling the next one.  The first two accept behind an Ethernet header,
with or without a tag of four bytes. -/
def twoTags : Program where
  package
    | 2 => ⟨[112, 144], [1]⟩
    | 1 => ⟨[112, 144], [0]⟩
    | _ => ⟨[], []⟩
  main := 2
  callees_lt p q h := by
    match p with
    | 0 => exact absurd h List.not_mem_nil
    | 1 => exact (List.mem_singleton.mp h).symm ▸ Nat.one_pos
    | 2 => exact (List.mem_singleton.mp h).symm ▸ Nat.lt_succ_self 1
    | p + 3 => exact absurd h List.not_mem_nil

/-- The third one is converted with the offset behind one tag twice. -/
theorem not_offsetsCover_twoTags : ¬ OffsetsCover twoTags := by
  intro h
  have hconv : (0, offsetsAlong twoTags [0] [2, 1, 0]) ∈ (convert twoTags).parsers :=
    mem_parsers_iff.mpr ⟨[2, 1, 0], by decide, rfl⟩
  have hpicks := nodup_offsetsAlong_iff.mp (h _ _ (Or.inl hconv)).1
  have hmem : ∀ a ∈ [112, 144], ∀ b ∈ [112, 144], [a, b] ∈ picks twoTags [2, 1, 0] := by
    intro a ha b hb
    have hrest : [b] ∈ picks twoTags [1, 0] := List.mem_flatMap.mpr
      ⟨b, Package.mem_currentParserOffsets.mpr hb, List.mem_map_of_mem (List.mem_singleton_self _)⟩
    exact List.mem_flatMap.mpr
      ⟨a, Package.mem_currentParserOffsets.mpr ha, List.mem_map_of_mem hrest⟩
  exact absurd (hpicks [112, 144] (hmem _ (by decide) _ (by decide)) [144, 112]
    (hmem _ (by decide) _ (by decide)) rfl) (by decide)

end Composition
end MicroP4
