import MicroP4.Deparser.MoveOrder

/-!
# Runs of headers that move left

Headers that move left are emitted after the header in front of them, in their order.  Behind a
header that moves left all others do so as well, up to the next one that is inserted.
-/

namespace MicroP4
namespace Deparser

open BitString

variable {H F : Type}

/-! ## The emit order -/

section Order

variable {D : HeaderDecls H F} {init : ℕ}

/-- What holds between each header and those emitted after it. -/
theorem pairwise_emitOrder_iff {R : EmitDatum H → EmitDatum H → Prop} :
    ∀ {l : List (EmitDatum H)}, (emitOrder [] l.reverse).Pairwise R ↔
      ∀ m d m', l = m ++ d :: m' → (∀ a ∈ m'.dropWhile EmitDatum.movesLeft, R a d) ∧
        ∀ a ∈ m'.takeWhile EmitDatum.movesLeft, R d a
  | [] => by
      refine iff_of_true List.Pairwise.nil fun m d m' hl => ?_
      exact absurd hl.symm (by simp)
  | b :: l => by
      rw [pairwise_emitOrder_cons, pairwise_emitOrder_iff (l := l)]
      constructor
      · rintro ⟨hdrop, htake, hrest⟩ m d m' hl
        rcases m with _ | ⟨c, m⟩
        · obtain ⟨rfl, rfl⟩ := List.cons.inj hl
          exact ⟨hdrop, htake⟩
        · exact hrest m d m' (List.cons.inj hl).2
      · intro hall
        exact ⟨(hall [] b l rfl).1, (hall [] b l rfl).2, fun m d m' hl =>
          hall (b :: m) d m' (by rw [hl]; rfl)⟩

/-- A header that does not move left is not part of a run of those that do. -/
theorem mem_dropWhile_movesLeft {a : EmitDatum H} (ha : 0 ≤ a.moveOS) :
    ∀ {l : List (EmitDatum H)}, a ∈ l → a ∈ l.dropWhile EmitDatum.movesLeft
  | b :: l, hmem => by
      rw [List.dropWhile_cons]
      split
      · rename_i hleft
        rcases List.mem_cons.mp hmem with rfl | hmem
        · have hlt : a.moveOS < 0 := of_decide_eq_true hleft
          omega
        · exact mem_dropWhile_movesLeft ha hmem
      · exact hmem

/-- The headers in front of others are laid out alike. -/
theorem isLaidOut_of_append {m m' : List (EmitDatum H)} (h : IsLaidOut D init (m ++ m')) :
    IsLaidOut D init m where
  target l d l' hl := h.target l d (l' ++ m') (by rw [hl, List.append_assoc, List.cons_append])
  currOS d hd := h.currOS d (List.mem_append_left m' hd)
  nonneg d hd := h.nonneg d (List.mem_append_left m' hd)

/-- The headers from one on. -/
theorem isLaidOut_suffix {m m' : List (EmitDatum H)} {d : EmitDatum H}
    (h : IsLaidOut D init (m ++ d :: m')) : IsLaidOut D d.target (d :: m') := by
  have hsuffix := h.suffix
  rwa [← h.target m d m' rfl] at hsuffix

end Order

/-! ## The data of a row -/

section Row

variable [DecidableEq H]

/-- A column whose header a record inserts. -/
def HdrValidityOps.inserts (ops : HdrValidityOps H) (c : H × Bool) : Bool :=
  !c.2 && decide (c.1 ∈ ops.setValid)

variable {D : OpsInput H F} {e : OpsRow H}

/-- The headers of the data are those that are valid afterwards. -/
theorem endAfter_add_totalWidth : ∀ (cs keys : List (H × Bool)),
    e.endAfter D keys + D.totalWidth ((e.dataFrom D keys cs).map EmitDatum.hdr) =
      e.endAfter D (keys ++ cs)
  | [], keys => by rw [List.append_nil, OpsRow.dataFrom, List.map_nil, D.totalWidth_nil]; rfl
  | (h, value) :: cs, keys => by
      have ih := endAfter_add_totalWidth cs (keys ++ [(h, value)])
      rw [List.append_assoc, List.singleton_append] at ih
      rw [OpsRow.dataFrom, List.map_append, D.totalWidth_append, ← ih]
      cases value with
      | false =>
        rw [endAfter_append_false]
        by_cases hv : h ∈ e.ops.setValid
        · rw [OpsRow.datum, if_pos hv, if_pos hv, List.map_singleton, D.totalWidth_singleton,
            Nat.add_assoc]
        · rw [OpsRow.datum, if_neg hv, if_neg hv, List.map_nil, D.totalWidth_nil]
          simp
      | true =>
        rw [endAfter_append_true]
        by_cases hv : h ∈ e.ops.setInvalid
        · rw [OpsRow.datum, if_pos hv, if_pos hv, List.map_nil, D.totalWidth_nil]
          simp
        · rw [OpsRow.datum, if_neg hv, List.map_singleton, D.totalWidth_singleton, if_neg hv]
          simp [Nat.add_assoc]

/-- Behind a header that moves left, those that do so as well are the ones up to the next header
that is inserted. -/
theorem takeWhile_dataFrom : ∀ (cs keys : List (H × Bool)),
    e.endAfter D keys < e.parsedEnd D keys →
    (e.dataFrom D keys cs).takeWhile EmitDatum.movesLeft =
      e.dataFrom D keys (cs.takeWhile fun c => !e.ops.inserts c)
  | [], _, _ => rfl
  | (h, value) :: cs, keys, hlt => by
      have ih := takeWhile_dataFrom cs (keys ++ [(h, value)])
      rw [parsedEnd_append] at ih
      rw [OpsRow.dataFrom, List.takeWhile_cons]
      cases value with
      | false =>
        rw [endAfter_append_false] at ih
        by_cases hv : h ∈ e.ops.setValid
        · have hin : e.ops.inserts (h, false) = true := by
            simp [HdrValidityOps.inserts, hv]
          rw [hin, OpsRow.datum, if_pos hv]
          rfl
        · have hin : e.ops.inserts (h, false) = false := by
            simp [HdrValidityOps.inserts, hv]
          rw [if_neg hv] at ih
          rw [hin, OpsRow.datum, if_neg hv, List.nil_append, ih (by simp; omega)]
          simp [OpsRow.dataFrom, OpsRow.datum, hv]
      | true =>
        have hin : e.ops.inserts (h, true) = false := rfl
        rw [endAfter_append_true] at ih
        by_cases hv : h ∈ e.ops.setInvalid
        · rw [if_pos hv] at ih
          rw [hin, OpsRow.datum, if_pos hv, List.nil_append, ih (by simp; omega)]
          simp [OpsRow.dataFrom, OpsRow.datum, hv]
        · have hleft : EmitDatum.movesLeft ⟨e.parsedEnd D keys,
              (e.endAfter D keys : ℤ) - e.parsedEnd D keys, h⟩ = true :=
            decide_eq_true (by dsimp only; omega)
          rw [if_neg hv] at ih
          rw [hin, OpsRow.datum, if_neg hv, List.singleton_append,
            List.takeWhile_cons_of_pos hleft, ih (by simp; omega)]
          simp [OpsRow.dataFrom, OpsRow.datum, hv]

/-- What holds of each datum and those behind it, column by column. -/
theorem forall_split_dataFrom {Q : EmitDatum H → List (EmitDatum H) → Prop} :
    ∀ (cs keys : List (H × Bool)),
      (∀ m d m', e.dataFrom D keys cs = m ++ d :: m' → Q d m') ↔
        ∀ l c l', cs = l ++ c :: l' → ∀ d ∈ e.datum D (keys ++ l) c,
          Q d (e.dataFrom D (keys ++ l ++ [c]) l')
  | [], keys => by simp [OpsRow.dataFrom]
  | a :: cs, keys => by
      have ih := forall_split_dataFrom (Q := Q) cs (keys ++ [a])
      have hdatum : e.datum D keys a = [] ∨ ∃ d, e.datum D keys a = [d] := by
        obtain ⟨h, value⟩ := a
        cases value <;> rw [OpsRow.datum] <;> split <;> simp
      have hfirst : (∀ m d m', e.dataFrom D keys (a :: cs) = m ++ d :: m' → Q d m') ↔
          (∀ d ∈ e.datum D keys a, Q d (e.dataFrom D (keys ++ [a]) cs)) ∧
            ∀ m d m', e.dataFrom D (keys ++ [a]) cs = m ++ d :: m' → Q d m' := by
        rw [OpsRow.dataFrom]
        rcases hdatum with hd | ⟨b, hd⟩
        · rw [hd, List.nil_append]
          exact (and_iff_right fun _ hd => absurd hd List.not_mem_nil).symm
        · rw [hd, List.singleton_append]
          constructor
          · intro hall
            refine ⟨fun d hmem => ?_, fun m d m' hsplit => ?_⟩
            · rw [List.mem_singleton.mp hmem]
              exact hall [] b _ rfl
            · exact hall (b :: m) d m' (by rw [hsplit]; rfl)
          · rintro ⟨hb, hall⟩ m d m' hsplit
            rcases m with _ | ⟨c, m⟩
            · obtain ⟨rfl, rfl⟩ := List.cons.inj hsplit
              exact hb b List.mem_cons_self
            · exact hall m d m' (List.cons.inj hsplit).2
      rw [hfirst, ih]
      constructor
      · rintro ⟨ha, hall⟩ l c l' hcs d hmem
        rcases l with _ | ⟨b, l⟩
        · obtain ⟨rfl, rfl⟩ := List.cons.inj hcs
          rw [List.append_nil] at hmem ⊢
          exact ha d hmem
        · obtain ⟨rfl, htail⟩ := List.cons.inj hcs
          have hq := hall l c l' htail d
          rw [List.append_assoc keys, List.singleton_append] at hq
          exact hq hmem
      · intro hall
        refine ⟨fun d hmem => ?_, fun l c l' hcs d hmem => ?_⟩
        · have hq := hall [] a cs rfl d
          rw [List.append_nil] at hq
          exact hq hmem
        · have hq := hall (a :: l) c l' (by rw [hcs]; rfl) d
          rw [List.append_assoc keys, List.singleton_append] at hmem ⊢
          exact hq hmem

end Row

end Deparser
end MicroP4
