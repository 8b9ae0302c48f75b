import MicroP4.Partitioning.Reparsing

/-!
# Parsing again behind moves

The action of an entry moves headers and the rest of the stack.  Its inverse makes the moves the
other way round, but in the order in which they were made: a header goes back to its old place
before it is read, and before those that are emitted after it are read.

`MovesBack` is what has to be free for that.  Where it holds, headers are read back
(`Placed.readsBack`) and the action makes the same stack again (`Placed.again`).
-/

namespace MicroP4
namespace Partitioning

open BitString Deparser

variable {H F : Type}

/-! ## The action of an entry -/

/-- What the data of an entry satisfy: `init` is the offset they start at, and `fin` the one
behind the headers. -/
structure Placed (D : HeaderDecls H F) (bss init curr fin : ℕ) (total : ℤ)
    (data : List (EmitDatum H)) : Prop where
  widths : D.WholeBytes
  bss_lt : bss < 2 ^ 32
  bss_dvd : 8 ∣ bss
  init_dvd : 8 ∣ init
  curr_dvd : 8 ∣ curr
  init_le : init ≤ curr
  laidOut : IsLaidOut D init data
  fin_eq : fin = init + D.totalWidth (data.map EmitDatum.hdr)
  total_eq : (curr : ℤ) + total = fin
  moved : ∀ d ∈ data, d.moveOS ≠ 0 → init ≤ d.currOS ∧ d.currOS + D.width d.hdr ≤ curr

/-- Bit `p` of the stack is part of the old place of a header that moves. -/
def Source (D : HeaderDecls H F) (bss : ℕ) (d : EmitDatum H) (p : ℕ) : Prop :=
  d.moveOS ≠ 0 ∧ d.currOS ≤ p ∧ p < d.currOS + moveBlockSize D bss d

/-- The move of one header. -/
def moveCalls (D : HeaderDecls H F) (bss : ℕ) (d : EmitDatum H) : List (OpsCall H) :=
  if d.moveOS ≠ 0 ∧ moveBlockSize D bss d ≠ 0 then
    [.move d.currOS d.moveOS (moveBlockSize D bss d)] else []

/-- The move of the rest of the stack. -/
def resMove (bss curr : ℕ) (total : ℤ) : List (OpsCall H) :=
  if total ≠ 0 ∧ resiBlockSize bss curr total ≠ 0 then
    [.move curr total (resiBlockSize bss curr total)] else []

variable {D : HeaderDecls H F} {bss init curr fin : ℕ} {total : ℤ} {data : List (EmitDatum H)}

namespace Placed

theorem fin_dvd (h : Placed D bss init curr fin total data) : 8 ∣ fin := by
  rw [h.fin_eq]
  exact Nat.dvd_add h.init_dvd (h.widths.totalWidth_dvd _)

theorem resi_dvd (h : Placed D bss init curr fin total data) :
    8 ∣ resiBlockSize bss curr total :=
  (resiBlockSize_spec h.bss_lt h.bss_dvd h.curr_dvd h.fin_dvd h.total_eq).1

theorem bitAt_resMove (h : Placed D bss init curr fin total data) (vals : FieldValues H F)
    (st : ℕ → Word) (p : ℕ) : bitAt (execCalls D vals (resMove bss curr total) st) p =
      if total ≠ 0 ∧ fin ≤ p ∧ p < fin + resiBlockSize bss curr total then
        bitAt st (p - fin + curr) else bitAt st p := by
  rw [resMove]
  split
  · rename_i hmoves
    have hmove := congrFun (bitAt_move D vals h.total_eq h.curr_dvd h.fin_dvd h.resi_dvd st) p
    simp only [hmoves.1, true_and, ne_eq, not_false_eq_true]
    exact hmove
  · rw [if_neg (by omega)]
    rfl

/-- **What the action of an entry leaves on the stack.** -/
theorem bitAt_actionCallOrder (h : Placed D bss init curr fin total data)
    (vals : FieldValues H F) (st : ℕ → Word) (p : ℕ) :
    bitAt (execCalls D vals (actionCallOrder D bss data total curr) st) p =
      if total ≠ 0 ∧ fin ≤ p ∧ p < fin + resiBlockSize bss curr total then
        bitAt st (p - fin + curr)
      else writeBits init ((data.map EmitDatum.hdr).flatMap (D.hdrBits vals)) (bitAt st) p := by
  have hlen := D.length_flatMap_hdrBits vals (data.map EmitDatum.hdr)
  have hwrite := bitAt_execCalls_emitOrder h.widths vals h.bss_dvd h.init_dvd h.laidOut
  have hfin := h.fin_eq
  have htotal := h.total_eq
  have hres := h.bitAt_resMove vals
  rw [resMove] at hres
  simp only [actionCallOrder]
  by_cases hpos : total > 0
  · -- the rest moves behind the headers before they are written
    rw [if_pos hpos, execCalls_append, hwrite]
    by_cases hp : init ≤ p ∧ p < fin
    · rw [writeBits_of_mem hp.1 (by omega), if_neg (by omega), writeBits_of_mem hp.1 (by omega)]
    · have hout : ∀ s, writeBits init ((data.map EmitDatum.hdr).flatMap (D.hdrBits vals)) s p =
          s p := by
        intro s
        rw [writeBits, if_neg (by omega)]
      rw [hout, hout, hres]
  · -- the rest lies behind the headers and moves last
    rw [if_neg hpos, execCalls_append, hres, hwrite]
    split
    · rw [writeBits_of_ge (by omega)]
    · rfl

end Placed

/-! ## Taking the moves back -/

theorem undoMoves_append (l l' : List (OpsCall H)) (st : ℕ → Word) :
    undoMoves (l ++ l') st = undoMoves l' (undoMoves l st) :=
  List.foldl_append

section Header

variable {d : EmitDatum H} {p : ℕ}

/-- Outside its old place, taking a header back changes nothing. -/
theorem bitAt_undo_of_not (hD : D.WholeBytes) (hb : 8 ∣ bss) (hd : d.Aligned)
    (hp : ¬ Source D bss d p) (st : ℕ → Word) :
    bitAt (undoMoves (emitCalls D bss d) st) p = bitAt st p := by
  have hcalls : emitCalls D bss d = moveCalls D bss d ++ [.emit d.hdr d.target] := rfl
  rw [hcalls, undoMoves_append, moveCalls]
  split
  · rename_i hmoves
    refine bitAt_moveBack_of_notMem hd.eq_target hmoves.1 hd.currOS hd.target
      (dvd_moveBlockSize hD hb hd) st fun hin => hp ⟨hmoves.1, hin⟩
  · rfl

/-- In the old place stands what is copied from the new place, and from outside the old one. -/
theorem exists_bitAt_undo (hD : D.WholeBytes) (hb : 8 ∣ bss) (hd : d.Aligned)
    (hp : Source D bss d p) :
    ∃ q, (d.target ≤ q ∧ q < d.target + moveBlockSize D bss d) ∧ ¬ Source D bss d q ∧
      ∀ st, bitAt (undoMoves (emitCalls D bss d) st) p = bitAt st q := by
  obtain ⟨hmo, hlow, hhigh⟩ := hp
  obtain ⟨q, hq, hout, -, hst⟩ := exists_bitAt_moveBack hd.eq_target hmo hd.currOS hd.target
    (dvd_moveBlockSize hD hb hd) hlow hhigh
  refine ⟨q, hq, fun hsource => ?_, fun st => ?_⟩
  · obtain ⟨-, h₁, h₂⟩ := hsource
    omega
  · have hcalls : emitCalls D bss d = moveCalls D bss d ++ [.emit d.hdr d.target] := rfl
    rw [hcalls, undoMoves_append, moveCalls, if_pos ⟨hmo, by omega⟩]
    exact hst st

/-- The emission of a header is not part of what is taken back. -/
theorem undoMoves_moveCalls (m : List (EmitDatum H)) (d : EmitDatum H) (st : ℕ → Word) :
    undoMoves (m.flatMap (emitCalls D bss) ++ moveCalls D bss d) st =
      undoMoves ((m ++ [d]).flatMap (emitCalls D bss)) st := by
  have hcalls : emitCalls D bss d = moveCalls D bss d ++ [.emit d.hdr d.target] := rfl
  rw [List.flatMap_append, List.flatMap_singleton, hcalls, ← List.append_assoc,
    undoMoves_append _ [_]]
  rfl

/-- Taking headers back changes their old places only. -/
theorem bitAt_undo_flatMap_of_not (hD : D.WholeBytes) (hb : 8 ∣ bss) :
    ∀ {l : List (EmitDatum H)} (st : ℕ → Word), (∀ d ∈ l, d.Aligned ∧ ¬ Source D bss d p) →
      bitAt (undoMoves (l.flatMap (emitCalls D bss)) st) p = bitAt st p
  | [], _, _ => rfl
  | d :: l, st, h => by
      obtain ⟨hd, hp⟩ := h d List.mem_cons_self
      rw [List.flatMap_cons, undoMoves_append,
        bitAt_undo_flatMap_of_not hD hb _ fun e he => h e (List.mem_cons_of_mem d he),
        bitAt_undo_of_not hD hb hd hp]

end Header

/-! ## The calls of an action -/

theorem actionCallOrder_eq : actionCallOrder D bss data total curr =
    (if total > 0 then resMove bss curr total else []) ++
      ((emitOrder [] data.reverse).flatMap (emitCalls D bss) ++
        if total > 0 then [] else resMove bss curr total) := by
  simp only [actionCallOrder, resMove]
  split
  · rw [List.append_nil]
  · rw [List.nil_append]

theorem emit_notMem_resMove {h : H} {start : ℕ} :
    OpsCall.emit h start ∉ resMove bss curr total := by
  rw [resMove]
  split <;> simp

theorem emit_notMem_moveCalls {h : H} {start : ℕ} {d : EmitDatum H} :
    OpsCall.emit h start ∉ moveCalls D bss d := by
  rw [moveCalls]
  split <;> simp

/-- A call that is not in front of a list of calls is in that list. -/
theorem exists_of_append_eq {α : Type} {pre x l l' : List α} {c : α}
    (h : pre ++ x = l ++ c :: l') (hc : c ∉ pre) : ∃ l₀, l = pre ++ l₀ ∧ x = l₀ ++ c :: l' := by
  rcases List.append_eq_append_iff.mp h with ⟨a, hl, hx⟩ | ⟨a, hpre, hcons⟩
  · exact ⟨a, hl, hx⟩
  · cases a with
    | nil =>
        rw [List.append_nil] at hpre
        exact ⟨[], by rw [hpre, List.append_nil], hcons.symm⟩
    | cons b a =>
        obtain ⟨rfl, -⟩ := List.cons.inj hcons
        refine absurd ?_ hc
        rw [hpre]
        exact List.mem_append_right _ List.mem_cons_self

/-- The emissions of an action are those of the headers, in the emit order. -/
theorem exists_datum_of_split {post : List (OpsCall H)} {h : H} {start : ℕ}
    (hpost : OpsCall.emit h start ∉ post) : ∀ {order : List (EmitDatum H)}
    {l l' : List (OpsCall H)},
    order.flatMap (emitCalls D bss) ++ post = l ++ .emit h start :: l' →
    ∃ m d m', order = m ++ d :: m' ∧ d.hdr = h ∧ d.target = start ∧
      l = m.flatMap (emitCalls D bss) ++ moveCalls D bss d ∧
      l' = m'.flatMap (emitCalls D bss) ++ post
  | [], l, l', hsplit => by
      refine absurd ?_ hpost
      rw [List.flatMap_nil, List.nil_append] at hsplit
      rw [hsplit]
      exact List.mem_append_right _ List.mem_cons_self
  | d :: order, l, l', hsplit => by
      have hcalls : emitCalls D bss d = moveCalls D bss d ++ [.emit d.hdr d.target] := rfl
      rw [List.flatMap_cons, hcalls, List.append_assoc, List.append_assoc] at hsplit
      obtain ⟨l₀, rfl, hrest⟩ := exists_of_append_eq hsplit emit_notMem_moveCalls
      cases l₀ with
      | nil =>
          obtain ⟨heq, rfl⟩ := List.cons.inj hrest
          obtain ⟨hhdr, hstart⟩ := OpsCall.emit.inj heq
          exact ⟨[], d, order, rfl, hhdr, hstart, by simp, rfl⟩
      | cons c l₀ =>
          obtain ⟨rfl, htail⟩ := List.cons.inj hrest
          obtain ⟨m, e, m', rfl, hhdr, hstart, rfl, rfl⟩ := exists_datum_of_split hpost htail
          refine ⟨d :: m, e, m', rfl, hhdr, hstart, ?_, rfl⟩
          rw [List.flatMap_cons, hcalls]
          simp

/-- The calls of an action, up to the emission of one header and from there on. -/
theorem actionCallOrder_split {m m' : List (EmitDatum H)} {c : EmitDatum H}
    (horder : emitOrder [] data.reverse = m ++ c :: m') :
    actionCallOrder D bss data total curr =
      ((if total > 0 then resMove bss curr total else []) ++
        (m.flatMap (emitCalls D bss) ++ moveCalls D bss c)) ++ .emit c.hdr c.target ::
        (m'.flatMap (emitCalls D bss) ++ if total > 0 then [] else resMove bss curr total) := by
  have hcalls : emitCalls D bss c = moveCalls D bss c ++ [.emit c.hdr c.target] := rfl
  rw [actionCallOrder_eq, horder, List.flatMap_append, List.flatMap_cons, hcalls]
  simp only [List.append_assoc, List.cons_append, List.nil_append]

theorem mem_emitOrder {l : List (EmitDatum H)} {d : EmitDatum H} :
    d ∈ emitOrder [] l.reverse ↔ d ∈ l :=
  ((emitOrder_perm [] _).trans (List.reverse_perm l)).mem_iff

/-! ## When the moves are taken back -/

/-- **What the inverse of an action needs.**  In the order of the calls, no header goes where
what is taken back with it or before it belongs; the packet does not push bytes off the end of
the stack, and if it shrinks, what follows it fits behind its new end and nothing else comes
from there. -/
structure MovesBack (D : HeaderDecls H F) (bss curr : ℕ) (total : ℤ)
    (data : List (EmitDatum H)) : Prop where
  apart : (emitOrder [] data.reverse).Pairwise fun d c => c.Spares D bss d
  self : ∀ d ∈ data, d.Spares D bss d
  grows : 0 < total → resiBlockSize bss curr total = 0
  shrinks : total < 0 → (resiBlockSize bss curr total : ℤ) + total ≤ 0
  clear : total < 0 → ∀ d ∈ data, ∀ p, Source D bss d p → (p : ℤ) < curr + total

theorem not_source_of_spares {a d : EmitDatum H} {p : ℕ} (h : a.Spares D bss d)
    (hlow : a.target ≤ p) (hhigh : p < a.target + D.width a.hdr) : ¬ Source D bss d p := by
  rintro ⟨hmo, hsource, hend⟩
  have hspared := h hmo p hlow hhigh hsource
  omega

theorem spares_of_not_source {a d : EmitDatum H} (h : ∀ p, a.target ≤ p →
    p < a.target + D.width a.hdr → ¬ Source D bss d p) : a.Spares D bss d := by
  intro hmo p hlow hhigh hsource
  by_contra hend
  exact h p hlow hhigh ⟨hmo, hsource, by omega⟩

namespace Placed

variable (h : Placed D bss init curr fin total data)
include h

theorem aligned {d : EmitDatum H} (hd : d ∈ data) : d.Aligned :=
  h.laidOut.aligned h.widths h.init_dvd hd

/-- The old place of a header that moves lies in front of the end of the parsed headers. -/
theorem source_bounds {d : EmitDatum H} (hd : d ∈ data) {p : ℕ} (hp : Source D bss d p) :
    init ≤ p ∧ p < curr := by
  obtain ⟨hmo, hlow, hhigh⟩ := hp
  have hmoved := h.moved d hd hmo
  have hsize := moveBlockSize_le D bss d
  omega

/-- The new place of a header. -/
theorem target_bounds {d : EmitDatum H} (hd : d ∈ data) :
    init ≤ d.target ∧ d.target + D.width d.hdr ≤ fin := by
  rw [h.fin_eq]
  exact h.laidOut.bounds hd

/-- The bits of a header, among those of all. -/
theorem readBits_header {d : EmitDatum H} (hd : d ∈ data) (vals : FieldValues H F) (s : Bits) :
    readBits (writeBits init ((data.map EmitDatum.hdr).flatMap (D.hdrBits vals)) s) d.target
      (D.width d.hdr) = D.hdrBits vals d.hdr := by
  obtain ⟨m, m', rfl⟩ := List.append_of_mem hd
  have hread := readBits_writeBits_append init ((m.map EmitDatum.hdr).flatMap (D.hdrBits vals))
    (D.hdrBits vals d.hdr) ((m'.map EmitDatum.hdr).flatMap (D.hdrBits vals)) s
  rw [D.length_flatMap_hdrBits, D.length_hdrBits, ← h.laidOut.target m d m' rfl] at hread
  rw [List.map_append, List.map_cons, List.flatMap_append, List.flatMap_cons]
  exact hread

/-- What stands between the first offset and the end of the headers. -/
theorem bitAt_actionCallOrder_of_lt (vals : FieldValues H F) (st : ℕ → Word) {p : ℕ}
    (hp : p < fin) :
    bitAt (execCalls D vals (actionCallOrder D bss data total curr) st) p =
      writeBits init ((data.map EmitDatum.hdr).flatMap (D.hdrBits vals)) (bitAt st) p := by
  rw [h.bitAt_actionCallOrder, if_neg (by omega)]

/-- **The headers are read back.** -/
theorem readsBack (hm : MovesBack D bss curr total data) (vals : FieldValues H F)
    (st : ℕ → Word) : ReadsBack D vals (actionCallOrder D bss data total curr)
      (execCalls D vals (actionCallOrder D bss data total curr) st) := by
  intro l hdr start l' hsplit hlast
  have hpre : (if total > 0 then resMove bss curr total else []) = ([] : List (OpsCall H)) := by
    split
    · rename_i hpos
      rw [resMove, if_neg fun hmoves => hmoves.2 (hm.grows hpos)]
    · rfl
  have hpost : OpsCall.emit hdr start ∉ if total > 0 then [] else resMove bss curr total := by
    split
    · exact List.not_mem_nil
    · exact emit_notMem_resMove
  rw [actionCallOrder_eq, hpre, List.nil_append] at hsplit
  obtain ⟨m, d, m', horder, rfl, rfl, rfl, -⟩ := exists_datum_of_split hpost hsplit
  have hd : d ∈ data := by
    rw [← mem_emitOrder (l := data), horder]
    exact List.mem_append_right m List.mem_cons_self
  have htarget := h.target_bounds hd
  -- nothing that is taken back up to here goes where the header stands
  have hclear : ∀ p, d.target ≤ p → p < d.target + D.width d.hdr →
      ∀ e ∈ m ++ [d], e.Aligned ∧ ¬ Source D bss e p := by
    intro p hlow hhigh e he
    have hspares : d.Spares D bss e := by
      rcases List.mem_append.mp he with he | he
      · have hpair := hm.apart
        rw [horder, List.pairwise_append] at hpair
        exact hpair.2.2 e he d List.mem_cons_self
      · rw [List.mem_singleton.mp he]
        exact hm.self d hd
    have hmem : e ∈ data := by
      rw [← mem_emitOrder (l := data), horder]
      rcases List.mem_append.mp he with he | he
      · exact List.mem_append_left _ he
      · rw [List.mem_singleton.mp he]
        exact List.mem_append_right m List.mem_cons_self
    exact ⟨h.aligned hmem, not_source_of_spares hspares hlow hhigh⟩
  rw [undoMoves_moveCalls]
  refine (readBits_congr fun p hlow hhigh => ?_).trans (h.readBits_header hd vals (bitAt st))
  rw [bitAt_undo_flatMap_of_not h.widths h.bss_dvd _ (hclear p hlow hhigh),
    h.bitAt_actionCallOrder_of_lt vals st (by omega)]

/-- Taking the rest of the stack back changes its old place only. -/
theorem bitAt_undo_resMove_of_not (st : ℕ → Word) {p : ℕ}
    (hp : ¬ (curr ≤ p ∧ p < curr + resiBlockSize bss curr total)) :
    bitAt (undoMoves (resMove (H := H) bss curr total) st) p = bitAt st p := by
  rw [resMove]
  split
  · rename_i hmoves
    exact bitAt_moveBack_of_notMem h.total_eq hmoves.1 h.curr_dvd h.fin_dvd h.resi_dvd st hp
  · rfl

/-- In the old place of the rest stands what is copied from the new one. -/
theorem exists_bitAt_undo_resMove (htotal : total ≠ 0) {p : ℕ} (hlow : curr ≤ p)
    (hhigh : p < curr + resiBlockSize bss curr total) :
    ∃ q, (fin ≤ q ∧ q < fin + resiBlockSize bss curr total) ∧
      (q < curr ∨ curr + resiBlockSize bss curr total ≤ q) ∧
      (fin + resiBlockSize bss curr total ≤ curr ∨ curr + resiBlockSize bss curr total ≤ fin →
        q = p - curr + fin) ∧
      ∀ st, bitAt (undoMoves (resMove (H := H) bss curr total) st) p = bitAt st q := by
  have hback := exists_bitAt_moveBack h.total_eq htotal h.curr_dvd h.fin_dvd h.resi_dvd hlow hhigh
  rw [resMove, if_pos ⟨htotal, by omega⟩]
  exact hback

omit h in
theorem undoMoves_actionCallOrder_of_neg (hneg : total < 0) (st : ℕ → Word) :
    undoMoves (actionCallOrder D bss data total curr) st =
      undoMoves (resMove (H := H) bss curr total)
        (undoMoves ((emitOrder [] data.reverse).flatMap (emitCalls D bss)) st) := by
  rw [actionCallOrder_eq, if_neg (by omega), if_neg (by omega), List.nil_append,
    undoMoves_append]

omit h in
theorem undoMoves_actionCallOrder_of_pos (hpos : 0 < total) (st : ℕ → Word) :
    undoMoves (actionCallOrder D bss data total curr) st =
      undoMoves ((emitOrder [] data.reverse).flatMap (emitCalls D bss))
        (undoMoves (resMove (H := H) bss curr total) st) := by
  rw [actionCallOrder_eq, if_pos hpos, if_pos hpos, List.append_nil, undoMoves_append]

/-- What no header comes from stays, whatever is done to the headers. -/
theorem bitAt_undo_headers {p : ℕ} (hp : ∀ d ∈ data, ¬ Source D bss d p) (st : ℕ → Word) :
    bitAt (undoMoves ((emitOrder [] data.reverse).flatMap (emitCalls D bss)) st) p =
      bitAt st p :=
  bitAt_undo_flatMap_of_not h.widths h.bss_dvd st fun d hd =>
    ⟨h.aligned (mem_emitOrder.mp hd), hp d (mem_emitOrder.mp hd)⟩

/-- **The action makes the same stack again.** -/
theorem again (hm : MovesBack D bss curr total data) (vals : FieldValues H F) (st : ℕ → Word) :
    bitAt (execCalls D vals (actionCallOrder D bss data total curr)
      (undoMoves (actionCallOrder D bss data total curr)
        (execCalls D vals (actionCallOrder D bss data total curr) st))) =
      bitAt (execCalls D vals (actionCallOrder D bss data total curr) st) := by
  have htotal := h.total_eq
  have hinit := h.init_le
  have hout : ∀ (s : Bits) {q : ℕ}, ¬ (init ≤ q ∧ q < fin) →
      writeBits init ((data.map EmitDatum.hdr).flatMap (D.hdrBits vals)) s q = s q := by
    intro s q hq
    have hlen := D.length_flatMap_hdrBits vals (data.map EmitDatum.hdr)
    rw [writeBits, if_neg (by rw [hlen, ← h.fin_eq]; exact hq)]
  have hin : ∀ (s s' : Bits) {q : ℕ}, init ≤ q ∧ q < fin →
      writeBits init ((data.map EmitDatum.hdr).flatMap (D.hdrBits vals)) s q =
        writeBits init ((data.map EmitDatum.hdr).flatMap (D.hdrBits vals)) s' q := by
    intro s s' q hq
    have hlen := D.length_flatMap_hdrBits vals (data.map EmitDatum.hdr)
    have hlt : q < init + ((data.map EmitDatum.hdr).flatMap (D.hdrBits vals)).length := by
      rw [hlen, ← h.fin_eq]
      exact hq.2
    rw [writeBits_of_mem hq.1 hlt, writeBits_of_mem hq.1 hlt]
  have hrun := h.bitAt_actionCallOrder vals
  obtain ⟨st₁, hst₁⟩ : ∃ st₁, st₁ = execCalls D vals (actionCallOrder D bss data total curr) st :=
    ⟨_, rfl⟩
  rw [← hst₁]
  funext p
  rw [hrun]
  conv_rhs => rw [hst₁, hrun]
  by_cases hp : init ≤ p ∧ p < fin
  · rw [if_neg (by omega), if_neg (by omega), hin _ _ hp]
  rw [hout _ hp, hout _ hp]
  rcases Int.lt_or_le total 0 with hneg | hnonneg
  · -- the packet shrank: the rest is taken back to a place that is free
    have hshrinks := hm.shrinks hneg
    have hclear : ∀ q, fin ≤ q → ∀ d ∈ data, ¬ Source D bss d q := by
      intro q hq d hd hsource
      have hlt := hm.clear hneg d hd q hsource
      omega
    rw [undoMoves_actionCallOrder_of_neg hneg]
    split
    · rename_i hmoved
      obtain ⟨q, -, -, hq, hst⟩ := h.exists_bitAt_undo_resMove (p := p - fin + curr) hneg.ne
        (by omega) (by omega)
      have hqp : q = p := by
        have hapart := hq (by omega)
        omega
      rw [hst, hqp, h.bitAt_undo_headers (hclear p hmoved.2.1), hst₁, hrun, if_pos hmoved]
    · rename_i hkept
      by_cases hback : curr ≤ p ∧ p < curr + resiBlockSize bss curr total
      · obtain ⟨q, hqb, -, hq, hst⟩ := h.exists_bitAt_undo_resMove hneg.ne hback.1 hback.2
        have hqp := hq (by omega)
        have hpq : q - fin + curr = p := by omega
        rw [hst, h.bitAt_undo_headers (hclear q hqb.1), hst₁, hrun, if_pos ⟨hneg.ne, hqb⟩, hpq]
      · have hfree : ∀ d ∈ data, ¬ Source D bss d p := by
          intro d hd hsource
          have hbounds := h.source_bounds hd hsource
          have hlt := hm.clear hneg d hd p hsource
          omega
        rw [h.bitAt_undo_resMove_of_not _ hback, h.bitAt_undo_headers hfree, hst₁, hrun,
          if_neg hkept, hout _ hp]
  · -- the packet did not shrink: all old places are inside the headers
    have hfree : ∀ q, ¬ (init ≤ q ∧ q < fin) → ∀ d ∈ data, ¬ Source D bss d q := by
      intro q hq d hd hsource
      have hbounds := h.source_bounds hd hsource
      omega
    have hundo : undoMoves (actionCallOrder D bss data total curr) st₁ =
        undoMoves ((emitOrder [] data.reverse).flatMap (emitCalls D bss)) st₁ := by
      rcases Int.lt_or_eq_of_le hnonneg with hpos | hzero
      · rw [undoMoves_actionCallOrder_of_pos hpos, resMove,
          if_neg fun hmoves => hmoves.2 (hm.grows hpos)]
        rfl
      · rw [actionCallOrder_eq, if_neg (by omega), if_neg (by omega), resMove,
          if_neg fun hmoves => hmoves.1 hzero.symm, List.nil_append, List.append_nil]
    have hstays : ¬ (total ≠ 0 ∧ fin ≤ p ∧ p < fin + resiBlockSize bss curr total) := by
      rintro ⟨hne, hlow, hhigh⟩
      rw [hm.grows (by omega)] at hhigh
      omega
    rw [if_neg hstays, if_neg hstays, hundo, h.bitAt_undo_headers (hfree p hp), hst₁, hrun,
      if_neg hstays, hout _ hp]

end Placed

end Partitioning
end MicroP4
