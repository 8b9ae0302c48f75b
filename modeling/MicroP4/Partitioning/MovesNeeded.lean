import MicroP4.Deparser.EmitLayout
import MicroP4.Partitioning.ReparsingMoves

/-!
# What taking moves back needs

The conditions of `MovesBack` are necessary.  A header with one bit set leaves one bit on an empty
stack, and that bit is read back only if nothing was moved to its place before
(`Placed.untouched`).  What lies behind the headers is compared with the stack that is made again:
one bit behind what a shrunken packet can take back, or headers of ones that leave a trace behind
the new end.

An action can also be preceded by emissions without moves.  Then it has to write all of their bits
again, and to read none of them (`Placed.losslessCalls_emissionCalls_iff`).
-/

namespace MicroP4
namespace Partitioning

open BitString Deparser

variable {H F : Type} {D : HeaderDecls H F} {bss init curr fin : ℕ} {total : ℤ}
  {data : List (EmitDatum H)}

/-- Two headers do not have a bit in common. -/
theorem eq_of_target {p : ℕ} {a c : EmitDatum H} : ∀ {data : List (EmitDatum H)}
    {init : ℕ}, IsLaidOut D init data → a ∈ data → c ∈ data →
    a.target ≤ p ∧ p < a.target + D.width a.hdr → c.target ≤ p ∧ p < c.target + D.width c.hdr →
    a = c
  | d :: data, init, h, ha, hc, hap, hcp => by
      obtain ⟨htarget, htail⟩ := h.tail
      rcases List.mem_cons.mp ha with had | ha'
      · rcases List.mem_cons.mp hc with hcd | hc'
        · rw [had, hcd]
        · have hbounds := htail.bounds hc'
          rw [had] at hap
          omega
      · rcases List.mem_cons.mp hc with hcd | hc'
        · have hbounds := htail.bounds ha'
          rw [hcd] at hcp
          omega
        · exact eq_of_target htail ha' hc' hap hcp

/-! ## The condition is needed -/

/-- If bits are set only where no header goes, a bit that is set afterwards was set before, and
no header is taken back to its place. -/
theorem undo_flatMap_of_forall (hD : D.WholeBytes) (hb : 8 ∣ bss) {P : ℕ → Prop} :
    ∀ {l : List (EmitDatum H)} {st : ℕ → Word},
    (∀ d ∈ l, d.Aligned ∧ ∀ q, d.target ≤ q → q < d.target + D.width d.hdr → ¬ P q) →
    (∀ q, bitAt st q = true → P q) → ∀ q,
    bitAt (undoMoves (l.flatMap (emitCalls D bss)) st) q = true →
    bitAt st q = true ∧ ∀ d ∈ l, ¬ Source D bss d q
  | [], _, _, _, _, hq => ⟨hq, fun _ hd => absurd hd List.not_mem_nil⟩
  | d :: l, st, hl, hst, q, hq => by
      obtain ⟨hd, htarget⟩ := hl d List.mem_cons_self
      have hnext : ∀ r, bitAt (undoMoves (emitCalls D bss d) st) r = true →
          ¬ Source D bss d r ∧ bitAt st r = true := by
        intro r hr
        by_cases hsource : Source D bss d r
        · obtain ⟨r', hr', -, hst'⟩ := exists_bitAt_undo hD hb hd hsource
          rw [hst'] at hr
          have hle := moveBlockSize_le D bss d
          exact absurd (hst r' hr) (htarget r' hr'.1 (by omega))
        · rw [bitAt_undo_of_not hD hb hd hsource] at hr
          exact ⟨hsource, hr⟩
      rw [List.flatMap_cons, undoMoves_append] at hq
      obtain ⟨hrest, hfree⟩ := undo_flatMap_of_forall hD hb
        (fun e he => hl e (List.mem_cons_of_mem d he)) (fun r hr => hst r (hnext r hr).2) q hq
      refine ⟨(hnext q hrest).2, fun e he => ?_⟩
      rcases List.mem_cons.mp he with rfl | he
      · exact (hnext q hrest).1
      · exact hfree e he

/-- If the places of the headers are all ones, what is set stays set, and what headers are taken
back to is set. -/
theorem undo_flatMap_eq_true (hD : D.WholeBytes) (hb : 8 ∣ bss) :
    ∀ {l : List (EmitDatum H)} {st : ℕ → Word},
    (∀ d ∈ l, d.Aligned ∧ init ≤ d.target ∧ d.target + D.width d.hdr ≤ fin) →
    (∀ q, init ≤ q → q < fin → bitAt st q = true) → ∀ q,
    (bitAt st q = true ∨ ∃ d ∈ l, Source D bss d q) →
    bitAt (undoMoves (l.flatMap (emitCalls D bss)) st) q = true
  | [], _, _, _, _, hq => by
      rcases hq with hq | ⟨d, hd, -⟩
      · exact hq
      · exact absurd hd List.not_mem_nil
  | d :: l, st, hl, hst, q, hq => by
      obtain ⟨hd, hlow, hhigh⟩ := hl d List.mem_cons_self
      have hnext : ∀ r, (bitAt st r = true ∨ Source D bss d r) →
          bitAt (undoMoves (emitCalls D bss d) st) r = true := by
        intro r hr
        by_cases hsource : Source D bss d r
        · obtain ⟨r', hr', -, hst'⟩ := exists_bitAt_undo hD hb hd hsource
          have hle := moveBlockSize_le D bss d
          rw [hst']
          exact hst r' (by omega) (by omega)
        · rw [bitAt_undo_of_not hD hb hd hsource]
          exact hr.resolve_right hsource
      rw [List.flatMap_cons, undoMoves_append]
      refine undo_flatMap_eq_true hD hb (fun e he => hl e (List.mem_cons_of_mem d he))
        (fun r h₁ h₂ => hnext r (Or.inl (hst r h₁ h₂))) q ?_
      rcases hq with hq | ⟨e, he, hsource⟩
      · exact Or.inl (hnext q (Or.inl hq))
      · rcases List.mem_cons.mp he with rfl | he
        · exact Or.inl (hnext q (Or.inr hsource))
        · exact Or.inr ⟨e, he, hsource⟩

section Single

variable [DecidableEq H] [DecidableEq F]

/-- Values for which one bit of one header is set. -/
theorem exists_single (D : HeaderDecls H F) {h : H} (hnodup : ((D.fields h).map Prod.fst).Nodup)
    (b : ℕ) : ∃ vals, D.hdrBits vals h = readBits (fun i => decide (i = b)) 0 (D.width h) ∧
      ∀ h' ≠ h, ∀ x ∈ D.hdrBits vals h', x = false := by
  refine ⟨readStats (ofBits fun i => decide (i = b)) (D.emitHeader h 0) fun _ _ _ => false,
    ?_, fun h' hne x hx => ?_⟩
  · rw [hdrBits_readStats D hnodup, bitAt_ofBits]
  · refine eq_of_mem_hdrBits D _ (h := h') (fun f i => ?_) hx
    rw [readStats_emitHeader_of_ne D hne.symm]

theorem getElem_readBits {s : Bits} {p n i : ℕ} {l : List Bool} (hl : readBits s p n = l)
    (hi : i < n) : l.getD i false = s (p + i) := by
  rw [← hl, List.getD_eq_getElem _ _ (by simpa using hi)]
  simp [readBits]

variable (h : Placed D bss init curr fin total data)
include h

omit [DecidableEq F] in
/-- The only bit on the stack is the one that is set. -/
theorem Placed.single (hdistinct : (data.map EmitDatum.hdr).Nodup) {c : EmitDatum H}
    (hc : c ∈ data) {p : ℕ} {vals : FieldValues H F}
    (hvals : D.hdrBits vals c.hdr = readBits (fun i => decide (i = p - c.target)) 0
      (D.width c.hdr)) (hzero : ∀ h' ≠ c.hdr, ∀ x ∈ D.hdrBits vals h', x = false)
    (hlow : c.target ≤ p) (q : ℕ)
    (hq : bitAt (execCalls D vals (actionCallOrder D bss data total curr) fun _ _ => false) q =
      true) : q = p := by
  rw [h.bitAt_actionCallOrder] at hq
  split at hq
  · exact absurd hq Bool.false_ne_true
  by_cases hin : init ≤ q ∧ q < fin
  · obtain ⟨a, ha, hqlow, hqhigh⟩ := h.laidOut.exists_covering hin.1 (h.fin_eq ▸ hin.2)
    have hbit := getElem_readBits (h.readBits_header ha vals (bitAt fun _ _ => false))
      (i := q - a.target) (by omega)
    have hsum : a.target + (q - a.target) = q := by omega
    rw [hsum, hq] at hbit
    by_cases hac : a.hdr = c.hdr
    · have heq : a = c := List.inj_on_of_nodup_map hdistinct ha hc hac
      subst heq
      rw [getElem_readBits hvals.symm (by omega)] at hbit
      have hidx := of_decide_eq_true hbit
      omega
    · have hlt : q - a.target < (D.hdrBits vals a.hdr).length := by
        rw [D.length_hdrBits]
        omega
      rw [List.getD_eq_getElem _ _ hlt] at hbit
      exact Bool.noConfusion (hbit.symm.trans (hzero _ hac _ (List.getElem_mem hlt)))
  · have hlen := D.length_flatMap_hdrBits vals (data.map EmitDatum.hdr)
    rw [writeBits, if_neg (by rw [hlen, ← h.fin_eq]; exact hin)] at hq
    exact absurd hq Bool.false_ne_true

/-- Where a header is read back, nothing was taken back to before. -/
theorem Placed.untouched (hnodup : ∀ h, ((D.fields h).map Prod.fst).Nodup)
    (hdistinct : (data.map EmitDatum.hdr).Nodup)
    (hread : ∀ vals st, ReadsBack D vals (actionCallOrder D bss data total curr)
      (execCalls D vals (actionCallOrder D bss data total curr) st))
    {m m' : List (EmitDatum H)} {c : EmitDatum H}
    (horder : emitOrder [] data.reverse = m ++ c :: m')
    {p : ℕ} (hlow : c.target ≤ p) (hhigh : p < c.target + D.width c.hdr) :
    (∀ d ∈ m ++ [c], ¬ Source D bss d p) ∧
      (0 < total → ¬ (curr ≤ p ∧ p < curr + resiBlockSize bss curr total)) := by
  have hmem : ∀ d ∈ m ++ c :: m', d ∈ data := fun d hd => by
    rw [← mem_emitOrder (l := data), horder]
    exact hd
  have hc : c ∈ data := hmem c (List.mem_append_right m List.mem_cons_self)
  have hperm : (m ++ c :: m').Perm data := by
    rw [← horder]
    exact (emitOrder_perm [] _).trans (List.reverse_perm data)
  have hnodupOrder : ((m ++ c :: m').map EmitDatum.hdr).Nodup :=
    (hperm.map EmitDatum.hdr).nodup_iff.mpr hdistinct
  have hdata : data.Nodup := List.Nodup.of_map _ hdistinct
  obtain ⟨vals, hvals, hzero⟩ := exists_single D (hnodup c.hdr) (p - c.target)
  have hsingle := h.single hdistinct hc hvals hzero hlow
  obtain ⟨st₁, hst₁⟩ : ∃ st₁, st₁ =
      execCalls D vals (actionCallOrder D bss data total curr) fun _ _ => false := ⟨_, rfl⟩
  rw [← hst₁] at hsingle
  -- the bit is read back
  have hlast : ∀ start, OpsCall.emit c.hdr start ∉
      m'.flatMap (emitCalls D bss) ++ if total > 0 then [] else resMove bss curr total := by
    intro start hstart
    rcases List.mem_append.mp hstart with hstart | hstart
    · obtain ⟨d, hd, hstart⟩ := List.mem_flatMap.mp hstart
      rcases mem_emitCalls.mp hstart with ⟨-, heq⟩ | heq
      · cases heq
      · rw [List.map_append, List.map_cons, List.nodup_append] at hnodupOrder
        refine (List.nodup_cons.mp hnodupOrder.2.1).1 ?_
        rw [(OpsCall.emit.inj heq).1]
        exact List.mem_map_of_mem hd
    · split at hstart
      · exact List.not_mem_nil hstart
      · exact emit_notMem_resMove hstart
  have hback := hread vals (fun _ _ => false) _ c.hdr c.target _ (actionCallOrder_split horder)
    hlast
  rw [← hst₁] at hback
  have hbit := (getElem_readBits hback (i := p - c.target) (by omega)).symm.trans
    (getElem_readBits hvals.symm (by omega))
  have hsum : c.target + (p - c.target) = p := by omega
  rw [hsum, undoMoves_append, undoMoves_moveCalls, List.flatMap_append, undoMoves_append,
    List.flatMap_singleton, Nat.zero_add, decide_eq_true rfl] at hbit
  -- so it was there, and nobody took anything back to its place
  have hrest : ∀ q, bitAt (undoMoves (if total > 0 then resMove bss curr total
      else ([] : List (OpsCall H))) st₁) q = true →
      q = p ∧ (0 < total → ¬ (curr ≤ q ∧ q < curr + resiBlockSize bss curr total)) := by
    intro q hq
    have hp := (h.target_bounds hc).2
    split at hq
    · rename_i hpos
      by_cases hin : curr ≤ q ∧ q < curr + resiBlockSize bss curr total
      · obtain ⟨r, hr, -, -, hst⟩ := h.exists_bitAt_undo_resMove (by omega) hin.1 hin.2
        rw [hst] at hq
        have hrp := hsingle r hq
        omega
      · rw [h.bitAt_undo_resMove_of_not _ hin] at hq
        exact ⟨hsingle q hq, fun _ => hin⟩
    · exact ⟨hsingle q hq, fun hpos => absurd hpos (by omega)⟩
  have hm : ∀ d ∈ m, d.Aligned ∧ ∀ q, d.target ≤ q → q < d.target + D.width d.hdr → ¬ q = p := by
    intro d hd
    have hdd : d ∈ data := hmem d (List.mem_append_left _ hd)
    refine ⟨h.aligned hdd, fun q hqlow hqhigh hqp => ?_⟩
    have heq := eq_of_target h.laidOut hdd hc (hqp ▸ ⟨hqlow, hqhigh⟩) ⟨hlow, hhigh⟩
    have hnodupOrder := List.Nodup.of_map _ hnodupOrder
    rw [List.nodup_append] at hnodupOrder
    exact hnodupOrder.2.2 d hd c List.mem_cons_self heq
  have hheaders := undo_flatMap_of_forall h.widths h.bss_dvd hm fun q hq => (hrest q hq).1
  have hself : ¬ Source D bss c p := by
    intro hsource
    obtain ⟨r, -, hr, hst⟩ := exists_bitAt_undo h.widths h.bss_dvd (h.aligned hc) hsource
    rw [hst] at hbit
    exact hr ((hrest r (hheaders r hbit).1).1 ▸ hsource)
  rw [bitAt_undo_of_not h.widths h.bss_dvd (h.aligned hc) hself] at hbit
  obtain ⟨hp, hfree⟩ := hheaders p hbit
  refine ⟨fun d hd => ?_, (hrest p hp).2⟩
  rcases List.mem_append.mp hd with hd | hd
  · exact hfree d hd
  · rw [List.mem_singleton.mp hd]
    exact hself

end Single

namespace Placed

variable (h : Placed D bss init curr fin total data)
include h

/-- If the same stack is made again, what follows the packet fits behind its new end. -/
theorem shrinks_of_again
    (hagain : ∀ vals st, bitAt (execCalls D vals (actionCallOrder D bss data total curr)
      (undoMoves (actionCallOrder D bss data total curr)
        (execCalls D vals (actionCallOrder D bss data total curr) st))) =
      bitAt (execCalls D vals (actionCallOrder D bss data total curr) st)) (hneg : total < 0) :
    (resiBlockSize bss curr total : ℤ) + total ≤ 0 := by
  by_contra hover
  have htotal := h.total_eq
  -- the first bit behind what fits is set, and nothing else
  obtain ⟨z, hz⟩ : ∃ z, z = curr + (curr - fin) := ⟨_, rfl⟩
  obtain ⟨vals, hvals⟩ : ∃ vals : FieldValues H F, ∀ h f i, vals h f i = false :=
    ⟨fun _ _ _ => false, fun _ _ _ => rfl⟩
  have hrun := h.bitAt_actionCallOrder vals
  have hset : ∀ r, bitAt (execCalls D vals (actionCallOrder D bss data total curr)
      (ofBits fun q => decide (q = z))) r = true → curr ≤ r := by
    intro r hr
    rw [hrun, writeBits_of_const D hvals, bitAt_ofBits] at hr
    by_contra hlt
    rw [decide_eq_false (show ¬ r = z by omega)] at hr
    split at hr
    · rename_i hmoved
      have hrz := of_decide_eq_true hr
      omega
    · split at hr <;> exact Bool.false_ne_true hr
  have heq := congrFun (hagain vals (ofBits fun q => decide (q = z))) curr
  rw [hrun, hrun, if_pos (by omega), if_pos (by omega), bitAt_ofBits,
    decide_eq_true (show curr - fin + curr = z by omega),
    undoMoves_actionCallOrder_of_neg hneg] at heq
  obtain ⟨q, hq, hqout, -, hst⟩ := h.exists_bitAt_undo_resMove (p := curr - fin + curr) hneg.ne
    (by omega) (by omega)
  rw [hst] at heq
  have hbefore := (undo_flatMap_of_forall h.widths h.bss_dvd (fun d hd => by
    have hdd := mem_emitOrder.mp hd
    have hbounds := h.target_bounds hdd
    exact ⟨h.aligned hdd, fun r _ hr => by omega⟩) hset q heq).1
  have hge := hset q hbefore
  omega

/-- If the same stack is made again, no header comes from behind the new end. -/
theorem clear_of_again
    (hagain : ∀ vals st, bitAt (execCalls D vals (actionCallOrder D bss data total curr)
      (undoMoves (actionCallOrder D bss data total curr)
        (execCalls D vals (actionCallOrder D bss data total curr) st))) =
      bitAt (execCalls D vals (actionCallOrder D bss data total curr) st)) (hneg : total < 0)
    {d : EmitDatum H} (hd : d ∈ data) {p : ℕ} (hp : Source D bss d p) : (p : ℤ) < curr + total := by
  by_contra hover
  have htotal := h.total_eq
  have hbounds := h.source_bounds hd hp
  have hshrinks := h.shrinks_of_again hagain hneg
  obtain ⟨vals, hvals⟩ : ∃ vals : FieldValues H F, ∀ h f i, vals h f i = true :=
    ⟨fun _ _ _ => true, fun _ _ _ => rfl⟩
  have hrun := h.bitAt_actionCallOrder vals
  have hfin := h.fin_eq
  -- all headers are ones and the stack is empty
  have hones : ∀ q, init ≤ q → q < fin → bitAt (execCalls D vals
      (actionCallOrder D bss data total curr) fun _ _ => false) q = true := by
    intro q hlow hhigh
    rw [h.bitAt_actionCallOrder_of_lt vals _ hhigh, writeBits_of_const D hvals, if_pos (by omega)]
  have hset := undo_flatMap_eq_true h.widths h.bss_dvd (fun e he => by
    have hee := mem_emitOrder.mp he
    exact ⟨h.aligned hee, h.target_bounds hee⟩) hones p (Or.inr ⟨d, mem_emitOrder.mpr hd, hp⟩)
  have heq := congrFun (hagain vals fun _ _ => false) p
  rw [hrun, hrun, undoMoves_actionCallOrder_of_neg hneg, writeBits_of_const D hvals,
    writeBits_of_const D hvals, if_neg (show ¬ (init ≤ p ∧ p < _) by omega),
    if_neg (show ¬ (init ≤ p ∧ p < _) by omega)] at heq
  by_cases hmoved : p < fin + resiBlockSize bss curr total
  · -- the rest brings the bit back
    obtain ⟨q, -, -, hq, hst⟩ := h.exists_bitAt_undo_resMove (p := p - fin + curr) hneg.ne
      (by omega) (by omega)
    have hqp : q = p := by
      have hapart := hq (by omega)
      omega
    rw [if_pos ⟨hneg.ne, by omega, hmoved⟩, if_pos ⟨hneg.ne, by omega, hmoved⟩, hst, hqp, hset]
      at heq
    exact Bool.noConfusion heq
  · -- the bit stays there
    rw [if_neg (by omega), if_neg (by omega), h.bitAt_undo_resMove_of_not _ (by omega), hset]
      at heq
    exact Bool.noConfusion heq

/-- If all is read back and the same stack is made again, the moves are taken back. -/
theorem movesBack_of [DecidableEq H] [DecidableEq F]
    (hnodup : ∀ h, ((D.fields h).map Prod.fst).Nodup)
    (hdistinct : (data.map EmitDatum.hdr).Nodup)
    (hread : ∀ vals st, ReadsBack D vals (actionCallOrder D bss data total curr)
      (execCalls D vals (actionCallOrder D bss data total curr) st))
    (hagain : ∀ vals st, bitAt (execCalls D vals (actionCallOrder D bss data total curr)
      (undoMoves (actionCallOrder D bss data total curr)
        (execCalls D vals (actionCallOrder D bss data total curr) st))) =
      bitAt (execCalls D vals (actionCallOrder D bss data total curr) st)) :
    MovesBack D bss curr total data where
  apart := by
    refine pairwise_of_split fun m c m' horder d hd => spares_of_not_source fun p hlow hhigh => ?_
    exact (h.untouched hnodup hdistinct hread horder hlow hhigh).1 d (List.mem_append_left _ hd)
  self d hd := by
    refine spares_of_not_source fun p hlow hhigh => ?_
    obtain ⟨m, m', horder⟩ := List.append_of_mem (mem_emitOrder.mpr hd)
    exact (h.untouched hnodup hdistinct hread horder hlow hhigh).1 d
      (List.mem_append_right _ List.mem_cons_self)
  grows hpos := by
    by_contra hne
    have hinit := h.init_le
    have hfin := h.fin_eq
    have htotal := h.total_eq
    -- the first bit behind the parsed headers is part of a header now
    obtain ⟨c, hc, hlow, hhigh⟩ := h.laidOut.exists_covering hinit (p := curr) (by omega)
    obtain ⟨m, m', horder⟩ := List.append_of_mem (mem_emitOrder.mpr hc)
    exact (h.untouched hnodup hdistinct hread horder hlow hhigh).2 hpos (by omega)
  shrinks := h.shrinks_of_again hagain
  clear hneg d hd p hp := h.clear_of_again hagain hneg hd hp

/-- **An action with moves and its inverse.** -/
theorem losslessCalls_of_movesBack [DecidableEq H] [DecidableEq F]
    (hnodup : ∀ h, ((D.fields h).map Prod.fst).Nodup) (hm : MovesBack D bss curr total data) :
    LosslessCalls D (actionCallOrder D bss data total curr)
      (actionCallOrder D bss data total curr) :=
  (losslessCalls_iff D hnodup _ _).mpr ⟨h.readsBack hm, h.again hm⟩

theorem movesBack_of_losslessCalls [DecidableEq H] [DecidableEq F]
    (hnodup : ∀ h, ((D.fields h).map Prod.fst).Nodup)
    (hdistinct : (data.map EmitDatum.hdr).Nodup)
    (hl : LosslessCalls D (actionCallOrder D bss data total curr)
      (actionCallOrder D bss data total curr)) : MovesBack D bss curr total data := by
  obtain ⟨hread, hagain⟩ := (losslessCalls_iff D hnodup _ _).mp hl
  exact h.movesBack_of hnodup hdistinct hread hagain

end Placed

/-! ## Emissions before an action with moves -/

/-- Bit `q` of the stack is written by the action, and not read. -/
def Rewritten (bss init curr fin : ℕ) (total : ℤ) (q : ℕ) : Prop :=
  (init ≤ q ∧ q < fin ∨
    total ≠ 0 ∧ fin ≤ q ∧ q < fin + resiBlockSize bss curr total) ∧
    ¬ (total ≠ 0 ∧ curr ≤ q ∧ q < curr + resiBlockSize bss curr total)

/-- **Emissions without moves, and an action with moves at the end.** -/
theorem Placed.losslessCalls_emissionCalls_iff [DecidableEq H] [DecidableEq F]
    (h : Placed D bss init curr fin total data)
    (hnodup : ∀ h, ((D.fields h).map Prod.fst).Nodup) (l : List (H × ℕ)) :
    LosslessCalls D (emissionCalls l) (actionCallOrder D bss data total curr) ↔
      LastStands D l ∧ ∀ x ∈ l, ∀ q, x.2 ≤ q → q < x.2 + D.width x.1 →
        Rewritten bss init curr fin total q := by
  rw [losslessCalls_iff D hnodup, readsBack_emissionCalls_iff]
  refine and_congr_right fun _ => ?_
  have hfin := h.fin_eq
  constructor
  · intro hagain x hx q hlow hhigh
    by_contra hnot
    obtain ⟨vals, hvals⟩ : ∃ vals : FieldValues H F, ∀ h f i, vals h f i = true :=
      ⟨fun _ _ _ => true, fun _ _ _ => rfl⟩
    have hrun := h.bitAt_actionCallOrder vals
    have hset : bitAt (execCalls D vals (emissionCalls l) fun _ _ => false) q = true := by
      rw [bitAt_execCalls_emissionCalls]
      refine writeAll_eq_of_forall (fun w hw b hb => ?_) (Or.inr ⟨_, List.mem_map_of_mem hx, ?_⟩)
      · obtain ⟨y, -, rfl⟩ := List.mem_map.mp hw
        exact eq_of_mem_hdrBits D vals (hvals y.1) hb
      · rw [D.length_hdrBits]
        omega
    have heq := fun p => congrFun (hagain vals fun _ _ => false) p
    simp only [undoMoves_emissionCalls, hrun, writeBits_of_const D hvals, ← hfin] at heq
    rw [Rewritten] at hnot
    by_cases hread : total ≠ 0 ∧ curr ≤ q ∧ q < curr + resiBlockSize bss curr total
    · -- the bit moves with the rest of the stack
      have hp := heq (q - curr + fin)
      have hsum : q - curr + fin - fin + curr = q := by omega
      rw [if_pos (by omega), if_pos (by omega), hsum, hset] at hp
      exact Bool.noConfusion hp
    · -- the bit stays
      have hp := heq q
      rw [if_neg (by omega), if_neg (by omega), if_neg (by omega), if_neg (by omega), hset] at hp
      exact Bool.noConfusion hp
  · intro hall vals st
    have hrun := h.bitAt_actionCallOrder vals
    have hlen := D.length_flatMap_hdrBits vals (data.map EmitDatum.hdr)
    have hkept : ∀ q, ¬ Rewritten bss init curr fin total q →
        bitAt (execCalls D vals (emissionCalls l) st) q = bitAt st q := by
      intro q hq
      rw [bitAt_execCalls_emissionCalls]
      refine writeAll_of_forall fun w hw hle => ?_
      obtain ⟨x, hx, rfl⟩ := List.mem_map.mp hw
      rw [D.length_hdrBits]
      by_contra hlt
      exact hq (hall x hx q hle (by omega))
    rw [undoMoves_emissionCalls]
    funext p
    rw [hrun, hrun]
    split
    · exact hkept _ fun hq => hq.2 (by omega)
    · rename_i hstays
      by_cases hp : init ≤ p ∧ p < fin
      · rw [writeBits_of_mem hp.1 (by omega), writeBits_of_mem hp.1 (by omega)]
      · rw [writeBits, if_neg (by omega), writeBits, if_neg (by omega)]
        exact hkept p fun hq => hstays (hq.1.resolve_left hp)

end Partitioning
end MicroP4
