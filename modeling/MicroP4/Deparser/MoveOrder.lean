import MicroP4.Deparser.MoveRanges

/-!
# The order of a row's moves

The calls of a row move headers over each other's old places, so their order matters to what
a move reads.  `emitOrder` takes the headers from the last to the first, but keeps a run of
headers that move left, and the header in front of it, in their own order.

A header that moves left reads its old place after all headers behind its run are written.
These are out of the way as long as they start behind that place, which a parsed header that
does not move left does.  A header that is inserted behind one that moves left carries the
move `0` and so ends the run; when it, or what follows it, reaches back over the old place,
that place is written before it is read.  `readsOriginal_iff` says that nothing else goes
wrong.
-/

namespace MicroP4
namespace Deparser

open BitString

variable {H F : Type} [DecidableEq H]

/-! ## The emit order -/

section EmitOrder

variable {d : EmitDatum H} {l l' : List (EmitDatum H)}

/-- The header moves left. -/
def EmitDatum.movesLeft (d : EmitDatum H) : Bool := decide (d.moveOS < 0)

omit [DecidableEq H] in
theorem emitOrder_nil_cons : emitOrder [] (d :: l) =
    if d.movesLeft then emitOrder [d] l else d :: emitOrder [] l := by
  rw [emitOrder, EmitDatum.movesLeft]
  simp only [decide_eq_true_eq]

omit [DecidableEq H] in
theorem emitOrder_cons_cons (r : EmitDatum H) (run : List (EmitDatum H)) :
    emitOrder (r :: run) (d :: l) =
      if d.movesLeft then emitOrder (d :: r :: run) l
      else (d :: r :: run) ++ emitOrder [] l := by
  rw [emitOrder, EmitDatum.movesLeft]
  simp only [decide_eq_true_eq]

omit [DecidableEq H] in
/-- A header that does not move left closes a run; what comes after it starts afresh. -/
theorem emitOrder_append (hd : d.movesLeft = false) : ∀ (run l : List (EmitDatum H)),
    emitOrder run (l ++ d :: l') = emitOrder run (l ++ [d]) ++ emitOrder [] l'
  | [], [] => by
      rw [List.nil_append, List.nil_append, emitOrder_nil_cons, emitOrder_nil_cons, hd]
      rfl
  | r :: run, [] => by
      rw [List.nil_append, List.nil_append, emitOrder_cons_cons, emitOrder_cons_cons, hd]
      simp [emitOrder]
  | [], a :: l => by
      rw [List.cons_append, List.cons_append, emitOrder_nil_cons, emitOrder_nil_cons]
      split
      · exact emitOrder_append hd [a] l
      · rw [emitOrder_append hd [] l, List.cons_append]
  | r :: run, a :: l => by
      rw [List.cons_append, List.cons_append, emitOrder_cons_cons, emitOrder_cons_cons]
      split
      · exact emitOrder_append hd (a :: r :: run) l
      · rw [emitOrder_append hd [] l, List.append_assoc]

omit [DecidableEq H] in
/-- Headers that move left make one run, in their own order. -/
theorem emitOrder_of_movesLeft : ∀ {l : List (EmitDatum H)} (run : List (EmitDatum H)),
    (∀ a ∈ l, a.movesLeft = true) → emitOrder run l = l.reverse ++ run
  | [], [], _ => rfl
  | [], _ :: _, _ => rfl
  | a :: l, [], h => by
      have ih := emitOrder_of_movesLeft [a] fun b hb => h b (List.mem_cons_of_mem _ hb)
      rw [emitOrder_nil_cons, if_pos (h a List.mem_cons_self), ih]
      simp
  | a :: l, r :: run, h => by
      have ih := emitOrder_of_movesLeft (a :: r :: run) fun b hb => h b (List.mem_cons_of_mem _ hb)
      rw [emitOrder_cons_cons, if_pos (h a List.mem_cons_self), ih]
      simp

omit [DecidableEq H] in
/-- The header in front of such a run joins it. -/
theorem emitOrder_closed (hd : d.movesLeft = false) : ∀ {l run : List (EmitDatum H)},
    (∀ a ∈ l, a.movesLeft = true) → emitOrder run (l ++ [d]) = d :: (l.reverse ++ run)
  | [], [], _ => by
      rw [List.nil_append, emitOrder_nil_cons, hd]
      rfl
  | [], r :: run, _ => by
      rw [List.nil_append, emitOrder_cons_cons, hd]
      simp [emitOrder]
  | a :: l, [], h => by
      have ih : emitOrder [a] (l ++ [d]) = d :: (l.reverse ++ [a]) :=
        emitOrder_closed hd fun b hb => h b (List.mem_cons_of_mem _ hb)
      rw [List.cons_append, emitOrder_nil_cons, if_pos (h a List.mem_cons_self), ih]
      simp
  | a :: l, r :: run, h => by
      have ih : emitOrder (a :: r :: run) (l ++ [d]) = d :: (l.reverse ++ a :: r :: run) :=
        emitOrder_closed hd fun b hb => h b (List.mem_cons_of_mem _ hb)
      rw [List.cons_append, emitOrder_cons_cons, if_pos (h a List.mem_cons_self), ih]
      simp

omit [DecidableEq H] in
/-- What stands behind the first headers that move left is ordered on its own. -/
theorem emitOrder_dropWhile_append (l l' : List (EmitDatum H)) :
    emitOrder [] ((l.dropWhile EmitDatum.movesLeft).reverse ++ l') =
      emitOrder [] (l.dropWhile EmitDatum.movesLeft).reverse ++ emitOrder [] l' := by
  have hhead := List.head?_dropWhile_not EmitDatum.movesLeft l
  rcases hl : l.dropWhile EmitDatum.movesLeft with _ | ⟨b, m⟩
  · rfl
  · rw [hl, List.head?_cons] at hhead
    rw [List.reverse_cons, List.append_assoc, List.singleton_append]
    exact emitOrder_append hhead [] m.reverse

omit [DecidableEq H] in
/-- **Where the first header of a row goes**: in front of the headers behind it that move left,
and after all others. -/
theorem emitOrder_reverse_cons (d : EmitDatum H) (l : List (EmitDatum H)) :
    emitOrder [] (d :: l).reverse = emitOrder [] (l.dropWhile EmitDatum.movesLeft).reverse ++
      d :: l.takeWhile EmitDatum.movesLeft := by
  have hleft : ∀ a ∈ (l.takeWhile EmitDatum.movesLeft).reverse, a.movesLeft = true :=
    fun a ha => List.all_eq_true.mp List.all_takeWhile a (List.mem_reverse.mp ha)
  have hsplit : (d :: l).reverse = (l.dropWhile EmitDatum.movesLeft).reverse ++
      ((l.takeWhile EmitDatum.movesLeft).reverse ++ [d]) := by
    rw [← List.append_assoc, ← List.reverse_append, List.takeWhile_append_dropWhile,
      List.reverse_cons]
  rw [hsplit, emitOrder_dropWhile_append]
  congr 1
  cases hd : d.movesLeft with
  | false => rw [emitOrder_closed hd hleft, List.reverse_reverse, List.append_nil]
  | true =>
    rw [emitOrder_of_movesLeft [] ?_]
    · simp
    · intro a ha
      rcases List.mem_append.mp ha with ha | ha
      · exact hleft a ha
      · rw [List.mem_singleton.mp ha]
        exact hd

omit [DecidableEq H] in
theorem emitOrder_reverse (l : List (EmitDatum H)) :
    emitOrder [] l.reverse = emitOrder [] (l.dropWhile EmitDatum.movesLeft).reverse ++
      l.takeWhile EmitDatum.movesLeft := by
  have hleft : ∀ a ∈ (l.takeWhile EmitDatum.movesLeft).reverse, a.movesLeft = true :=
    fun a ha => List.all_eq_true.mp List.all_takeWhile a (List.mem_reverse.mp ha)
  have hsplit : l.reverse = (l.dropWhile EmitDatum.movesLeft).reverse ++
      (l.takeWhile EmitDatum.movesLeft).reverse := by
    rw [← List.reverse_append, List.takeWhile_append_dropWhile]
  rw [hsplit, emitOrder_dropWhile_append, emitOrder_of_movesLeft [] hleft, List.reverse_reverse,
    List.append_nil]

omit [DecidableEq H] in
/-- What holds between each header and those emitted after it, from the front of a row. -/
theorem pairwise_emitOrder_cons {R : EmitDatum H → EmitDatum H → Prop} (d : EmitDatum H)
    (l : List (EmitDatum H)) :
    (emitOrder [] (d :: l).reverse).Pairwise R ↔
      (∀ a ∈ l.dropWhile EmitDatum.movesLeft, R a d) ∧
        (∀ a ∈ l.takeWhile EmitDatum.movesLeft, R d a) ∧
        (emitOrder [] l.reverse).Pairwise R := by
  have hmem : ∀ a, a ∈ emitOrder [] (l.dropWhile EmitDatum.movesLeft).reverse ↔
      a ∈ l.dropWhile EmitDatum.movesLeft := fun a =>
    ((emitOrder_perm [] _).trans (List.reverse_perm _)).mem_iff
  rw [emitOrder_reverse_cons, emitOrder_reverse l, List.pairwise_append, List.pairwise_append,
    List.pairwise_cons]
  simp only [hmem, List.mem_cons]
  constructor
  · rintro ⟨ho, ⟨hd, hr⟩, hor⟩
    exact ⟨fun a ha => hor a ha d (Or.inl rfl), hd, ho, hr,
      fun a ha b hb => hor a ha b (Or.inr hb)⟩
  · rintro ⟨hod, hd, ho, hr, hor⟩
    refine ⟨ho, ⟨hd, hr⟩, fun a ha b hb => ?_⟩
    rcases hb with rfl | hb
    · exact hod a ha
    · exact hor a ha b hb

end EmitOrder

/-! ## Reading what stood there before -/

/-- The byte `i` is the same before and after. -/
def SameByte (i : ℕ) (st st' : ℕ → Word) : Prop := ∀ p, p / 8 = i → bitAt st' p = bitAt st p

/-- **Every move reads the original bytes.**  While the calls run from the state `st`, each
assignment of each move finds at its source the byte of the state `original`. -/
def ReadsOriginal (D : HeaderDecls H F) (vals : FieldValues H F) (original : ℕ → Word) :
    List (OpsCall H) → (st : ℕ → Word) → Prop
  | [], _ => True
  | .move co mo size :: calls, st =>
      (∀ asms p rest, byteMoves co mo size = asms ++ p :: rest →
        SameByte p.2 original (copyBytes asms st)) ∧
      ReadsOriginal D vals original calls ((OpsCall.move co mo size).exec D vals st)
  | .emit h start :: calls, st =>
      ReadsOriginal D vals original calls ((OpsCall.emit h start).exec D vals st)

omit [DecidableEq H] in
theorem readsOriginal_append (D : HeaderDecls H F) (vals : FieldValues H F) (original : ℕ → Word) :
    ∀ (l l' : List (OpsCall H)) (st : ℕ → Word), ReadsOriginal D vals original (l ++ l') st ↔
      ReadsOriginal D vals original l st ∧
        ReadsOriginal D vals original l' (execCalls D vals l st)
  | [], l', st => by
      rw [List.nil_append, ReadsOriginal, true_and]
      rfl
  | .move co mo size :: l, l', st => by
      rw [List.cons_append, ReadsOriginal, ReadsOriginal, readsOriginal_append D vals original l,
        and_assoc]
      rfl
  | .emit h start :: l, l', st => by
      rw [List.cons_append, ReadsOriginal, ReadsOriginal, readsOriginal_append D vals original l]
      rfl

/-- A byte that is not copied to stays. -/
theorem copyBytes_of_ne {i : ℕ} : ∀ {l : List (ℕ × ℕ)} (st : ℕ → Word), (∀ q ∈ l, q.1 ≠ i) →
    copyBytes l st i = st i
  | [], _, _ => rfl
  | q :: l, st, h => by
      have ih := copyBytes_of_ne (Function.update st q.1 (st q.2)) fun r hr =>
        h r (List.mem_cons_of_mem _ hr)
      rw [Function.update_of_ne (h q List.mem_cons_self).symm] at ih
      exact ih

/-- The assignments of a move write no byte that a later one of them reads. -/
theorem byteMoves_pairwise {co t : ℕ} {mo : ℤ} (size : ℕ) (ht : (co : ℤ) + mo = t) :
    (byteMoves co mo size).Pairwise fun q p => q.1 ≠ p.2 := by
  have hstart : (co + mo).toNat = t := by rw [ht]; rfl
  simp only [byteMoves, hstart]
  by_cases hmo : mo > 0
  · rw [if_pos hmo, List.pairwise_reverse, List.pairwise_map]
    refine List.pairwise_lt_range.imp fun {i j} hij => ?_
    dsimp only
    omega
  · rw [if_neg hmo, List.pairwise_map]
    refine List.pairwise_lt_range.imp fun {i j} hij => ?_
    dsimp only
    omega

theorem copyBytes_source {co size t : ℕ} {mo : ℤ} (ht : (co : ℤ) + mo = t)
    {asms rest : List (ℕ × ℕ)} {p : ℕ × ℕ} (h : byteMoves co mo size = asms ++ p :: rest)
    (st : ℕ → Word) : copyBytes asms st p.2 = st p.2 := by
  have hpair := byteMoves_pairwise size ht
  rw [h, List.pairwise_append] at hpair
  exact copyBytes_of_ne st fun q hq => hpair.2.2 q hq p List.mem_cons_self

omit [DecidableEq H] in
/-- **One move reads the original bytes** if its source has not changed so far. -/
theorem readsOriginal_move (D : HeaderDecls H F) (vals : FieldValues H F)
    (original st : ℕ → Word) {co size t : ℕ} {mo : ℤ} (ht : (co : ℤ) + mo = t) (hco : 8 ∣ co)
    (hsize : 8 ∣ size) :
    ReadsOriginal D vals original [.move co mo size] st ↔
      ∀ p, co ≤ p → p < co + size → bitAt st p = bitAt original p := by
  rw [ReadsOriginal, ReadsOriginal, and_true]
  constructor
  · intro h p hp hlt
    have hmem : (t / 8 + (p / 8 - co / 8), co / 8 + (p / 8 - co / 8)) ∈ byteMoves co mo size :=
      (mem_byteMoves ht).mpr ⟨p / 8 - co / 8, by omega, rfl⟩
    obtain ⟨asms, rest, hsplit⟩ := List.append_of_mem hmem
    have hsource := copyBytes_source ht hsplit st
    have hbit := h asms _ rest hsplit p (by dsimp only; omega)
    dsimp only at hsource
    have hidx : co / 8 + (p / 8 - co / 8) = p / 8 := by omega
    rw [hidx] at hsource
    rw [← hbit, bitAt, bitAt, hsource]
  · intro h asms q rest hsplit p hp
    have hmem : q ∈ byteMoves co mo size := by
      rw [hsplit]
      exact List.mem_append_right _ List.mem_cons_self
    obtain ⟨i, hi, rfl⟩ := (mem_byteMoves ht).mp hmem
    have hsource := copyBytes_source ht hsplit st
    dsimp only at hp hsource
    rw [← h p (by omega) (by omega), bitAt, bitAt, hp, hsource]

/-! ## The calls of the headers -/

/-- What header `a` is written over is not part of what moves with header `d`. -/
def EmitDatum.Spares (D : HeaderDecls H F) (byteStackSize : ℕ) (a d : EmitDatum H) : Prop :=
  d.moveOS ≠ 0 → ∀ p, a.target ≤ p → p < a.target + D.width a.hdr → d.currOS ≤ p →
    d.currOS + moveBlockSize D byteStackSize d ≤ p

/-- A datum whose offsets are whole bytes and not in front of the stack. -/
structure EmitDatum.Aligned (d : EmitDatum H) : Prop where
  currOS : 8 ∣ d.currOS
  target : 8 ∣ d.target
  nonneg : 0 ≤ (d.currOS : ℤ) + d.moveOS

omit [DecidableEq H] in
theorem EmitDatum.Aligned.eq_target {d : EmitDatum H} (hd : d.Aligned) :
    (d.currOS : ℤ) + d.moveOS = d.target :=
  (Int.toNat_of_nonneg hd.nonneg).symm

omit [DecidableEq H] in
theorem dvd_moveBlockSize {D : HeaderDecls H F} (hD : D.WholeBytes) {bss : ℕ} (hb : 8 ∣ bss)
    {d : EmitDatum H} (hd : d.Aligned) : 8 ∣ moveBlockSize D bss d := by
  have hw : 8 ∣ D.width d.hdr := hD d.hdr
  have htarget := hd.target
  rw [moveBlockSize]
  split
  · omega
  · exact hw

omit [DecidableEq H] in
/-- The calls for one header read the original bytes if its old place has not changed. -/
theorem readsOriginal_emitCalls {D : HeaderDecls H F} (hD : D.WholeBytes)
    (vals : FieldValues H F) {bss : ℕ} (hb : 8 ∣ bss) {d : EmitDatum H} (hd : d.Aligned)
    (original st : ℕ → Word) :
    ReadsOriginal D vals original (emitCalls D bss d) st ↔
      (d.moveOS ≠ 0 → ∀ p, d.currOS ≤ p → p < d.currOS + moveBlockSize D bss d →
        bitAt st p = bitAt original p) := by
  have hcalls : emitCalls D bss d =
      (if d.moveOS ≠ 0 ∧ moveBlockSize D bss d ≠ 0 then
        [.move d.currOS d.moveOS (moveBlockSize D bss d)] else []) ++ [.emit d.hdr d.target] := rfl
  have hemit : ∀ st', ReadsOriginal D vals original [OpsCall.emit d.hdr d.target] st' :=
    fun _ => trivial
  rw [hcalls, readsOriginal_append, and_iff_left (hemit _)]
  split
  · rename_i hmoves
    rw [readsOriginal_move D vals original st hd.eq_target hd.currOS
      (dvd_moveBlockSize hD hb hd)]
    exact ⟨fun h _ => h, fun h => h hmoves.1⟩
  · rename_i hmoves
    refine ⟨fun _ hmo p h₁ h₂ => ?_, fun _ => trivial⟩
    have hzero : moveBlockSize D bss d = 0 := by
      by_contra hne
      exact hmoves ⟨hmo, hne⟩
    omega

omit [DecidableEq H] in
/-- After headers were written, the next one reads the original bytes exactly if all of them
spare its old place.  The state `g vals st` may differ from `st` where headers are not found. -/
theorem readsOriginal_emitCalls_iff {D : HeaderDecls H F} (hD : D.WholeBytes) {bss : ℕ}
    (hb : 8 ∣ bss) {done : List (EmitDatum H)} {d : EmitDatum H} (hd : d.Aligned)
    (hdone : ∀ a ∈ done, a.Aligned) {g : FieldValues H F → (ℕ → Word) → (ℕ → Word)}
    (hg : ∀ vals st, d.moveOS ≠ 0 → ∀ p, p < d.currOS + moveBlockSize D bss d →
      bitAt (g vals st) p = bitAt st p) :
    (∀ vals st, ReadsOriginal D vals st (emitCalls D bss d)
        (execCalls D vals (done.flatMap (emitCalls D bss)) (g vals st))) ↔
      ∀ a ∈ done, a.Spares D bss d := by
  have hbits : ∀ vals st, bitAt (execCalls D vals (done.flatMap (emitCalls D bss)) (g vals st)) =
      writeAll (writes D vals done) (bitAt (g vals st)) := fun vals st =>
    bitAt_execCalls_flatMap hD vals hb done (g vals st) fun a ha =>
      ⟨(hdone a ha).currOS, (hdone a ha).target, (hdone a ha).nonneg⟩
  constructor
  · intro h a ha hmo p hlow hhigh hco
    by_contra hsource
    -- only ones are written over a stack of zeros
    have hread := (readsOriginal_emitCalls hD _ hb hd _ _).mp
      (h (fun _ _ _ => true) fun _ _ => false) hmo p hco (by omega)
    have hone : writeAll (writes D (fun _ _ _ => true) done)
        (bitAt (g (fun _ _ _ => true) fun _ _ => false)) p = true := by
      refine writeAll_eq_of_forall ?_ (Or.inr ?_)
      · intro w hw b hbw
        obtain ⟨a', -, rfl⟩ := List.mem_map.mp hw
        exact D.eq_true_of_mem_hdrBits hbw
      · refine ⟨(a.target, D.hdrBits _ a.hdr), List.mem_map.mpr ⟨a, ha, rfl⟩, hlow, ?_⟩
        rw [D.length_hdrBits]
        exact hhigh
    rw [hbits, hone] at hread
    exact absurd hread (by simp [bitAt])
  · intro h vals st
    rw [readsOriginal_emitCalls hD vals hb hd, hbits]
    intro hmo p hco hlt
    rw [writeAll_of_forall, hg vals st hmo p hlt]
    intro w hw hlow
    obtain ⟨a, ha, rfl⟩ := List.mem_map.mp hw
    dsimp only at hlow ⊢
    rw [D.length_hdrBits]
    by_contra hhigh
    have hspares := h a ha hmo p hlow (by omega) hco
    omega

omit [DecidableEq H] in
/-- **The headers of a row read the original bytes** exactly if each one is spared by all
those emitted before it. -/
theorem readsOriginal_flatMap_iff {D : HeaderDecls H F} (hD : D.WholeBytes) {bss : ℕ}
    (hb : 8 ∣ bss) {g : FieldValues H F → (ℕ → Word) → (ℕ → Word)} :
    ∀ {order done : List (EmitDatum H)}, (∀ d ∈ done, d.Aligned) → (∀ d ∈ order, d.Aligned) →
    (∀ d ∈ order, d.moveOS ≠ 0 → ∀ vals st, ∀ p < d.currOS + moveBlockSize D bss d,
      bitAt (g vals st) p = bitAt st p) →
    ((∀ vals st, ReadsOriginal D vals st (order.flatMap (emitCalls D bss))
        (execCalls D vals (done.flatMap (emitCalls D bss)) (g vals st))) ↔
      (∀ d ∈ order, ∀ a ∈ done, a.Spares D bss d) ∧
        order.Pairwise fun a d => a.Spares D bss d)
  | [], done, _, _, _ => by
      simp [ReadsOriginal]
  | d :: order, done, hdone, horder, hg => by
      have hd := horder d List.mem_cons_self
      have hdone' : ∀ a ∈ done ++ [d], a.Aligned := by
        intro a ha
        rcases List.mem_append.mp ha with ha | ha
        · exact hdone a ha
        · rw [List.mem_singleton.mp ha]
          exact hd
      have hfirst := readsOriginal_emitCalls_iff hD hb hd hdone fun vals st hmo p hp =>
        hg d List.mem_cons_self hmo vals st p hp
      have ih := readsOriginal_flatMap_iff hD hb hdone'
        (fun a ha => horder a (List.mem_cons_of_mem _ ha))
        fun a ha => hg a (List.mem_cons_of_mem _ ha)
      simp only [List.flatMap_append, execCalls_append, List.flatMap_cons, List.flatMap_nil,
        List.append_nil] at ih
      simp only [List.flatMap_cons, readsOriginal_append, forall_and]
      rw [hfirst, ih, List.pairwise_cons]
      simp only [List.mem_cons, List.mem_append, List.not_mem_nil, or_false]
      constructor
      · rintro ⟨hnow, hlater, hpair⟩
        refine ⟨fun a ha b hbd => ?_, fun a ha => hlater a ha d (Or.inr rfl), hpair⟩
        rcases ha with rfl | ha
        · exact hnow b hbd
        · exact hlater a ha b (Or.inl hbd)
      · rintro ⟨hall, hnext, hpair⟩
        refine ⟨hall d (Or.inl rfl), fun a ha b hbd => ?_, hpair⟩
        rcases hbd with hbd | rfl
        · exact hall a (Or.inr ha) b hbd
        · exact hnext a ha

/-! ## Headers laid out back to back -/

section LaidOut

variable {D : HeaderDecls H F} {init : ℕ} {l l' : List (EmitDatum H)} {a d : EmitDatum H}

omit [DecidableEq H] in
theorem IsLaidOut.aligned (hD : D.WholeBytes) (h : IsLaidOut D init l) (h8 : 8 ∣ init)
    (hd : d ∈ l) : d.Aligned where
  currOS := h.currOS d hd
  target := by
    obtain ⟨m, m', hl⟩ := List.append_of_mem hd
    rw [h.target m d m' hl]
    exact Nat.dvd_add h8 (hD.totalWidth_dvd _)
  nonneg := h.nonneg d hd

omit [DecidableEq H] in
theorem IsLaidOut.suffix : ∀ {l : List (EmitDatum H)} {init : ℕ}, IsLaidOut D init (l ++ l') →
    IsLaidOut D (init + D.totalWidth (l.map EmitDatum.hdr)) l'
  | [], _, h => h
  | d :: l, init, h => by
      have htail := IsLaidOut.suffix h.tail.2
      rwa [Nat.add_assoc, ← totalWidth_cons] at htail

omit [DecidableEq H] in
/-- Every header lies between the first offset and the end of all. -/
theorem IsLaidOut.bounds : ∀ {l : List (EmitDatum H)} {init : ℕ}, IsLaidOut D init l → a ∈ l →
    init ≤ a.target ∧
      a.target + D.width a.hdr ≤ init + D.totalWidth (l.map EmitDatum.hdr)
  | d :: l, init, h, ha => by
      obtain ⟨htarget, htail⟩ := h.tail
      rw [List.map_cons, totalWidth_cons]
      rcases List.mem_cons.mp ha with rfl | ha
      · omega
      · have hbounds := IsLaidOut.bounds htail ha
        omega

omit [DecidableEq H] in
/-- There is no gap between the headers. -/
theorem IsLaidOut.exists_covering {p : ℕ} : ∀ {l : List (EmitDatum H)} {init : ℕ},
    IsLaidOut D init l → init ≤ p → p < init + D.totalWidth (l.map EmitDatum.hdr) →
    ∃ a ∈ l, a.target ≤ p ∧ p < a.target + D.width a.hdr
  | [], init, _, hlow, hhigh => by
      rw [List.map_nil, D.totalWidth_nil] at hhigh
      omega
  | d :: l, init, h, hlow, hhigh => by
      obtain ⟨htarget, htail⟩ := h.tail
      rw [List.map_cons, totalWidth_cons] at hhigh
      rcases Nat.lt_or_ge p (init + D.width d.hdr) with hlt | hge
      · exact ⟨d, List.mem_cons_self, by omega, by omega⟩
      · obtain ⟨a, ha, hp⟩ := IsLaidOut.exists_covering htail hge (by omega)
        exact ⟨a, List.mem_cons_of_mem _ ha, hp⟩

/-- A header that moves left and one behind it that does not are apart: that one begins behind
the old place, or all headers end in front of it, or nothing is written from that one on. -/
def EmitDatum.Clears (D : HeaderDecls H F) (byteStackSize fin : ℕ) (d c : EmitDatum H) : Prop :=
  d.moveOS < 0 → 0 ≤ c.moveOS → moveBlockSize D byteStackSize d ≠ 0 →
    d.currOS + moveBlockSize D byteStackSize d ≤ c.target ∨ fin ≤ max d.currOS c.target

omit [DecidableEq H] in
theorem moveBlockSize_le (D : HeaderDecls H F) (bss : ℕ) (d : EmitDatum H) :
    moveBlockSize D bss d ≤ D.width d.hdr := by
  rw [moveBlockSize]
  split
  · omega
  · exact Nat.le_refl _

omit [DecidableEq H] in
/-- Headers that move left spare those behind that do, which are emitted after them. -/
theorem spares_of_movesLeft {bss : ℕ} (h : IsLaidOut D init (d :: l)) (ha : a ∈ l)
    (hleft : a.moveOS < 0) : d.Spares D bss a := by
  intro _ p _ hhigh hco
  obtain ⟨htarget, htail⟩ := h.tail
  have hbounds := htail.bounds ha
  have hnonneg := h.nonneg a (List.mem_cons_of_mem _ ha)
  have hstart : a.target = (a.currOS + a.moveOS).toNat := rfl
  omega

omit [DecidableEq H] in
/-- A header that does not move left is spared by all those behind it. -/
theorem spares_of_nonneg {bss : ℕ} (h : IsLaidOut D init (d :: l)) (ha : a ∈ l)
    (hd : 0 ≤ d.moveOS) : a.Spares D bss d := by
  intro hmo p hlow _ _
  obtain ⟨htarget, htail⟩ := h.tail
  have hbounds := htail.bounds ha
  have hsize := moveBlockSize_le D bss d
  have hstart : d.target = (d.currOS + d.moveOS).toNat := rfl
  omega

omit [DecidableEq H] in
/-- A header that moves left is spared by those emitted before it exactly if it is apart from
all those behind it that do not move left. -/
theorem spares_dropWhile_iff {bss fin : ℕ} (h : IsLaidOut D init l)
    (hfin : init + D.totalWidth (l.map EmitDatum.hdr) = fin) (hd : d.moveOS < 0) :
    (∀ a ∈ l.dropWhile EmitDatum.movesLeft, a.Spares D bss d) ↔
      ∀ c ∈ l, d.Clears D bss fin c := by
  constructor
  · intro hspares c hc _ hright hsize
    by_contra hover
    obtain ⟨m, m', hl⟩ := List.append_of_mem hc
    have hsuffix : IsLaidOut D c.target (c :: m') := by
      have hs := h
      rw [hl] at hs
      have hs := hs.suffix
      rwa [← h.target m c m' hl] at hs
    -- a place of the stack that is read with `d` and written from `c` on
    obtain ⟨p, hp⟩ : ∃ p, p = max c.target d.currOS := ⟨_, rfl⟩
    have hend : c.target + D.totalWidth ((c :: m').map EmitDatum.hdr) = fin := by
      have htotal := D.totalWidth_append (m.map EmitDatum.hdr) ((c :: m').map EmitDatum.hdr)
      rw [← List.map_append, ← hl] at htotal
      rw [h.target m c m' hl, ← hfin, htotal, Nat.add_assoc]
    obtain ⟨a, ha, hlow, hhigh⟩ := hsuffix.exists_covering (p := p) (by omega) (by omega)
    have hdrop : a ∈ l.dropWhile EmitDatum.movesLeft := by
      have hc : c.movesLeft = false := by
        simpa [EmitDatum.movesLeft] using hright
      rw [hl, List.dropWhile_append]
      split
      · rw [List.dropWhile_cons_of_neg (by rw [hc]; exact Bool.false_ne_true)]
        exact ha
      · exact List.mem_append_right _ ha
    have hread := hspares a hdrop (by omega) p hlow hhigh (by omega)
    omega
  · intro hclears a ha hmo p hlow hhigh hco
    have hhead := List.head?_dropWhile_not EmitDatum.movesLeft l
    rcases hl : l.dropWhile EmitDatum.movesLeft with _ | ⟨c, m⟩
    · rw [hl] at ha
      exact absurd ha List.not_mem_nil
    · rw [hl] at ha hhead
      have hright : 0 ≤ c.moveOS := by
        simpa [EmitDatum.movesLeft] using hhead
      have hsplit : l = l.takeWhile EmitDatum.movesLeft ++ c :: m := by
        rw [← hl, List.takeWhile_append_dropWhile]
      have hc : c ∈ l := by
        rw [hsplit]
        exact List.mem_append_right _ List.mem_cons_self
      have hsuffix : IsLaidOut D c.target (c :: m) := by
        have hs := h
        rw [hsplit] at hs
        have hs := hs.suffix
        rwa [← h.target _ c m hsplit] at hs
      have hfirst := hsuffix.bounds ha
      have hlast := h.bounds (hsplit ▸ List.mem_append_right _ ha : a ∈ l)
      by_cases hsize : moveBlockSize D bss d = 0
      · omega
      · have hclear := hclears c hc hd hright hsize
        omega

omit [DecidableEq H] in
/-- **The emit order in terms of the order of the headers.** -/
theorem pairwise_spares_iff (bss : ℕ) {fin : ℕ} : ∀ {l : List (EmitDatum H)} {init : ℕ},
    IsLaidOut D init l → init + D.totalWidth (l.map EmitDatum.hdr) = fin →
    ((emitOrder [] l.reverse).Pairwise (fun a d => a.Spares D bss d) ↔
      l.Pairwise fun d c => d.Clears D bss fin c)
  | [], _, _, _ => by
      rw [List.reverse_nil, emitOrder]
      exact iff_of_true List.Pairwise.nil List.Pairwise.nil
  | d :: l, init, h, hfin => by
      rw [List.map_cons, totalWidth_cons, ← Nat.add_assoc] at hfin
      have ih := pairwise_spares_iff bss h.tail.2 hfin
      have hrun : ∀ a ∈ l.takeWhile EmitDatum.movesLeft, d.Spares D bss a := fun a ha =>
        spares_of_movesLeft h ((List.takeWhile_sublist _).subset ha)
          (of_decide_eq_true (List.all_eq_true.mp List.all_takeWhile a ha))
      rw [pairwise_emitOrder_cons, ih, List.pairwise_cons]
      have hrest : (∀ a ∈ l.dropWhile EmitDatum.movesLeft, a.Spares D bss d) ↔
          ∀ c ∈ l, d.Clears D bss fin c := by
        rcases Int.lt_or_le d.moveOS 0 with hleft | hright
        · exact spares_dropWhile_iff h.tail.2 hfin hleft
        · refine iff_of_true (fun a ha => ?_) fun c _ hleft => ?_
          · exact spares_of_nonneg h ((List.dropWhile_sublist _).subset ha) hright
          · omega
      rw [hrest]
      exact and_congr_right fun _ => and_iff_right hrun

omit [DecidableEq H] in
/-- **The action of a row reads the original bytes** exactly if no header that moves left is
reached by what is written before it. -/
theorem readsOriginal_actionCallOrder_iff (hD : D.WholeBytes) {bss curr : ℕ} {total : ℤ}
    (hbss : bss < 2 ^ 32) (hb : 8 ∣ bss) (h8 : 8 ∣ init) (hcurr : 8 ∣ curr) (h : IsLaidOut D init l)
    (htotal : (curr : ℤ) + total = init + D.totalWidth (l.map EmitDatum.hdr))
    (hmoved : ∀ d ∈ l, d.moveOS ≠ 0 → d.currOS + D.width d.hdr ≤ curr) :
    (∀ vals st, ReadsOriginal D vals st (actionCallOrder D bss l total curr) st) ↔
      l.Pairwise fun d c => d.Clears D bss (init + D.totalWidth (l.map EmitDatum.hdr)) c := by
  obtain ⟨fin, hfin⟩ : ∃ fin, init + D.totalWidth (l.map EmitDatum.hdr) = fin := ⟨_, rfl⟩
  have ht : (curr : ℤ) + total = fin := by omega
  have hfin8 : 8 ∣ fin := by
    rw [← hfin]
    exact Nat.dvd_add h8 (hD.totalWidth_dvd _)
  have hresi := (resiBlockSize_spec hbss hb hcurr hfin8 ht).1
  have hperm : (emitOrder [] l.reverse).Perm l :=
    (emitOrder_perm [] _).trans (List.reverse_perm l)
  have haligned : ∀ d ∈ emitOrder [] l.reverse, d.Aligned := fun d hd =>
    h.aligned hD h8 (hperm.subset hd)
  obtain ⟨resMove, hresMove⟩ : ∃ resMove, resMove =
      if total ≠ 0 ∧ resiBlockSize bss curr total ≠ 0 then
        [OpsCall.move curr total (resiBlockSize bss curr total)]
      else ([] : List (OpsCall H)) := ⟨_, rfl⟩
  have hres : ∀ vals original st, (∀ p, curr ≤ p → bitAt st p = bitAt original p) →
      ReadsOriginal D vals original resMove st := by
    intro vals original st hsame
    rw [hresMove]
    split
    · exact (readsOriginal_move D vals original st ht hcurr hresi).mpr fun p hp _ => hsame p hp
    · exact trivial
  rw [hfin, ← pairwise_spares_iff bss h hfin]
  simp only [actionCallOrder, ← hresMove]
  by_cases hpos : total > 0
  · -- the rest has moved to places behind all old ones
    have hkeep : ∀ vals st, ∀ p < curr, bitAt (execCalls D vals resMove st) p = bitAt st p := by
      intro vals st p hp
      rw [hresMove]
      split
      · have hmove := congrFun (bitAt_move D vals ht hcurr hfin8 hresi st) p
        rw [if_neg (by omega)] at hmove
        exact hmove
      · rfl
    have hiff := readsOriginal_flatMap_iff hD hb (g := fun vals => execCalls D vals resMove)
      (fun _ hd => absurd hd List.not_mem_nil) haligned fun d hd hmo vals st p hp =>
        hkeep vals st p (by
          have hsize := moveBlockSize_le D bss d
          have hend := hmoved d (hperm.subset hd) hmo
          omega)
    simp only [List.not_mem_nil, false_implies, implies_true, true_and] at hiff
    simp only [if_pos hpos, readsOriginal_append, ← hiff]
    exact forall_congr' fun vals => forall_congr' fun st =>
      and_iff_right (hres vals st st fun _ _ => rfl)
  · -- the rest is behind all headers and moves last
    have hiff := readsOriginal_flatMap_iff hD hb (g := fun _ st => st)
      (fun _ hd => absurd hd List.not_mem_nil) haligned fun d hd hmo vals st p hp => rfl
    simp only [List.not_mem_nil, false_implies, implies_true, true_and] at hiff
    simp only [if_neg hpos, readsOriginal_append, ← hiff]
    refine forall_congr' fun vals => forall_congr' fun st => and_iff_left ?_
    refine hres vals st _ fun p hp => ?_
    rw [bitAt_execCalls_emitOrder hD vals hb h8 h, writeBits_of_ge]
    rw [D.length_flatMap_hdrBits]
    omega

end LaidOut

/-! ## The theorem -/

section Row

variable {D : OpsInput H F} {e : OpsRow H}

/-- **Every move of an entry reads the bytes of the stack it is run on.** -/
def OpsRow.ReadsOriginal (D : OpsInput H F) (e : OpsRow H) : Prop :=
  ∀ (vals : FieldValues H F) (st : ℕ → Word),
    Deparser.ReadsOriginal D.toHeaderDecls vals st (D.rowAction e.row e.ops).calls st

/-- How much of a header behind the columns `keys` has its new place in the stack; all of it
if that place begins behind the end. -/
def OpsRow.movedWidth (D : OpsInput H F) (e : OpsRow H) (keys : List (H × Bool)) (h : H) : ℕ :=
  if e.endAfter D keys ≤ D.byteStackSize then min (D.width h) (D.byteStackSize - e.endAfter D keys)
  else D.width h

/-- Where header `c` is inserted behind a header `h` that moves left, the place of `c` begins
behind the old place of `h`, or the headers from there on do not reach that old place. -/
def OpsRow.InsertsApart (D : OpsInput H F) (e : OpsRow H) : Prop :=
  ∀ keys h cs c rest, e.row.keys = keys ++ (h, true) :: (cs ++ (c, false) :: rest) →
    h ∉ e.ops.setInvalid → c ∈ e.ops.setValid → e.endAfter D keys < e.parsedEnd D keys →
    e.movedWidth D keys h ≠ 0 →
    e.parsedEnd D keys + e.movedWidth D keys h ≤ e.endAfter D (keys ++ (h, true) :: cs) ∨
      e.endAfter D e.row.keys ≤ max (e.parsedEnd D keys) (e.endAfter D (keys ++ (h, true) :: cs))

theorem moveBlockSize_eq_movedWidth (keys : List (H × Bool)) (h : H) :
    moveBlockSize D.toHeaderDecls D.byteStackSize
      ⟨e.parsedEnd D keys, (e.endAfter D keys : ℤ) - e.parsedEnd D keys, h⟩ =
      e.movedWidth D keys h := by
  have htarget : EmitDatum.target
      ⟨e.parsedEnd D keys, (e.endAfter D keys : ℤ) - e.parsedEnd D keys, h⟩ =
      e.endAfter D keys := by
    rw [EmitDatum.target]
    dsimp only
    omega
  rw [moveBlockSize, htarget, OpsRow.movedWidth]
  dsimp only
  split
  · rw [if_pos (by omega)]
    omega
  · split
    · omega
    · rfl

/-- A header that does not move left is apart from those that do, unless it is inserted. -/
theorem pairwise_clears_iff :
    (e.dataFrom D [] e.row.keys).Pairwise
      (fun d c => d.Clears D.toHeaderDecls D.byteStackSize (e.endAfter D e.row.keys) c) ↔
      e.InsertsApart D := by
  rw [pairwise_dataFrom]
  constructor
  · intro hpair keys h cs c rest hkeys hh hc hleft hsize
    have hd : (⟨e.parsedEnd D keys, (e.endAfter D keys : ℤ) - e.parsedEnd D keys, h⟩ :
        EmitDatum H) ∈ e.datum D ([] ++ keys) (h, true) := by
      rw [OpsRow.datum, if_neg hh]
      exact List.mem_singleton.mpr rfl
    have hdatum : (⟨e.endAfter D (keys ++ (h, true) :: cs), 0, c⟩ : EmitDatum H) ∈
        e.dataFrom D ([] ++ keys ++ [(h, true)]) (cs ++ (c, false) :: rest) := by
      refine mem_dataFrom.mpr ⟨cs, (c, false), rest, rfl, ?_⟩
      rw [List.nil_append, List.append_assoc, List.singleton_append, OpsRow.datum, if_pos hc]
      exact List.mem_singleton.mpr rfl
    have hclears := hpair keys (h, true) (cs ++ (c, false) :: rest) hkeys _ hd _ hdatum
    rw [EmitDatum.Clears, moveBlockSize_eq_movedWidth] at hclears
    have htarget : EmitDatum.target
        (⟨e.endAfter D (keys ++ (h, true) :: cs), 0, c⟩ : EmitDatum H) =
        e.endAfter D (keys ++ (h, true) :: cs) := by
      simp [EmitDatum.target]
    rw [htarget] at hclears
    exact hclears (by dsimp only; omega) (Int.le_refl 0) hsize
  · rintro happart keys ⟨h, value⟩ keys' hkeys d hd c hmem
    rw [List.nil_append] at hd hmem
    obtain ⟨cs, ⟨hdr, value'⟩, rest, rfl, hc⟩ := mem_dataFrom.mp hmem
    rw [List.append_assoc, List.singleton_append] at hc
    intro hleft hright hsize
    cases value with
    | false =>
      rw [OpsRow.datum] at hd
      split at hd
      · rw [List.mem_singleton.mp hd] at hleft
        exact absurd hleft (Int.lt_irrefl 0)
      · exact absurd hd List.not_mem_nil
    | true =>
      rw [OpsRow.datum] at hd
      split at hd
      · exact absurd hd List.not_mem_nil
      rename_i hh
      rw [List.mem_singleton.mp hd] at hleft hsize ⊢
      rw [moveBlockSize_eq_movedWidth] at hsize ⊢
      dsimp only at hleft ⊢
      cases value' with
      | false =>
        rw [OpsRow.datum] at hc
        split at hc
        · rename_i hcv
          rw [List.mem_singleton.mp hc]
          have htarget : EmitDatum.target
              (⟨e.endAfter D (keys ++ (h, true) :: cs), 0, hdr⟩ : EmitDatum H) =
              e.endAfter D (keys ++ (h, true) :: cs) := by
            simp [EmitDatum.target]
          rw [htarget]
          exact happart keys h cs hdr rest hkeys hh hcv (by omega) hsize
        · exact absurd hc List.not_mem_nil
      | true =>
        -- parsed headers that do not move left stay behind all old places in front of them
        rw [OpsRow.datum] at hc
        split at hc
        · exact absurd hc List.not_mem_nil
        rw [List.mem_singleton.mp hc] at hright ⊢
        have hparsed : e.parsedEnd D keys + D.width h ≤ e.parsedEnd D (keys ++ (h, true) :: cs) :=
          parsedEnd_add_width_le rfl
        have hle : e.movedWidth D keys h ≤ D.width h := by
          rw [OpsRow.movedWidth]
          split
          · exact Nat.min_le_left _ _
          · exact Nat.le_refl _
        refine Or.inl ?_
        rw [EmitDatum.target]
        dsimp only at hright ⊢
        omega

/-- **Exactly when every move of an entry reads what stood there before.** -/
theorem readsOriginal_iff (D : OpsInput H F) (hD : D.WellSized) {e : OpsRow H}
    (he : e ∈ D.opsTable) : e.ReadsOriginal D ↔ e.InsertsApart D := by
  obtain ⟨hr, hops⟩ := mem_pairs.mp (mem_pairs_of_mem_opsTable he)
  have h8 := initOffset_dvd hD hr
  obtain ⟨data, hdata, hmap, hlaid⟩ := emitData_spec hD.widths hops e.row.keys 0
    e.row.initOffset e.row.initOffset (by simp) h8 h8
  have hfrom : data = e.dataFrom D [] e.row.keys := by
    have heq := congrArg Prod.fst (rowData_eq he)
    rw [OpsInput.rowData, hdata] at heq
    exact heq
  have hfin : e.row.initOffset + D.totalWidth (data.map EmitDatum.hdr) =
      e.endAfter D e.row.keys := by
    rw [hmap]
    rfl
  have hcalls : (D.rowAction e.row e.ops).calls = actionCallOrder D.toHeaderDecls D.byteStackSize
      data ((e.endAfter D e.row.keys : ℤ) - e.parsedEnd D e.row.keys)
      (e.parsedEnd D e.row.keys) := by
    rw [OpsInput.rowAction, rowData_eq he, hfrom]
  rw [OpsRow.ReadsOriginal, hcalls, readsOriginal_actionCallOrder_iff hD.widths
    hD.stack_lt hD.stack h8 (dvd_parsedEnd hD he _) hlaid, hfin, hfrom, pairwise_clears_iff]
  · rw [← hfin]
    push_cast
    omega
  · intro d hd hmo
    have hmem : d ∈ (D.rowData e.row e.ops).1 := by
      rw [rowData_eq he, ← hfrom]
      exact hd
    obtain ⟨keys, h, keys', hkeys, -, rfl⟩ := (mem_rowData_moved he hmo).mp hmem
    exact parsedEnd_add_width_le hkeys

end Row

/-! ## A header inserted behind a gap -/

/-- Three headers behind one byte.  The first, of `gap` bytes, is removed, and the third, of
one byte, is inserted behind the second, of two bytes. -/
def closeAndInsert (gap : ℕ) : OpsInput ℕ Unit where
  fields h := [((), if h = 0 then 8 * gap else if h = 1 then 16 else 8)]
  xoredHeaderSets := []
  parsedHeaders := none
  initialOffsets := [8]
  emits := [0, 1, 2]
  xoredValidityOps := [⟨[2], [0]⟩]
  byteStackSize := 64

theorem wellSized_closeAndInsert (gap : ℕ) : (closeAndInsert gap).WellSized where
  widths h := by
    simp only [HeaderDecls.width, closeAndInsert, List.map_cons, List.map_nil, List.sum_cons,
      List.sum_nil]
    split
    · omega
    · split <;> decide
  offsets os hos := by
    cases List.mem_singleton.mp hos
    exact Nat.dvd_refl 8
  stack := ⟨8, rfl⟩
  stack_lt := by
    change 64 < 2 ^ 32
    decide

/-- The first two headers are parsed. -/
def closeAndInsertRow (gap : ℕ) : OpsRow ℕ :=
  let r : EmitRow ℕ := ⟨some 8, [(0, true), (1, true), (2, false)], 8 + 8 * gap + 16,
    some (.chain (.chain (.setOffset 8) 0 8) 1 (8 + 8 * gap)), 8⟩
  ⟨r, ⟨[2], [0]⟩, ((closeAndInsert gap).rowAction r ⟨[2], [0]⟩).name⟩

/-- Over a gap of three bytes the two headers that follow do not reach back. -/
theorem readsOriginal_closeAndInsert : (closeAndInsertRow 3).ReadsOriginal (closeAndInsert 3) :=
  (readsOriginal_iff (closeAndInsert 3) (wellSized_closeAndInsert 3) (e := closeAndInsertRow 3)
    (List.mem_of_getElem? (i := 3) rfl)).2 (by
      intro keys h cs c rest hkeys hh _ _ _
      have hkeys : [(0, true), (1, true), (2, false)] =
          keys ++ (h, true) :: (cs ++ (c, false) :: rest) := hkeys
      rcases keys with _ | ⟨a, _ | ⟨b, _ | ⟨b', keys⟩⟩⟩
      · rw [List.nil_append, List.cons.injEq, Prod.mk.injEq] at hkeys
        rw [← hkeys.1.1] at hh
        exact absurd (by decide) hh
      · rw [List.singleton_append, List.cons.injEq] at hkeys
        rw [← hkeys.1]
        exact Or.inr (Nat.le_trans (by decide) (Nat.le_max_left _ _))
      · simp at hkeys
      · simp at hkeys)

/-- Over a gap of one byte the inserted header is written before the second one has moved, to
the last byte of its old place. -/
theorem not_readsOriginal_closeAndInsert :
    closeAndInsertRow 1 ∈ (closeAndInsert 1).opsTable ∧
      ((closeAndInsert 1).rowAction (closeAndInsertRow 1).row (closeAndInsertRow 1).ops).calls =
        [.emit 2 24, .move 16 (-8) 16, .emit 1 8] ∧
      ¬ (closeAndInsertRow 1).ReadsOriginal (closeAndInsert 1) := by
  have hcalls : ((closeAndInsert 1).rowAction (closeAndInsertRow 1).row
      (closeAndInsertRow 1).ops).calls = [.emit 2 24, .move 16 (-8) 16, .emit 1 8] := rfl
  refine ⟨List.mem_of_getElem? (i := 3) rfl, hcalls, fun hreads => ?_⟩
  have hmove := hreads (fun _ _ _ => true) fun _ _ => false
  rw [hcalls] at hmove
  have hbit := hmove.1 [(1, 2)] (2, 3) [] rfl 24 rfl
  revert hbit
  decide

end Deparser
end MicroP4
