import MicroP4.Deparser.MoveOrder
import MicroP4.Partitioning.DeparserInverter

/-!
# When parsing again is lossless

Nothing is lost by the calls of a deparser and their inverse exactly if each header is read back
where it was emitted last, and the last deparser makes the same stack from what the inverse leaves
(`losslessCalls_iff`).  The two conditions are about the stack alone: the values of the headers are
the same in both.

Emissions alone do not change when they are made again, so they only have to leave the last place
of each header alone (`losslessCalls_emissionCalls_iff`).
-/

namespace MicroP4
namespace Partitioning

open BitString Deparser

variable {H F : Type}

/-! ## Values of headers -/

section Values

variable (D : HeaderDecls H F)

/-- The headers' bits are those of their fields. -/
theorem hdrBits_eq_iff {vals vals' : FieldValues H F} {h : H} :
    D.hdrBits vals h = D.hdrBits vals' h ↔
      ∀ fw ∈ D.fields h, sliceBits (vals h fw.1) 0 fw.2 = sliceBits (vals' h fw.1) 0 fw.2 := by
  rw [HeaderDecls.hdrBits, HeaderDecls.hdrBits]
  induction D.fields h with
  | nil => exact iff_of_true rfl fun _ hfw => absurd hfw List.not_mem_nil
  | cons fw fs ih =>
      rw [List.flatMap_cons, List.flatMap_cons, List.forall_mem_cons, ← ih]
      constructor
      · intro heq
        exact List.append_inj heq (by rw [length_sliceBits, length_sliceBits])
      · rintro ⟨hfw, hfs⟩
        rw [hfw, hfs]

/-- If all bits of the fields of a header are equal, so are the bits of the header. -/
theorem eq_of_mem_hdrBits (vals : FieldValues H F) {h : H} {c b : Bool}
    (hvals : ∀ f i, vals h f i = c) (hb : b ∈ D.hdrBits vals h) : b = c := by
  simp only [HeaderDecls.hdrBits, sliceBits, List.mem_flatMap, List.mem_map] at hb
  obtain ⟨_, _, _, _, hb⟩ := hb
  rw [← hb, hvals]

/-- Headers whose bits are all equal, written from an offset on. -/
theorem writeBits_of_const {vals : FieldValues H F} {c : Bool} (hvals : ∀ h f i, vals h f i = c)
    (init : ℕ) (hdrs : List H) (s : Bits) (q : ℕ) :
    writeBits init (hdrs.flatMap (D.hdrBits vals)) s q =
      if init ≤ q ∧ q < init + D.totalWidth hdrs then c else s q := by
  have hlen := D.length_flatMap_hdrBits vals hdrs
  rw [← hlen]
  split
  · rename_i hq
    have hlt : q - init < (hdrs.flatMap (D.hdrBits vals)).length := by omega
    rw [writeBits_of_mem hq.1 hq.2, List.getD_eq_getElem _ _ hlt]
    obtain ⟨h, -, hmem⟩ := List.mem_flatMap.mp (List.getElem_mem hlt)
    exact eq_of_mem_hdrBits D vals (hvals h) hmem
  · rename_i hq
    rw [writeBits, if_neg hq]

end Values

/-! ## Reading back and running again -/

theorem bitAt_copyBytes_congr : ∀ (l : List (ℕ × ℕ)) {st st' : ℕ → Word}, bitAt st = bitAt st' →
    bitAt (copyBytes l st) = bitAt (copyBytes l st')
  | [], _, _, h => h
  | (a, b) :: l, st, st', h => by
      refine bitAt_copyBytes_congr l (funext fun p => ?_)
      by_cases hp : p / 8 = a
      · have hread := congrFun h (8 * b + p % 8)
        have hdiv : (8 * b + p % 8) / 8 = b := by omega
        have hmod : (8 * b + p % 8) % 8 = p % 8 := by omega
        rw [bitAt, bitAt, hdiv, hmod] at hread
        rw [bitAt, bitAt, hp]
        dsimp only
        rw [Function.update_self, Function.update_self]
        exact hread
      · rw [bitAt, bitAt]
        dsimp only
        rw [Function.update_of_ne hp, Function.update_of_ne hp]
        exact congrFun h p

section Calls

variable [DecidableEq H] (D : HeaderDecls H F)

omit [DecidableEq H] in
/-- What calls do depends on the bits of the headers and of the stack only. -/
theorem bitAt_execCalls_congr {vals vals' : FieldValues H F}
    (hvals : ∀ h, D.hdrBits vals h = D.hdrBits vals' h) : ∀ (calls : List (OpsCall H))
    {st st' : ℕ → Word}, bitAt st = bitAt st' →
    bitAt (execCalls D vals calls st) = bitAt (execCalls D vals' calls st')
  | [], _, _, h => h
  | .move _ _ _ :: calls, _, _, h =>
      bitAt_execCalls_congr hvals calls (bitAt_copyBytes_congr _ h)
  | .emit hdr start :: calls, st, st', h => by
      refine bitAt_execCalls_congr hvals calls ?_
      show bitAt (execStats vals (D.emitHeader hdr start) st) =
        bitAt (execStats vals' (D.emitHeader hdr start) st')
      rw [bitAt_emitHeader, bitAt_emitHeader, hvals, h]

/-- Where the last emission of a header stands, the stack holds its bits when the inverse of the
calls comes to that emission. -/
def ReadsBack (vals : FieldValues H F) (calls : List (OpsCall H)) (st : ℕ → Word) : Prop :=
  ∀ l h start l', calls = l ++ .emit h start :: l' → (∀ start', OpsCall.emit h start' ∉ l') →
    readBits (bitAt (undoMoves l st)) start (D.width h) = D.hdrBits vals h

omit [DecidableEq H] in
/-- A header that is emitted has a last emission. -/
theorem exists_last_emission {h : H} : ∀ {calls : List (OpsCall H)} {start : ℕ},
    OpsCall.emit h start ∈ calls → ∃ l start' l', calls = l ++ .emit h start' :: l' ∧
      ∀ start'', OpsCall.emit h start'' ∉ l'
  | c :: calls, start, hmem => by
      by_cases hlater : ∃ start', OpsCall.emit h start' ∈ calls
      · obtain ⟨start', hlater⟩ := hlater
        obtain ⟨l, start'', l', hcalls, hlast⟩ := exists_last_emission hlater
        exact ⟨c :: l, start'', l', by rw [hcalls, List.cons_append], hlast⟩
      · rcases List.mem_cons.mp hmem with rfl | hmem
        · exact ⟨[], start, calls, rfl, fun start' hstart' => hlater ⟨start', hstart'⟩⟩
        · exact absurd ⟨start, hmem⟩ hlater

variable [DecidableEq F]

theorem readsBack_iff (hnodup : ∀ h, ((D.fields h).map Prod.fst).Nodup)
    (vals vals₀ : FieldValues H F) (calls : List (OpsCall H)) (st : ℕ → Word) :
    ReadsBack D vals calls st ↔ ∀ h start, OpsCall.emit h start ∈ calls →
      D.hdrBits (invertCalls D calls (vals₀, st)).1 h = D.hdrBits vals h := by
  constructor
  · intro hread h start hmem
    obtain ⟨l, start', l', rfl, hlast⟩ := exists_last_emission hmem
    rw [hdrBits_invertCalls D (hnodup h) hlast]
    exact hread l h start' l' rfl hlast
  · rintro hread l h start l' rfl hlast
    rw [← hread h start (List.mem_append_right l List.mem_cons_self),
      hdrBits_invertCalls D (hnodup h) hlast]

/-- `ReconInput.Lossless` for the calls of any two actions. -/
def LosslessCalls (mid fin : List (OpsCall H)) : Prop :=
  ∀ (vals vals₀ : FieldValues H F) (st : ℕ → Word),
    (∀ h, (∀ start, OpsCall.emit h start ∉ mid) → vals₀ h = vals h) →
    let s := invertCalls D mid (vals₀, execCalls D vals mid st)
    (∀ h start, OpsCall.emit h start ∈ mid → ∀ fw ∈ D.fields h,
        sliceBits (s.1 h fw.1) 0 fw.2 = sliceBits (vals h fw.1) 0 fw.2) ∧
      bitAt (execCalls D s.1 fin s.2) = bitAt (execCalls D vals fin st)

/-- **Nothing is lost** exactly if the headers are read back and the last deparser makes the
same stack from what the inverse leaves, with the same values. -/
theorem losslessCalls_iff (hnodup : ∀ h, ((D.fields h).map Prod.fst).Nodup)
    (mid fin : List (OpsCall H)) :
    LosslessCalls D mid fin ↔
      (∀ vals st, ReadsBack D vals mid (execCalls D vals mid st)) ∧
        ∀ vals st, bitAt (execCalls D vals fin (undoMoves mid (execCalls D vals mid st))) =
          bitAt (execCalls D vals fin st) := by
  have hall : ∀ vals vals₀ st, (∀ h, (∀ start, OpsCall.emit h start ∉ mid) → vals₀ h = vals h) →
      (∀ h start, OpsCall.emit h start ∈ mid →
        D.hdrBits (invertCalls D mid (vals₀, execCalls D vals mid st)).1 h = D.hdrBits vals h) →
      ∀ h, D.hdrBits (invertCalls D mid (vals₀, execCalls D vals mid st)).1 h =
        D.hdrBits vals h := by
    intro vals vals₀ st hsame hread h
    by_cases hmem : ∃ start, OpsCall.emit h start ∈ mid
    · obtain ⟨start, hmem⟩ := hmem
      exact hread h start hmem
    · have hnot : ∀ start, OpsCall.emit h start ∉ mid := fun start hstart => hmem ⟨start, hstart⟩
      have hvals := (invertCalls_fst_of_notMem D mid (vals₀, execCalls D vals mid st) hnot).trans
        (hsame h hnot)
      simp only [HeaderDecls.hdrBits, hvals]
  have hstack : ∀ vals vals₀ st, (∀ h, D.hdrBits
      (invertCalls D mid (vals₀, execCalls D vals mid st)).1 h = D.hdrBits vals h) →
      bitAt (execCalls D (invertCalls D mid (vals₀, execCalls D vals mid st)).1 fin
        (invertCalls D mid (vals₀, execCalls D vals mid st)).2) =
      bitAt (execCalls D vals fin (undoMoves mid (execCalls D vals mid st))) := by
    intro vals vals₀ st hread
    rw [bitAt_execCalls_congr D hread fin rfl, invertCalls_snd]
  constructor
  · intro hlossless
    have hboth : ∀ vals st, (∀ h start, OpsCall.emit h start ∈ mid →
        D.hdrBits (invertCalls D mid (vals, execCalls D vals mid st)).1 h = D.hdrBits vals h) :=
      fun vals st h start hmem => (hdrBits_eq_iff D).mpr
        ((hlossless vals vals st fun _ _ => rfl).1 h start hmem)
    refine ⟨fun vals st => (readsBack_iff D hnodup vals vals mid _).mpr (hboth vals st),
      fun vals st => ?_⟩
    rw [← hstack vals vals st (hall vals vals st (fun _ _ => rfl) (hboth vals st))]
    exact (hlossless vals vals st fun _ _ => rfl).2
  · rintro ⟨hread, hagain⟩ vals vals₀ st hsame
    have hback := (readsBack_iff D hnodup vals vals₀ mid _).mp (hread vals st)
    refine ⟨fun h start hmem => (hdrBits_eq_iff D).mp (hback h start hmem), ?_⟩
    rw [hstack vals vals₀ st (hall vals vals₀ st hsame hback)]
    exact hagain vals st

end Calls

/-! ## Emissions alone -/

section Emissions

variable (D : HeaderDecls H F)

/-- The place of the last emission of a header is not written again. -/
def LastStands (l : List (H × ℕ)) : Prop :=
  ∀ l₁ h start l₂, l = l₁ ++ (h, start) :: l₂ → (∀ x ∈ l₂, x.1 ≠ h) → ∀ x ∈ l₂, ∀ p,
    start ≤ p → p < start + D.width h → x.2 ≤ p → x.2 + D.width x.1 ≤ p

/-- What emissions write. -/
def emissionWrites (vals : FieldValues H F) (l : List (H × ℕ)) : List (ℕ × List Bool) :=
  l.map fun x => (x.2, D.hdrBits vals x.1)

theorem bitAt_execCalls_emissionCalls (vals : FieldValues H F) : ∀ (l : List (H × ℕ))
    (st : ℕ → Word), bitAt (execCalls D vals (emissionCalls l) st) =
      writeAll (emissionWrites D vals l) (bitAt st)
  | [], _ => rfl
  | x :: l, st => by
      have ih := bitAt_execCalls_emissionCalls vals l (execStats vals (D.emitHeader x.1 x.2) st)
      rw [bitAt_emitHeader] at ih
      exact ih

theorem undoMoves_emissionCalls : ∀ (l : List (H × ℕ)) (st : ℕ → Word),
    undoMoves (emissionCalls l) st = st
  | [], _ => rfl
  | _ :: l, st => undoMoves_emissionCalls l st

theorem emit_mem_emissionCalls {h : H} {start : ℕ} {l : List (H × ℕ)} :
    OpsCall.emit h start ∈ emissionCalls l ↔ (h, start) ∈ l := by
  rw [emissionCalls, List.mem_map]
  constructor
  · rintro ⟨x, hx, heq⟩
    cases heq
    exact hx
  · intro hmem
    exact ⟨(h, start), hmem, rfl⟩

theorem emissionCalls_split {l : List (H × ℕ)} {c c' : List (OpsCall H)} {h : H} {start : ℕ}
    (hsplit : emissionCalls l = c ++ .emit h start :: c') :
    ∃ l₁ l₂, l = l₁ ++ (h, start) :: l₂ ∧ c = emissionCalls l₁ ∧ c' = emissionCalls l₂ := by
  obtain ⟨l₁, r, rfl, rfl, hr⟩ := List.map_eq_append_iff.mp hsplit
  obtain ⟨x, l₂, rfl, hx, rfl⟩ := List.map_eq_cons_iff.mp hr
  cases hx
  exact ⟨l₁, l₂, rfl, rfl, rfl⟩

/-- **The headers are read back** exactly if nothing is written over a last emission. -/
theorem readsBack_emissionCalls_iff [DecidableEq H] (l : List (H × ℕ)) :
    (∀ vals st, ReadsBack D vals (emissionCalls l)
      (execCalls D vals (emissionCalls l) st)) ↔ LastStands D l := by
  constructor
  · intro hread l₁ h start l₂ hl hlast x hx p hlow hhigh hxlow
    by_contra hxhigh
    have hlastCalls : ∀ start', OpsCall.emit h start' ∉ emissionCalls l₂ := fun start' hmem =>
      hlast _ (emit_mem_emissionCalls.mp hmem) rfl
    have hcalls : emissionCalls l = emissionCalls l₁ ++ .emit h start :: emissionCalls l₂ := by
      rw [hl, emissionCalls, List.map_append, List.map_cons]
      rfl
    have hback := hread (fun h' _ _ => decide (h' = h)) (fun _ _ => false) _ h start _ hcalls
      hlastCalls
    -- the place is read back as ones only, but a zero was written there
    have hone : bitAt (execCalls D (fun h' _ _ => decide (h' = h)) (emissionCalls l)
        fun _ _ => false) p = true := by
      rw [undoMoves_emissionCalls] at hback
      refine eq_of_mem_hdrBits D (fun h' _ _ => decide (h' = h)) (h := h)
        (fun _ _ => decide_eq_true rfl) ?_
      rw [← hback, readBits]
      exact List.mem_map.mpr ⟨p - start, List.mem_range.mpr (by omega), by congr 1; omega⟩
    have hzero : bitAt (execCalls D (fun h' _ _ => decide (h' = h)) (emissionCalls l)
        fun _ _ => false) p = false := by
      have hwrites : emissionWrites D (fun h' _ _ => decide (h' = h)) l =
          emissionWrites D (fun h' _ _ => decide (h' = h)) (l₁ ++ [(h, start)]) ++
            emissionWrites D (fun h' _ _ => decide (h' = h)) l₂ := by
        rw [hl, emissionWrites, emissionWrites, emissionWrites, ← List.map_append,
          List.append_assoc, List.singleton_append]
      rw [bitAt_execCalls_emissionCalls, hwrites, writeAll_append]
      refine writeAll_eq_of_forall (fun w hw b hb => ?_) (Or.inr ⟨_, List.mem_map_of_mem hx, ?_⟩)
      · obtain ⟨y, hy, rfl⟩ := List.mem_map.mp hw
        exact eq_of_mem_hdrBits D (fun h' _ _ => decide (h' = h)) (h := y.1)
          (fun _ _ => decide_eq_false (hlast y hy)) hb
      · rw [D.length_hdrBits]
        omega
    rw [hone] at hzero
    exact Bool.noConfusion hzero
  · intro hstands vals st c h start c' hcalls hlast
    obtain ⟨l₁, l₂, rfl, rfl, rfl⟩ := emissionCalls_split hcalls
    have hne : ∀ x ∈ l₂, x.1 ≠ h := by
      rintro ⟨h', start'⟩ hx rfl
      exact hlast start' (emit_mem_emissionCalls.mpr hx)
    have hwrites : emissionWrites D vals (l₁ ++ (h, start) :: l₂) =
        emissionWrites D vals l₁ ++ (start, D.hdrBits vals h) :: emissionWrites D vals l₂ := by
      rw [emissionWrites, List.map_append, List.map_cons]
      rfl
    have hback := readBits_writeBits start (D.hdrBits vals h)
      (writeAll (emissionWrites D vals l₁) (bitAt st))
    rw [D.length_hdrBits] at hback
    rw [undoMoves_emissionCalls, bitAt_execCalls_emissionCalls, hwrites, writeAll_append]
    refine (readBits_congr fun q hlow hhigh => ?_).trans hback
    refine writeAll_of_forall (l := emissionWrites D vals l₂) fun w hw hle => ?_
    obtain ⟨x, hx, rfl⟩ := List.mem_map.mp hw
    rw [D.length_hdrBits]
    exact hstands l₁ h start l₂ rfl hne x hx q hlow hhigh hle

/-- **Emissions and their inverse.**  What is emitted again is the same. -/
theorem losslessCalls_emissionCalls_iff [DecidableEq H] [DecidableEq F]
    (hnodup : ∀ h, ((D.fields h).map Prod.fst).Nodup) (l : List (H × ℕ)) :
    LosslessCalls D (emissionCalls l) (emissionCalls l) ↔ LastStands D l := by
  rw [losslessCalls_iff D hnodup, readsBack_emissionCalls_iff]
  refine and_iff_left fun vals st => ?_
  rw [undoMoves_emissionCalls, bitAt_execCalls_emissionCalls, bitAt_execCalls_emissionCalls,
    writeAll_idem]

end Emissions

end Partitioning
end MicroP4
