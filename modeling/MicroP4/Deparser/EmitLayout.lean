import MicroP4.Deparser.EmitTable

/-!
# Where the rows of the emit table put the headers

A row is laid out correctly when its action writes the valid headers of the row, in emit
order and back to back, from the initial offset of the row on (`EmitRow.Correct`).

The offset a row carries is right until `createP4Action` returns a declared action for
it: then the header is written where it belongs, but the row's offset falls behind by
the width of the header, and it stays behind.  That happens to a row as soon as an
earlier row of the table has been extended by the same header at the same offset, as when
different sets of headers have the same total width.  A row that has fallen behind is
still correct as long as no header of positive width follows; then the end of what should
be written is out of reach (`EmitRow.Short`).

The name of an action holds the bytes its header starts and ends in.  With initial offsets that
are not whole bytes an action can be returned that starts in the same byte at another bit, and
then the header itself is misplaced.

`Separated` is the condition on the combinations of headers that excludes both, and
`emitTable_correct_iff` says that it is the exact one.
-/

namespace MicroP4
namespace Deparser

open BitString

variable {H F : Type} [DecidableEq H]

/-! ## Combinations of headers -/

/-- What a row is about, without its offsets and its action: the initial offset and the
columns of the headers. -/
structure Combo (H : Type) where
  init : ℕ
  keys : List (H × Bool)
  deriving DecidableEq, Repr

namespace Combo

/-- The combination with one more column. -/
def extend (h : H) (b : Bool) (c : Combo H) : Combo H := ⟨c.init, c.keys ++ [(h, b)]⟩

/-- Where the valid headers of the combination end when they stand back to back. -/
def endOffset (D : DeparserInput H F) (c : Combo H) : ℕ :=
  c.init + D.totalWidth (validHdrs c.keys)

omit [DecidableEq H] in
@[simp] theorem endOffset_extend_false (D : DeparserInput H F) (h : H) (c : Combo H) :
    (c.extend h false).endOffset D = c.endOffset D := by
  simp [extend, endOffset]

omit [DecidableEq H] in
@[simp] theorem endOffset_extend_true (D : DeparserInput H F) (h : H) (c : Combo H) :
    (c.extend h true).endOffset D = c.endOffset D + D.width h := by
  rw [extend, endOffset, validHdrs_append_true, D.totalWidth_append, D.totalWidth_singleton,
    endOffset, Nat.add_assoc]

end Combo

variable (D : DeparserInput H F)

/-- The combinations of a table extended by one more header: those without it, then those
with it. -/
def DeparserInput.extendCombos (cs : List (Combo H)) (h : H) : List (Combo H) :=
  cs.map (Combo.extend h false) ++
    (cs.filter fun c => D.extends h c.keys).map (Combo.extend h true)

/-- A combination keeps its end, whatever rows further headers make of it: no row adds a
header of positive width to it. -/
def DeparserInput.Final (hs : List H) (c : Combo H) : Prop :=
  ∀ c' ∈ hs.foldl D.extendCombos [c], c'.endOffset D = c.endOffset D

/-- **The condition on the combinations of a table.**  Whenever two combinations are
extended by a header of positive width and end in the same byte, they end at the same offset,
and the later one is final once it is extended. -/
def DeparserInput.Separated : List (Combo H) → List H → Prop
  | _, [] => True
  | cs, h :: hs =>
      cs.Pairwise (fun c c' => D.extends h c.keys = true → D.extends h c'.keys = true →
        0 < D.width h → c.endOffset D / 8 = c'.endOffset D / 8 →
        c.endOffset D = c'.endOffset D ∧ D.Final hs (c'.extend h true)) ∧
      DeparserInput.Separated (D.extendCombos cs h) hs

/-- The combinations the table starts from, and the headers that extend them.  A deparser
entered at offset `0` only starts from the rows of its first header. -/
def DeparserInput.start : List (Combo H) × List H :=
  if D.initialOffsets = [0] then
    match D.emits with
    | [] => ([], [])
    | h :: hs => ([⟨0, [(h, false)]⟩, ⟨0, [(h, true)]⟩], hs)
  else (D.initialOffsets.map fun os => ⟨os, []⟩, D.emits)

/-! ## Final combinations -/

theorem mem_foldl_extendCombos {c' : Combo H} : ∀ (hs : List H) (cs : List (Combo H)),
    c' ∈ hs.foldl D.extendCombos cs ↔ ∃ c ∈ cs, c' ∈ hs.foldl D.extendCombos [c]
  | [], cs => by simp
  | h :: hs, cs => by
      simp only [List.foldl_cons]
      rw [mem_foldl_extendCombos hs]
      constructor
      · rintro ⟨d, hd, hc'⟩
        rw [DeparserInput.extendCombos, List.mem_append] at hd
        rcases hd with hd | hd
        · obtain ⟨c, hc, rfl⟩ := List.mem_map.1 hd
          refine ⟨c, hc, (mem_foldl_extendCombos hs _).2 ⟨_, ?_, hc'⟩⟩
          simp [DeparserInput.extendCombos]
        · obtain ⟨c, hc, rfl⟩ := List.mem_map.1 hd
          obtain ⟨hc, hext⟩ := List.mem_filter.1 hc
          refine ⟨c, hc, (mem_foldl_extendCombos hs _).2 ⟨_, ?_, hc'⟩⟩
          simp [DeparserInput.extendCombos, hext]
      · rintro ⟨c, hc, hc'⟩
        obtain ⟨d, hd, hc'⟩ := (mem_foldl_extendCombos hs _).1 hc'
        refine ⟨d, ?_, hc'⟩
        rw [DeparserInput.extendCombos, List.mem_append] at hd ⊢
        rcases hd with hd | hd
        · simp only [List.map_cons, List.map_nil, List.mem_singleton] at hd
          exact Or.inl (List.mem_map.2 ⟨c, hc, hd.symm⟩)
        · obtain ⟨e, he, rfl⟩ := List.mem_map.1 hd
          obtain ⟨he, hext⟩ := List.mem_filter.1 he
          rw [List.mem_singleton] at he
          subst he
          exact Or.inr (List.mem_map.2 ⟨e, List.mem_filter.2 ⟨hc, hext⟩, rfl⟩)

theorem final_nil (c : Combo H) : D.Final [] c := by
  intro c' hc'
  simp only [List.foldl_nil, List.mem_singleton] at hc'
  rw [hc']

/-- Ends never decrease along a table. -/
theorem endOffset_le_of_mem : ∀ (hs : List H) (c c' : Combo H),
    c' ∈ hs.foldl D.extendCombos [c] → c.endOffset D ≤ c'.endOffset D
  | [], c, c', h => by
      simp only [List.foldl_nil, List.mem_singleton] at h
      exact h ▸ Nat.le_refl _
  | h :: hs, c, c', hc' => by
      rw [List.foldl_cons] at hc'
      obtain ⟨d, hd, hc'⟩ := (mem_foldl_extendCombos D hs _).1 hc'
      have hle := endOffset_le_of_mem hs d c' hc'
      rw [DeparserInput.extendCombos, List.mem_append] at hd
      rcases hd with hd | hd
      · simp only [List.map_cons, List.map_nil, List.mem_singleton] at hd
        rw [hd, Combo.endOffset_extend_false] at hle
        exact hle
      · obtain ⟨e, he, rfl⟩ := List.mem_map.1 hd
        obtain ⟨he, -⟩ := List.mem_filter.1 he
        rw [List.mem_singleton] at he
        rw [he, Combo.endOffset_extend_true] at hle
        omega

/-- Every table over a combination contains one that ends no earlier: some row is made of
each combination. -/
theorem exists_mem_foldl_extendCombos : ∀ (hs : List H) (c : Combo H),
    ∃ c', c' ∈ hs.foldl D.extendCombos [c]
  | [], c => ⟨c, by simp⟩
  | h :: hs, c => by
      obtain ⟨c', hc'⟩ := exists_mem_foldl_extendCombos hs (c.extend h false)
      refine ⟨c', ?_⟩
      rw [List.foldl_cons, mem_foldl_extendCombos]
      exact ⟨_, by simp [DeparserInput.extendCombos], hc'⟩

/-- A combination is final if it is with the next header not emitted, and emitting that
header, where there is a row for it, adds no width. -/
theorem final_cons {h : H} {hs : List H} {c : Combo H} :
    D.Final (h :: hs) c ↔ D.Final hs (c.extend h false) ∧
      (D.extends h c.keys = true → D.width h = 0 ∧ D.Final hs (c.extend h true)) := by
  have hmem : ∀ c', c' ∈ (h :: hs).foldl D.extendCombos [c] ↔
      c' ∈ hs.foldl D.extendCombos [c.extend h false] ∨
        D.extends h c.keys = true ∧ c' ∈ hs.foldl D.extendCombos [c.extend h true] := by
    intro c'
    rw [List.foldl_cons, mem_foldl_extendCombos]
    by_cases hext : D.extends h c.keys = true
    · simp [DeparserInput.extendCombos, hext]
    · simp [DeparserInput.extendCombos, hext]
  constructor
  · intro hfin
    refine ⟨fun c' hc' => ?_, fun hext => ?_⟩
    · rw [Combo.endOffset_extend_false]
      exact hfin c' ((hmem c').2 (Or.inl hc'))
    · obtain ⟨d, hd⟩ := exists_mem_foldl_extendCombos D hs (c.extend h true)
      have hle := endOffset_le_of_mem D hs _ _ hd
      have heq := hfin d ((hmem d).2 (Or.inr ⟨hext, hd⟩))
      rw [Combo.endOffset_extend_true] at hle
      have hw : D.width h = 0 := by omega
      refine ⟨hw, fun c' hc' => ?_⟩
      rw [Combo.endOffset_extend_true, hw]
      exact hfin c' ((hmem c').2 (Or.inr ⟨hext, hc'⟩))
  · rintro ⟨hf, ht⟩ c' hc'
    rcases (hmem c').1 hc' with h₁ | ⟨hext, h₁⟩
    · have := hf c' h₁
      rwa [Combo.endOffset_extend_false] at this
    · obtain ⟨hw, ht⟩ := ht hext
      have := ht c' h₁
      rwa [Combo.endOffset_extend_true, hw] at this

/-! ## Correct rows -/

/-- **A row is laid out correctly.**  Its action writes its valid headers from the
initial offset on, in emit order and back to back, and nothing else. -/
def EmitRow.Correct (D : DeparserInput H F) (r : EmitRow H) : Prop :=
  ∀ a, r.action = some a → ∀ (vals : FieldValues H F) (st : ℕ → Word),
    bitAt (a.exec D.toHeaderDecls vals st) =
      writeBits r.init ((validHdrs r.keys).flatMap (D.hdrBits vals)) (bitAt st)

/-- The combination of a row. -/
def EmitRow.combo (r : EmitRow H) : Combo H := ⟨r.init, r.keys⟩

/-- An upper bound of what an action writes. -/
def EmitAction.reach (D : HeaderDecls H F) : EmitAction H → ℕ
  | .setOffset _ => 0
  | .emit h start => start + D.width h
  | .chain ancestor h start => max (ancestor.reach D) (start + D.width h)

omit [DecidableEq H] in
theorem EmitAction.execBits_of_reach_le (D : HeaderDecls H F) (vals : FieldValues H F) {q : ℕ} :
    ∀ (a : EmitAction H) (s : Bits), a.reach D ≤ q → a.execBits D vals s q = s q
  | .setOffset _, _, _ => rfl
  | .emit h start, s, hq => by
      rw [execBits, writeBits_of_ge]
      rw [D.length_hdrBits]
      exact hq
  | .chain ancestor h start, s, hq => by
      rw [reach] at hq
      rw [execBits, EmitAction.execBits_of_reach_le D vals ancestor _ (by omega),
        writeBits_of_ge]
      rw [D.length_hdrBits]
      omega

/-- What holds of every row of every table: the carried offset is at the end of the headers, or
it has fallen behind by a byte at least; while it is at the end the row is correct.  An action
that is returned in place of a new one starts at most seven bits behind the carried offset. -/
structure EmitRow.Inv (D : DeparserInput H F) (r : EmitRow H) : Prop where
  init_le : r.init ≤ r.emitOffset
  lag : r.emitOffset = r.combo.endOffset D ∨ r.emitOffset + 8 ≤ r.combo.endOffset D
  reach_le : ∀ a, r.action = some a → a.reach D.toHeaderDecls ≤ r.combo.endOffset D + 7
  noAction : r.action = none → validHdrs r.keys = []
  correct : r.emitOffset = r.combo.endOffset D → r.Correct D

omit [DecidableEq H] in
theorem EmitRow.Inv.le_end {D : DeparserInput H F} {r : EmitRow H} (hr : r.Inv D) :
    r.emitOffset ≤ r.combo.endOffset D := by
  rcases hr.lag with hend | hlag
  · exact Nat.le_of_eq hend
  · omega

/-- A row that is right and will stay right: it has not fallen behind, or it has, but no
width will be added to it. -/
def EmitRow.Stays (D : DeparserInput H F) (hs : List H) (r : EmitRow H) : Prop :=
  r.emitOffset = r.combo.endOffset D ∨ r.Correct D ∧ D.Final hs r.combo

section Extend

variable {D} {r : EmitRow H} {h : H}

omit [DecidableEq H] in
@[simp] theorem combo_extendFalse : (r.extendFalse h).combo = r.combo.extend h false := rfl

omit [DecidableEq H] in
@[simp] theorem combo_extendTrue (s e : ℕ) :
    (r.extendTrue h s e).combo = r.combo.extend h true := rfl

omit [DecidableEq H] in
theorem correct_extendFalse : (r.extendFalse h).Correct D ↔ r.Correct D := by
  have hkeys : validHdrs (r.extendFalse h).keys = validHdrs r.keys :=
    validHdrs_append_false r.keys h
  simp only [EmitRow.Correct, hkeys]
  rfl

omit [DecidableEq H] in
theorem EmitRow.Inv.extendFalse (hr : r.Inv D) : (r.extendFalse h).Inv D where
  init_le := hr.init_le
  lag := by
    rw [combo_extendFalse, Combo.endOffset_extend_false]
    exact hr.lag
  reach_le a ha := by
    rw [combo_extendFalse, Combo.endOffset_extend_false]
    exact hr.reach_le a ha
  noAction ha := by
    rw [EmitRow.extendFalse, validHdrs_append_false]
    exact hr.noAction ha
  correct he := by
    rw [combo_extendFalse, Combo.endOffset_extend_false] at he
    exact correct_extendFalse.2 (hr.correct he)

omit [DecidableEq H] in
/-- What the action of an extended row does, if the row was correct: it writes the new header
first and what the row has written before after it. -/
theorem EmitRow.Inv.exec_extendTrue (hr : r.Inv D) (hc : r.Correct D) {s e : ℕ}
    {a : EmitAction H} (ha : (r.extendTrue h s e).action = some a) (vals : FieldValues H F)
    (st : ℕ → Word) : bitAt (a.exec D.toHeaderDecls vals st) =
      writeBits r.init ((validHdrs r.keys).flatMap (D.hdrBits vals))
        (writeBits s (D.hdrBits vals h) (bitAt st)) := by
  rcases hact : r.action with _ | b
  · rw [EmitRow.extendTrue, hact] at ha
    simp only [Option.some.injEq] at ha
    rw [← ha, hr.noAction hact, EmitAction.bitAt_exec]
    simp [EmitAction.execBits]
  · rw [EmitRow.extendTrue, hact] at ha
    simp only [Option.some.injEq] at ha
    rw [← ha, EmitAction.exec, hc b hact, bitAt_emitHeader]

omit [DecidableEq H] in
theorem validHdrs_extendTrue (s e : ℕ) :
    validHdrs (r.extendTrue h s e).keys = validHdrs r.keys ++ [h] :=
  validHdrs_append_true r.keys h

omit [DecidableEq H] in
/-- If the header is written at the end of the others, or has no width, a correct row
stays correct. -/
theorem EmitRow.Inv.correct_extendTrue (hr : r.Inv D) (hc : r.Correct D) {s : ℕ} (e : ℕ)
    (hs : s = r.combo.endOffset D ∨ D.width h = 0) : (r.extendTrue h s e).Correct D := by
  intro a ha vals st
  have hinit : (r.extendTrue h s e).init = r.init := rfl
  rw [hr.exec_extendTrue hc ha, validHdrs_extendTrue, hinit, List.flatMap_append,
    List.flatMap_singleton]
  rcases hs with hs | hw
  · rw [writeBits_append', D.length_flatMap_hdrBits, hs]
    rfl
  · have hnil : D.hdrBits vals h = [] :=
      List.eq_nil_of_length_eq_zero ((D.length_hdrBits vals h).trans hw)
    rw [hnil, List.append_nil, writeBits_nil]

omit [DecidableEq H] in
/-- The row with the header emitted by a new action at the carried offset, which is advanced
by the width, or by one that was declared and starts in the same byte. -/
theorem EmitRow.Inv.extendTrue (hr : r.Inv D) (hw : 8 ∣ D.width h) {s e : ℕ}
    (hs : s = r.emitOffset ∧ e = r.emitOffset + D.width h ∨
      s / 8 = r.emitOffset / 8 ∧ e = r.emitOffset) : (r.extendTrue h s e).Inv D where
  init_le := by
    have hi := hr.init_le
    change r.init ≤ e
    omega
  lag := by
    have hlag := hr.lag
    rw [combo_extendTrue, Combo.endOffset_extend_true]
    change e = _ ∨ e + 8 ≤ _
    omega
  reach_le a ha := by
    have hle := hr.le_end
    rw [combo_extendTrue, Combo.endOffset_extend_true]
    rcases hact : r.action with _ | b
    · rw [EmitRow.extendTrue, hact] at ha
      simp only [Option.some.injEq] at ha
      rw [← ha, EmitAction.reach]
      omega
    · have hreach := hr.reach_le b hact
      rw [EmitRow.extendTrue, hact] at ha
      simp only [Option.some.injEq] at ha
      rw [← ha, EmitAction.reach]
      omega
  noAction ha := by
    rcases hact : r.action with _ | b
    · simp [EmitRow.extendTrue, hact] at ha
    · simp [EmitRow.extendTrue, hact] at ha
  correct hend := by
    have hle := hr.le_end
    rw [combo_extendTrue, Combo.endOffset_extend_true] at hend
    change e = _ at hend
    have hpos : r.emitOffset = r.combo.endOffset D := by omega
    refine hr.correct_extendTrue (hr.correct hpos) e ?_
    rcases hs with ⟨hs, -⟩ | ⟨-, he⟩
    · exact Or.inl (hs.trans hpos)
    · exact Or.inr (by omega)

omit [DecidableEq H] in
theorem eq_true_of_mem_flatMap_hdrBits {l : List H} :
    ∀ b ∈ l.flatMap (D.hdrBits fun _ _ _ => true), b = true := by
  intro b hb
  obtain ⟨h, -, hb⟩ := List.mem_flatMap.mp hb
  exact D.eq_true_of_mem_hdrBits hb

omit [DecidableEq H] in
/-- If all fields hold ones, a correct row leaves a one everywhere from the initial offset to
the end of the last header. -/
theorem EmitRow.Correct.bitAt_eq_true {r' : EmitRow H} (hc : r'.Correct D) {a : EmitAction H}
    (ha : r'.action = some a) {q : ℕ} (hq : r'.init ≤ q) (hlt : q < r'.combo.endOffset D)
    (st : ℕ → Word) : bitAt (a.exec D.toHeaderDecls (fun _ _ _ => true) st) q = true := by
  have hlen : q - r'.init <
      ((validHdrs r'.keys).flatMap (D.hdrBits fun _ _ _ => true)).length := by
    rw [D.length_flatMap_hdrBits]
    change q < r'.init + D.totalWidth (validHdrs r'.keys) at hlt
    omega
  rw [hc a ha, writeBits_of_mem hq (by omega), List.getD_eq_getElem _ _ hlen]
  exact eq_true_of_mem_flatMap_hdrBits _ (List.getElem_mem hlen)

omit [DecidableEq H] in
/-- A row that has fallen behind does not survive a header of positive width: the last
bit of that header is not written. -/
theorem EmitRow.Inv.not_correct_of_lag (hr : r.Inv D)
    (hlag : r.emitOffset < r.combo.endOffset D) (hw : 8 ∣ D.width h) (hpos : 0 < D.width h)
    {s : ℕ} (e : ℕ) (hs : s / 8 = r.emitOffset / 8) : ¬ (r.extendTrue h s e).Correct D := by
  intro hc
  have hinit := hr.init_le
  have hlag8 : r.emitOffset + 8 ≤ r.combo.endOffset D := by
    rcases hr.lag with hend | hlag8
    · omega
    · exact hlag8
  obtain ⟨q, hq⟩ : ∃ q, q = r.combo.endOffset D + D.width h - 1 := ⟨_, rfl⟩
  obtain ⟨a, ha, hreach⟩ : ∃ a, (r.extendTrue h s e).action = some a ∧
      a.reach D.toHeaderDecls ≤ q := by
    rcases hact : r.action with _ | b
    · refine ⟨_, by rw [EmitRow.extendTrue, hact], ?_⟩
      rw [EmitAction.reach]
      omega
    · refine ⟨_, by rw [EmitRow.extendTrue, hact], ?_⟩
      have hb := hr.reach_le b hact
      rw [EmitAction.reach]
      omega
  have hone := hc.bitAt_eq_true (q := q) ha (by change r.init ≤ q; omega)
    (by rw [combo_extendTrue, Combo.endOffset_extend_true]; omega) fun _ _ => false
  rw [EmitAction.bitAt_exec, EmitAction.execBits_of_reach_le _ _ _ _ hreach] at hone
  exact Bool.noConfusion hone

omit [DecidableEq H] in
/-- Nor is a row correct once a header of positive width is written elsewhere than at its end:
the first bit that belongs to the header stays as it was, or the last one. -/
theorem EmitRow.Inv.not_correct_of_ne (hr : r.Inv D) (hend : r.emitOffset = r.combo.endOffset D)
    (hpos : 0 < D.width h) {s : ℕ} (e : ℕ) (hs : s ≠ r.combo.endOffset D) :
    ¬ (r.extendTrue h s e).Correct D := by
  intro hc
  have hinit := hr.init_le
  obtain ⟨a, ha⟩ : ∃ a, (r.extendTrue h s e).action = some a := by
    rcases hact : r.action with _ | b
    · exact ⟨_, by rw [EmitRow.extendTrue, hact]⟩
    · exact ⟨_, by rw [EmitRow.extendTrue, hact]⟩
  have hkeys : (r.init + ((validHdrs r.keys).flatMap (D.hdrBits fun _ _ _ => true)).length) =
      r.combo.endOffset D := by
    rw [D.length_flatMap_hdrBits]
    rfl
  have hfalse : ∀ q, r.combo.endOffset D ≤ q → (q < s ∨ s + D.width h ≤ q) →
      q < r.combo.endOffset D + D.width h → False := by
    intro q hq hout hlt
    have hone := hc.bitAt_eq_true (q := q) ha (by change r.init ≤ q; omega)
      (by rw [combo_extendTrue, Combo.endOffset_extend_true]; exact hlt) fun _ _ => false
    rw [hr.exec_extendTrue (hr.correct hend) ha, writeBits_of_ge (by omega)] at hone
    rcases hout with hlow | hhigh
    · rw [writeBits_of_lt hlow] at hone
      exact Bool.noConfusion hone
    · rw [writeBits_of_ge (by rw [D.length_hdrBits]; exact hhigh)] at hone
      exact Bool.noConfusion hone
  rcases Nat.lt_or_ge (r.combo.endOffset D) s with hlt | hge
  · exact hfalse _ (Nat.le_refl _) (Or.inl hlt) (by omega)
  · exact hfalse (r.combo.endOffset D + D.width h - 1) (by omega) (Or.inr (by omega)) (by omega)

end Extend

/-! ## One more header -/

variable {D} {h : H} {hs : List H} {rows : List (EmitRow H)}

omit [DecidableEq H] in
/-- The action for a header starts at the carried offset, which is advanced by the width, if no
declared one starts in the same byte; such a one is returned otherwise. -/
theorem createP4Action_cases (hw : 8 ∣ D.width h) (declared : List ℕ) (c : ℕ) :
    ((∀ s ∈ declared, s / 8 ≠ c / 8) ∧ D.createP4Action h declared c = (c, c + D.width h)) ∨
      ∃ s ∈ declared, s / 8 = c / 8 ∧ D.createP4Action h declared c = (s, c) := by
  simp only [DeparserInput.createP4Action]
  rcases hf : declared.find? (fun s =>
      decide (s / 8 = c / 8 ∧ (s + D.width h) / 8 = (c + D.width h) / 8)) with _ | s
  · refine Or.inl ⟨fun s hs hsame => ?_, rfl⟩
    have hnone := List.find?_eq_none.1 hf s hs
    rw [decide_eq_true_eq] at hnone
    exact hnone ⟨hsame, by omega⟩
  · have hp := List.find?_some hf
    rw [decide_eq_true_eq] at hp
    exact Or.inr ⟨s, List.mem_of_find?_eq_some hf, hp.1, rfl⟩

variable (D h) in
/-- The starts that are declared after one more row. -/
def DeparserInput.declareStart (declared : List ℕ) (r : EmitRow H) : List ℕ :=
  if D.extends h r.keys then
    let start := (D.createP4Action h declared r.emitOffset).1
    if start ∈ declared then declared else declared ++ [start]
  else declared

/-- The combinations of the extended rows. -/
theorem map_combo_extendRows : ∀ (rows : List (EmitRow H)) (declared : List ℕ),
    (D.extendRows h declared rows).map EmitRow.combo =
      ((rows.map EmitRow.combo).filter fun c => D.extends h c.keys).map (Combo.extend h true)
  | [], _ => rfl
  | r :: rows, declared => by
      rw [DeparserInput.extendRows, List.map_cons, List.filter_cons]
      have hkeys : r.combo.keys = r.keys := rfl
      by_cases hext : D.extends h r.keys = true
      · rw [if_pos hext, hkeys, if_pos hext, List.map_cons, List.map_cons,
          map_combo_extendRows rows, combo_extendTrue]
      · rw [if_neg hext, hkeys, if_neg hext, map_combo_extendRows rows]

theorem map_combo_extendEmitTable (rows : List (EmitRow H)) :
    (D.extendEmitTable rows h).map EmitRow.combo =
      D.extendCombos (rows.map EmitRow.combo) h := by
  rw [DeparserInput.extendEmitTable, List.map_append, map_combo_extendRows, List.map_map,
    DeparserInput.extendCombos, List.map_map]
  rfl

/-- An extended row: it stands after some rows `l`, which decide what is declared. -/
theorem mem_extendRows {r' : EmitRow H} : ∀ {rows : List (EmitRow H)} {declared : List ℕ},
    r' ∈ D.extendRows h declared rows ↔ ∃ l r l', rows = l ++ r :: l' ∧
      D.extends h r.keys = true ∧ r' = r.extendTrue h
        (D.createP4Action h (l.foldl (D.declareStart h) declared) r.emitOffset).1
        (D.createP4Action h (l.foldl (D.declareStart h) declared) r.emitOffset).2
  | [], declared => by simp [DeparserInput.extendRows]
  | r :: rows, declared => by
      have hstep : r' ∈ D.extendRows h declared (r :: rows) ↔
          (D.extends h r.keys = true ∧ r' = r.extendTrue h
            (D.createP4Action h declared r.emitOffset).1
            (D.createP4Action h declared r.emitOffset).2) ∨
          r' ∈ D.extendRows h (D.declareStart h declared r) rows := by
        rw [DeparserInput.extendRows, DeparserInput.declareStart]
        by_cases hext : D.extends h r.keys = true
        · simp only [hext, if_true, List.mem_cons, true_and]
        · simp only [hext, Bool.false_eq_true, if_false, false_and, false_or]
      rw [hstep, mem_extendRows]
      constructor
      · rintro (⟨hext, rfl⟩ | ⟨l, a, l', rfl, hext, rfl⟩)
        · exact ⟨[], r, rows, rfl, hext, rfl⟩
        · exact ⟨r :: l, a, l', rfl, hext, rfl⟩
      · rintro ⟨l, a, l', hl, hext, rfl⟩
        rcases l with _ | ⟨b, l⟩
        · obtain ⟨rfl, rfl⟩ := List.cons.inj hl
          exact Or.inl ⟨hext, rfl⟩
        · obtain ⟨rfl, rfl⟩ := List.cons.inj hl
          exact Or.inr ⟨l, a, l', rfl, hext, rfl⟩

/-! ## What is declared -/

section Declared

variable {l : List (EmitRow H)} {r : EmitRow H}

/-- What is declared after a row holds what was declared before, and the start of the row. -/
theorem mem_declareStart {declared : List ℕ} {s : ℕ} : s ∈ D.declareStart h declared r ↔
    s ∈ declared ∨ D.extends h r.keys = true ∧
      s = (D.createP4Action h declared r.emitOffset).1 := by
  rw [DeparserInput.declareStart]
  by_cases hext : D.extends h r.keys = true
  · rw [if_pos hext]
    dsimp only
    split
    · rename_i hin
      constructor
      · exact Or.inl
      · rintro (hs | ⟨-, rfl⟩)
        · exact hs
        · exact hin
    · rw [List.mem_append, List.mem_singleton]
      simp only [hext, true_and]
  · simp only [hext, Bool.false_eq_true, if_false, false_and, or_false]

/-- Every declared start is the offset of a row that was extended. -/
theorem exists_of_mem_declared (hw : 8 ∣ D.width h) {s : ℕ}
    (hs : s ∈ l.foldl (D.declareStart h) []) :
    ∃ r ∈ l, D.extends h r.keys = true ∧ r.emitOffset = s := by
  induction l using List.reverseRecOn generalizing s with
  | nil => exact absurd hs List.not_mem_nil
  | append_singleton l r ih =>
      have hlift : ∀ {x}, x ∈ l.foldl (D.declareStart h) [] →
          ∃ r' ∈ l ++ [r], D.extends h r'.keys = true ∧ r'.emitOffset = x := by
        intro x hx
        obtain ⟨r', hr', hext⟩ := ih hx
        exact ⟨r', List.mem_append_left _ hr', hext⟩
      rw [List.foldl_append, List.foldl_cons, List.foldl_nil, mem_declareStart] at hs
      rcases hs with hs | ⟨hext, rfl⟩
      · exact hlift hs
      · rcases createP4Action_cases hw (l.foldl (D.declareStart h) []) r.emitOffset with
          ⟨-, heq⟩ | ⟨s, hs, -, heq⟩
        · rw [heq]
          exact ⟨r, by simp, hext, rfl⟩
        · rw [heq]
          exact hlift hs

/-- The declared starts are in different bytes. -/
theorem declared_inj (hw : 8 ∣ D.width h) {s s' : ℕ} (hs : s ∈ l.foldl (D.declareStart h) [])
    (hs' : s' ∈ l.foldl (D.declareStart h) []) (hsame : s / 8 = s' / 8) : s = s' := by
  induction l using List.reverseRecOn generalizing s s' with
  | nil => exact absurd hs List.not_mem_nil
  | append_singleton l r ih =>
      rw [List.foldl_append, List.foldl_cons, List.foldl_nil, mem_declareStart] at hs hs'
      rcases createP4Action_cases hw (l.foldl (D.declareStart h) []) r.emitOffset with
        ⟨hnew, heq⟩ | ⟨t, ht, -, heq⟩
      · rw [heq] at hs hs'
        rcases hs with hs | ⟨-, rfl⟩
        · rcases hs' with hs' | ⟨-, rfl⟩
          · exact ih hs hs' hsame
          · exact absurd hsame (hnew s hs)
        · rcases hs' with hs' | ⟨-, rfl⟩
          · exact absurd hsame.symm (hnew s' hs')
          · rfl
      · rw [heq] at hs hs'
        have hmem : ∀ {x}, x ∈ l.foldl (D.declareStart h) [] ∨ D.extends h r.keys = true ∧ x = t →
            x ∈ l.foldl (D.declareStart h) [] := by
          rintro x (hx | ⟨-, rfl⟩)
          · exact hx
          · exact ht
        exact ih (hmem hs) (hmem hs') hsame

/-- What is declared stays declared. -/
theorem declared_mono {s : ℕ} (l' : List (EmitRow H)) (hs : s ∈ l.foldl (D.declareStart h) []) :
    s ∈ (l ++ l').foldl (D.declareStart h) [] := by
  induction l' using List.reverseRecOn with
  | nil => rwa [List.append_nil]
  | append_singleton l' r ih =>
      rw [← List.append_assoc, List.foldl_append, List.foldl_cons, List.foldl_nil,
        mem_declareStart]
      exact Or.inl ih

end Declared

/-! ## One more header -/

/-- The row that an extended row becomes. -/
theorem exists_extendTrue {l l' : List (EmitRow H)} {r : EmitRow H}
    (hl : rows = l ++ r :: l') (hext : D.extends h r.keys = true) (hw : 8 ∣ D.width h) :
    ∃ s e, r.extendTrue h s e ∈ D.extendEmitTable rows h ∧
      (s = r.emitOffset ∧ e = r.emitOffset + D.width h ∧
          (∀ t ∈ l.foldl (D.declareStart h) [], t / 8 ≠ r.emitOffset / 8) ∨
        s ∈ l.foldl (D.declareStart h) [] ∧ s / 8 = r.emitOffset / 8 ∧ e = r.emitOffset) := by
  refine ⟨_, _, List.mem_append_right _ (mem_extendRows.2 ⟨l, r, l', hl, hext, rfl⟩), ?_⟩
  rcases createP4Action_cases hw (l.foldl (D.declareStart h) []) r.emitOffset with
    ⟨hnew, heq⟩ | ⟨s, hs, hsame, heq⟩
  · rw [heq]
    exact Or.inl ⟨rfl, rfl, hnew⟩
  · rw [heq]
    exact Or.inr ⟨hs, hsame, rfl⟩

/-- What extending by one header preserves. -/
theorem inv_extendEmitTable (hw : 8 ∣ D.width h) (hrows : ∀ r ∈ rows, r.Inv D) :
    ∀ r' ∈ D.extendEmitTable rows h, r'.Inv D := by
  intro r' hr'
  rw [DeparserInput.extendEmitTable, List.mem_append] at hr'
  rcases hr' with hr' | hr'
  · obtain ⟨r, hr, rfl⟩ := List.mem_map.1 hr'
    exact (hrows r hr).extendFalse
  · obtain ⟨l, r, l', hl, -, rfl⟩ := mem_extendRows.1 hr'
    refine (hrows r (by simp [hl])).extendTrue hw ?_
    rcases createP4Action_cases hw (l.foldl (D.declareStart h) []) r.emitOffset with
      ⟨-, heq⟩ | ⟨s, -, hsame, heq⟩
    · rw [heq]
      exact Or.inl ⟨rfl, rfl⟩
    · rw [heq]
      exact Or.inr ⟨hsame, rfl⟩

omit [DecidableEq H] in
/-- A relation holds along a list if each element stands in it to all before it. -/
theorem pairwise_of_split {α : Type} {R : α → α → Prop} : ∀ {l : List α},
    (∀ l₁ a l₂, l = l₁ ++ a :: l₂ → ∀ b ∈ l₁, R b a) → l.Pairwise R
  | [], _ => List.Pairwise.nil
  | b :: l, h => by
      rw [List.pairwise_cons]
      refine ⟨fun a ha => ?_, pairwise_of_split fun l₁ a l₂ hl c hc => ?_⟩
      · obtain ⟨l₁, l₂, rfl⟩ := List.append_of_mem ha
        exact h (b :: l₁) a l₂ rfl b List.mem_cons_self
      · exact h (b :: l₁) a l₂ (by rw [hl]; rfl) c (List.mem_cons_of_mem _ hc)

/-- A row that stays right and is extended by a header of positive width has not fallen
behind. -/
theorem EmitRow.Stays.emitOffset_eq {r : EmitRow H} (hr : r.Stays D (h :: hs))
    (hext : D.extends h r.keys = true) (hpos : 0 < D.width h) :
    r.emitOffset = r.combo.endOffset D := by
  rcases hr with hend | ⟨-, hfin⟩
  · exact hend
  · have hzero := (((final_cons D).1 hfin).2 hext).1
    omega

/-- If the row with a header emitted stays right, the row has not fallen behind or the header
has no width; the action of the header starts at the end of the row, or it has no width. -/
theorem EmitRow.Inv.start_eq_of_stays {r : EmitRow H} (hr : r.Inv D) (hw : 8 ∣ D.width h)
    (hpos : 0 < D.width h) {s e : ℕ} (hstart : s / 8 = r.emitOffset / 8)
    (he : e = r.emitOffset ∨ s = r.emitOffset ∧ e = r.emitOffset + D.width h)
    (hstays : (r.extendTrue h s e).Stays D hs) :
    r.emitOffset = r.combo.endOffset D ∧ s = r.emitOffset := by
  have hle := hr.le_end
  rcases hstays with hend | ⟨hc, -⟩
  · rw [combo_extendTrue, Combo.endOffset_extend_true] at hend
    change e = _ at hend
    rcases he with he | ⟨hs, he⟩
    · omega
    · exact ⟨by omega, hs⟩
  · have hend : r.emitOffset = r.combo.endOffset D := by
      by_contra hne
      exact hr.not_correct_of_lag (by omega) hw hpos e hstart hc
    refine ⟨hend, ?_⟩
    by_contra hne
    exact hr.not_correct_of_ne hend hpos e (fun heq => hne (heq.trans hend.symm)) hc

/-- If the extended rows stay right, so did the rows. -/
theorem stays_of_extendEmitTable (hw : 8 ∣ D.width h) (hrows : ∀ r ∈ rows, r.Inv D)
    (hall : ∀ r' ∈ D.extendEmitTable rows h, r'.Stays D hs) :
    ∀ r ∈ rows, r.Stays D (h :: hs) := by
  intro r hr
  have hinv := hrows r hr
  rcases Nat.eq_or_lt_of_le hinv.le_end with hend | hlag
  · exact Or.inl hend
  have hfalse : (r.extendFalse h).Stays D hs :=
    hall _ (List.mem_append_left _ (List.mem_map.2 ⟨r, hr, rfl⟩))
  rcases hfalse with hend | ⟨hcorrect, hfin⟩
  · rw [combo_extendFalse, Combo.endOffset_extend_false] at hend
    exact absurd hend (Nat.ne_of_lt hlag)
  -- the row has fallen behind: it must be correct and final
  refine Or.inr ⟨correct_extendFalse.1 hcorrect, (final_cons D).2 ⟨hfin, fun hext => ?_⟩⟩
  obtain ⟨l, l', hl⟩ := List.append_of_mem hr
  obtain ⟨s, e, hmem, hcase⟩ := exists_extendTrue hl hext hw
  have hzero : D.width h = 0 := by
    by_contra hne
    have hstart : s / 8 = r.emitOffset / 8 := by
      rcases hcase with ⟨rfl, -, -⟩ | ⟨-, hsame, -⟩
      · rfl
      · exact hsame
    have heq := (hinv.start_eq_of_stays hw (Nat.pos_of_ne_zero hne) hstart (by omega)
      (hall _ hmem)).1
    omega
  refine ⟨hzero, ?_⟩
  rcases hall _ hmem with hend | ⟨-, hfin'⟩
  · rw [combo_extendTrue, Combo.endOffset_extend_true] at hend
    change e = _ at hend
    omega
  · exact hfin'

/-- Of two rows that are extended and end in the same byte, the later one finds the action of the
earlier: it must end at the same offset, and be final. -/
theorem pairwise_of_extendEmitTable (hw : 8 ∣ D.width h) (hrows : ∀ r ∈ rows, r.Inv D)
    (hall : ∀ r' ∈ D.extendEmitTable rows h, r'.Stays D hs) :
    (rows.map EmitRow.combo).Pairwise (fun c c' => D.extends h c.keys = true →
      D.extends h c'.keys = true → 0 < D.width h → c.endOffset D / 8 = c'.endOffset D / 8 →
      c.endOffset D = c'.endOffset D ∧ D.Final hs (c'.extend h true)) := by
  rw [List.pairwise_map]
  refine pairwise_of_split ?_
  intro l r l' hl r₀ hr₀ hext₀ hext hpos hbyte
  obtain ⟨m, m', rfl⟩ := List.append_of_mem hr₀
  have hl₀ : rows = m ++ r₀ :: (m' ++ r :: l') := by rw [hl, List.append_assoc]; rfl
  have hinv₀ := hrows r₀ (by simp [hl₀])
  have hinv := hrows r (by simp [hl])
  -- the earlier row starts at its end, and that start is declared behind it
  obtain ⟨s₀, e₀, hmem₀, hcase₀⟩ := exists_extendTrue hl₀ hext₀ hw
  have hstart₀ : s₀ / 8 = r₀.emitOffset / 8 := by
    rcases hcase₀ with ⟨rfl, -, -⟩ | ⟨-, hsame, -⟩
    · rfl
    · exact hsame
  obtain ⟨hend₀, rfl⟩ := hinv₀.start_eq_of_stays hw hpos hstart₀ (by omega) (hall _ hmem₀)
  have hdecl : r₀.emitOffset ∈ (m ++ r₀ :: m').foldl (D.declareStart h) [] := by
    have hone : r₀.emitOffset ∈ (m ++ [r₀]).foldl (D.declareStart h) [] := by
      rw [List.foldl_append, List.foldl_cons, List.foldl_nil, mem_declareStart]
      rcases createP4Action_cases hw (m.foldl (D.declareStart h) []) r₀.emitOffset with
        ⟨-, heq⟩ | ⟨t, ht, hsame, -⟩
      · exact Or.inr ⟨hext₀, by rw [heq]⟩
      · rcases hcase₀ with ⟨-, -, hnew⟩ | ⟨hs₀, -, -⟩
        · exact absurd hsame (hnew t ht)
        · exact Or.inl hs₀
    have hmono := declared_mono m' hone
    rwa [List.append_assoc] at hmono
  -- so the later one finds it
  obtain ⟨s, e, hmem, hcase⟩ := exists_extendTrue hl hext hw
  have hend : r.emitOffset = r.combo.endOffset D :=
    (stays_of_extendEmitTable hw hrows hall r (by simp [hl])).emitOffset_eq hext hpos
  rw [← hend₀, ← hend] at hbyte ⊢
  rcases hcase with ⟨-, -, hnew⟩ | ⟨hs, hsame, he⟩
  · exact absurd hbyte (hnew _ hdecl)
  have hs₀ : s = r₀.emitOffset := declared_inj hw hs hdecl (hsame.trans hbyte.symm)
  have hs : s = r.emitOffset :=
    (hinv.start_eq_of_stays hw hpos hsame (Or.inl he) (hall _ hmem)).2
  refine ⟨hs₀.symm.trans hs, ?_⟩
  rcases hall _ hmem with hend' | ⟨-, hfin⟩
  · rw [combo_extendTrue, Combo.endOffset_extend_true] at hend'
    change e = _ at hend'
    omega
  · exact hfin

/-- An extended row stays right if the rows in front do and end elsewhere, or it is final. -/
theorem stays_extendTrue (hw : 8 ∣ D.width h) (hrows : ∀ r ∈ rows, r.Inv D)
    (hstays : ∀ r ∈ rows, r.Stays D (h :: hs)) {l l' : List (EmitRow H)} {r : EmitRow H}
    (hl : rows = l ++ r :: l') (hext : D.extends h r.keys = true)
    (hpair : ∀ r₀ ∈ l, D.extends h r₀.keys = true → 0 < D.width h →
      r₀.combo.endOffset D / 8 = r.combo.endOffset D / 8 →
      r₀.combo.endOffset D = r.combo.endOffset D ∧ D.Final hs (r.combo.extend h true)) :
    (r.extendTrue h (D.createP4Action h (l.foldl (D.declareStart h) []) r.emitOffset).1
      (D.createP4Action h (l.foldl (D.declareStart h) []) r.emitOffset).2).Stays D hs := by
  have hr : r ∈ rows := by simp [hl]
  have hinv := hrows r hr
  rcases hstays r hr with hend | ⟨hcorrect, hfin⟩
  · rcases createP4Action_cases hw (l.foldl (D.declareStart h) []) r.emitOffset with
      ⟨-, heq⟩ | ⟨s, hs, hsame, heq⟩
    · rw [heq]
      refine Or.inl ?_
      rw [combo_extendTrue, Combo.endOffset_extend_true, ← hend]
      rfl
    · rw [heq]
      rcases Nat.eq_zero_or_pos (D.width h) with hzero | hpos
      · refine Or.inl ?_
        rw [combo_extendTrue, Combo.endOffset_extend_true, hzero]
        exact hend
      · -- the action is the one of an earlier row that ends at the same offset
        obtain ⟨r₀, hr₀, hext₀, hs₀⟩ := exists_of_mem_declared hw hs
        have hend₀ := (hstays r₀ (by simp [hl, hr₀])).emitOffset_eq hext₀ hpos
        obtain ⟨hsame₀, hfin⟩ := hpair r₀ hr₀ hext₀ hpos (by rw [← hend₀, ← hend, hs₀, hsame])
        refine Or.inr ⟨hinv.correct_extendTrue (hinv.correct hend) _ (Or.inl ?_), hfin⟩
        rw [← hs₀, hend₀, hsame₀]
  · -- a row that has fallen behind is extended by headers without width only
    obtain ⟨hzero, hfin'⟩ := ((final_cons D).1 hfin).2 hext
    exact Or.inr ⟨hinv.correct_extendTrue hcorrect _ (Or.inr hzero), hfin'⟩

/-- **One header.**  The rows extended by a header stay right exactly when the rows before
did, and of two of them that are extended and end in the same byte the later one ends at the same
offset and is final. -/
theorem stays_extendEmitTable (hw : 8 ∣ D.width h) (hrows : ∀ r ∈ rows, r.Inv D) :
    (∀ r' ∈ D.extendEmitTable rows h, r'.Stays D hs) ↔
      (∀ r ∈ rows, r.Stays D (h :: hs)) ∧
        (rows.map EmitRow.combo).Pairwise (fun c c' => D.extends h c.keys = true →
          D.extends h c'.keys = true → 0 < D.width h →
          c.endOffset D / 8 = c'.endOffset D / 8 →
          c.endOffset D = c'.endOffset D ∧ D.Final hs (c'.extend h true)) := by
  constructor
  · exact fun hall => ⟨stays_of_extendEmitTable hw hrows hall,
      pairwise_of_extendEmitTable hw hrows hall⟩
  · rintro ⟨hstays, hpair⟩ r' hr'
    rw [List.pairwise_map] at hpair
    rw [DeparserInput.extendEmitTable, List.mem_append] at hr'
    rcases hr' with hr' | hr'
    · obtain ⟨r, hr, rfl⟩ := List.mem_map.1 hr'
      rcases hstays r hr with hend | ⟨hcorrect, hfin⟩
      · left
        rw [combo_extendFalse, Combo.endOffset_extend_false]
        exact hend
      · exact Or.inr ⟨correct_extendFalse.2 hcorrect, ((final_cons D).1 hfin).1⟩
    · obtain ⟨l, r, l', hl, hext, rfl⟩ := mem_extendRows.1 hr'
      refine stays_extendTrue hw hrows hstays hl hext fun r₀ hr₀ hext₀ hpos hbyte => ?_
      rw [hl, List.pairwise_append] at hpair
      exact hpair.2.2 r₀ hr₀ r List.mem_cons_self hext₀ hext hpos hbyte

/-- **All further headers.** -/
theorem correct_foldl_iff (hD : D.WholeBytes) : ∀ (hs : List H) (rows : List (EmitRow H)),
    (∀ r ∈ rows, r.Inv D) →
    ((∀ r ∈ hs.foldl D.extendEmitTable rows, r.Correct D) ↔
      (∀ r ∈ rows, r.Stays D hs) ∧ D.Separated (rows.map EmitRow.combo) hs)
  | [], rows, hrows => by
      rw [List.foldl_nil, DeparserInput.Separated, and_true]
      constructor
      · intro hc r hr
        exact Or.inr ⟨hc r hr, final_nil D _⟩
      · intro hs r hr
        rcases hs r hr with hend | ⟨hc, -⟩
        · exact (hrows r hr).correct hend
        · exact hc
  | h :: hs, rows, hrows => by
      rw [List.foldl_cons, correct_foldl_iff hD hs _ (inv_extendEmitTable (hD h) hrows),
        stays_extendEmitTable (hD h) hrows, map_combo_extendEmitTable, DeparserInput.Separated,
        and_assoc]

omit [DecidableEq H] in
/-- The rows of the first call carry the end of their headers. -/
theorem inv_createEmitTable (D : DeparserInput H F) (h : H) : ∀ r ∈ D.createEmitTable h,
    r.emitOffset = r.combo.endOffset D ∧ r.Inv D := by
  intro r hr
  simp only [DeparserInput.createEmitTable, DeparserInput.createP4Action, List.find?_nil,
    Nat.zero_add, List.mem_cons, List.not_mem_nil, or_false] at hr
  rcases hr with rfl | rfl
  · have hend : 0 = (EmitRow.combo ⟨none, [(h, false)], 0, none, 0⟩).endOffset D := by
      simp [EmitRow.combo, EmitRow.init, Combo.endOffset, validHdrs]
    exact ⟨hend,
      { init_le := Nat.le_refl 0
        lag := Or.inl hend
        reach_le := fun a ha => by simp at ha
        noAction := fun _ => by simp [validHdrs]
        correct := fun _ a ha => by simp at ha }⟩
  · have hend : D.width h = (EmitRow.combo ⟨none, [(h, true)], D.width h, some (.emit h 0),
        D.width h⟩).endOffset D := by
      simp [EmitRow.combo, EmitRow.init, Combo.endOffset, validHdrs]
    exact ⟨hend,
      { init_le := Nat.zero_le _
        lag := Or.inl hend
        reach_le := fun a ha => by
          rw [Option.some.injEq] at ha
          rw [← hend, ← ha, EmitAction.reach]
          omega
        noAction := fun ha => by simp at ha
        correct := fun _ a ha vals st => by
          rw [Option.some.injEq] at ha
          rw [← ha, EmitAction.exec, bitAt_emitHeader]
          simp [EmitRow.init, validHdrs] }⟩

omit [DecidableEq H] in
theorem inv_initTableWithOffsetEntries (D : DeparserInput H F) :
    ∀ r ∈ D.initTableWithOffsetEntries, r.emitOffset = r.combo.endOffset D ∧ r.Inv D := by
  intro r hr
  obtain ⟨os, -, rfl⟩ := List.mem_map.1 hr
  have hend : os = (EmitRow.combo (H := H) ⟨some os, [], os, some (.setOffset os), os⟩).endOffset
      D := by
    simp [EmitRow.combo, EmitRow.init, Combo.endOffset, validHdrs]
  exact ⟨hend,
    { init_le := Nat.le_refl os
      lag := Or.inl hend
      reach_le := fun a ha => by
        rw [Option.some.injEq] at ha
        rw [← ha, EmitAction.reach]
        exact Nat.zero_le _
      noAction := fun ha => by simp at ha
      correct := fun _ a ha vals st => by
        rw [Option.some.injEq] at ha
        rw [← ha, EmitAction.exec]
        simp [validHdrs] }⟩

/-- **Exactly when the emit table is laid out correctly.**  For headers of whole bytes, every
sequence of emit calls, every list of initial offsets and every pair of filters on combinations:
all rows write their headers where they belong if and only if the combinations are separated. -/
theorem emitTable_correct_iff (D : DeparserInput H F) (hD : D.WholeBytes) :
    (∀ r ∈ D.emitTable, r.Correct D) ↔ D.Separated D.start.1 D.start.2 := by
  by_cases hoff : D.initialOffsets = [0]
  · rcases hemits : D.emits with _ | ⟨h, hs⟩
    · simp [DeparserInput.emitTable, DeparserInput.start, hoff, hemits,
        DeparserInput.Separated]
    · have hstart : D.start =
          ([⟨0, [(h, false)]⟩, ⟨0, [(h, true)]⟩], hs) := by
        simp [DeparserInput.start, hoff, hemits]
      have htable : D.emitTable = hs.foldl D.extendEmitTable (D.createEmitTable h) := by
        simp [DeparserInput.emitTable, hoff, hemits]
      have hrow₀ := inv_createEmitTable D h
      have hcombos : (D.createEmitTable h).map EmitRow.combo =
          [⟨0, [(h, false)]⟩, ⟨0, [(h, true)]⟩] := rfl
      rw [htable, hstart, correct_foldl_iff hD hs _ fun r hr => (hrow₀ r hr).2, hcombos]
      exact and_iff_right fun r hr => Or.inl (hrow₀ r hr).1
  · have hstart : D.start = (D.initialOffsets.map fun os => ⟨os, []⟩, D.emits) := by
      simp [DeparserInput.start, hoff]
    have htable : D.emitTable = D.emits.foldl D.extendEmitTable D.initTableWithOffsetEntries := by
      simp [DeparserInput.emitTable, hoff]
    have hrow₀ := inv_initTableWithOffsetEntries D
    have hcombos : D.initTableWithOffsetEntries.map EmitRow.combo =
        D.initialOffsets.map fun os => ⟨os, []⟩ := by
      rw [DeparserInput.initTableWithOffsetEntries, List.map_map]
      rfl
    rw [htable, hstart, correct_foldl_iff hD _ _ fun r hr => (hrow₀ r hr).2, hcombos]
    exact and_iff_right fun r hr => Or.inl (hrow₀ r hr).1

/-- One header of a byte, entered at the bit offsets `0` and `16`. -/
def twoOffsets : DeparserInput Unit Unit where
  fields _ := [((), 8)]
  xoredHeaderSets := []
  parsedHeaders := none
  initialOffsets := [0, 16]
  emits := [()]

/-- The header is of whole bytes and goes to the offset that the packet was entered at. -/
theorem emitTable_correct_twoOffsets :
    twoOffsets.WholeBytes ∧ ∀ r ∈ twoOffsets.emitTable, r.Correct twoOffsets := by
  have hbytes : twoOffsets.WholeBytes := fun _ => ⟨1, rfl⟩
  refine ⟨hbytes, (emitTable_correct_iff twoOffsets hbytes).mpr ⟨?_, trivial⟩⟩
  exact List.pairwise_pair.mpr fun _ _ _ hbyte => absurd hbyte (by decide)

/-! ## Two headers of one width -/

/-- Four headers of 8, 8, 16 and 8 bits, each with one field, all emitted. -/
def equalWidths : DeparserInput (Fin 4) Unit where
  fields h := [((), 8 * [1, 1, 2, 1].getD h 0)]
  xoredHeaderSets := []
  parsedHeaders := none
  initialOffsets := [0]
  emits := [0, 1, 2, 3]

/-- With all headers but the first valid, the fourth is written where the third stands,
which then overwrites it: the row with the first and the third came before and declared
the action of the third at the same offset, so the offset of this row was not advanced. -/
theorem not_emitTable_correct_equalWidths :
    ¬ ∀ r ∈ equalWidths.emitTable, r.Correct equalWidths := by
  intro h
  have hmem : (⟨none, [(0, false), (1, true), (2, true), (3, true)], 8,
      some (.chain (.chain (.emit 1 0) 2 8) 3 8), 0⟩ : EmitRow (Fin 4)) ∈
      equalWidths.emitTable := by decide
  have hrow := h _ hmem _ rfl (fun _ _ _ => true) fun _ _ => false
  have hbit := congrFun hrow 31
  revert hbit
  decide

end Deparser
end MicroP4
