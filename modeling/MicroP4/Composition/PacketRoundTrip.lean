import MicroP4.Composition.HitRows
import MicroP4.Parsing.StateMachine

/-!
# From the parser to the deparser

A package parses a packet into headers, its control works on them, and the deparser writes them
back.  The parser and the deparser are converted apart from each other: one reads slices of the
byte stack where its table has found the headers, the other writes slices of it where the rows
of its own table have them.  Both agree on the places (`ConvertedPackage.parse_and_shifts`).  So
a package that changes nothing leaves the packet as it was, however many of them are applied one
after the other, and what a package has put into the fields is what the next one reads from them.
-/

namespace MicroP4
namespace Composition

open BitString Assignments Parsing Deparser

variable {S S' H F X : Type}

/-! ## Headers in the packet -/

theorem advance_eq_sum (P : ParserDecl S H F X) : ∀ l : List (ParserStat H F X),
    advance P l = ((ParserDecl.extracted l).map P.width).sum
  | [] => rfl
  | .extract h :: l => congrArg (P.width h + ·) (advance_eq_sum P l)
  | .assign _ _ :: l => advance_eq_sum P l

/-- The statement that extracts a header. -/
theorem exists_extract : ∀ {l : List (ParserStat H F X)} {l₁ l₂ : List H} {h : H},
    ParserDecl.extracted l = l₁ ++ h :: l₂ → ∃ s₁ s₂, l = s₁ ++ .extract h :: s₂ ∧
      ParserDecl.extracted s₁ = l₁ ∧ ParserDecl.extracted s₂ = l₂
  | [], l₁, _, _, heq => by cases l₁ <;> cases heq
  | .assign x e :: l, l₁, l₂, h, heq => by
      obtain ⟨s₁, s₂, rfl, h₁, h₂⟩ := exists_extract (l := l) heq
      exact ⟨.assign x e :: s₁, s₂, rfl, h₁, h₂⟩
  | .extract h' :: l, [], l₂, h, heq => by
      obtain ⟨rfl, rfl⟩ := List.cons.inj heq
      exact ⟨[], l, rfl, rfl, rfl⟩
  | .extract h' :: l, a :: l₁, l₂, h, heq => by
      obtain ⟨rfl, hrest⟩ := List.cons.inj heq
      obtain ⟨s₁, s₂, rfl, h₁, h₂⟩ := exists_extract hrest
      exact ⟨.extract h' :: s₁, s₂, rfl, congrArg (h' :: ·) h₁, h₂⟩

/-- What the deparser finds in the fields. -/
def fieldWord (σ : Store H F X) : FieldValues H F := fun h f =>
  match σ (.field h f) with
  | .bits l => ofNetwork l
  | _ => fun _ => false

section Parsed

variable {P : Parser S H F X} [DecidableEq H] [DecidableEq F] [DecidableEq X]
variable {st : ℕ → Word} {σ : Store H F X} {o : ℕ} {q : List ℕ} {h : H}

theorem storeAt_valid (hh : h ∈ P.headers) : P.storeAt st σ o q (.valid h) =
    .flag (decide (h ∈ ParserDecl.extracted (P.statsTo q))) := by
  rw [Parser.storeAt, Parser.execAll_statsTo]
  by_cases hmem : h ∈ ParserDecl.extracted (P.statsTo q)
  · rw [run_statAssigns_valid _ _ hmem, decide_eq_true hmem]
  · rw [run_statAssigns_of_not_mem _ _ hmem, decide_eq_false hmem]
    exact if_pos hh

/-- A field of a header has the bits behind those of the headers and fields in front. -/
theorem storeAt_field {l₁ l₂ : List H} {fs₁ fs₂ : List (F × ℕ)} {f : F} {w : ℕ}
    (hq : ParserDecl.extracted (P.statsTo q) = l₁ ++ h :: l₂)
    (hfields : P.fields h = fs₁ ++ (f, w) :: fs₂) : P.storeAt st σ o q (.field h f) =
      .bits (readBits (bitAt st) (o + (l₁.map P.width).sum + (fs₁.map Prod.snd).sum) w) := by
  have hnodup := P.extracted_nodup q
  rw [hq] at hnodup
  have hlater : h ∉ l₂ := (List.nodup_cons.mp (List.nodup_append.mp hnodup).2.1).1
  have hfs := P.fields_nodup h
  rw [hfields, List.map_append, List.map_cons] at hfs
  have hf : f ∉ fs₂.map Prod.fst := (List.nodup_cons.mp (List.nodup_append.mp hfs).2.1).1
  obtain ⟨s₁, s₂, hstats, rfl, rfl⟩ := exists_extract hq
  rw [Parser.storeAt, Parser.execAll_statsTo, hstats,
    run_statAssigns_field P.toParserDecl _ o hlater hfields hf, advance_eq_sum]

variable {D : HeaderDecls H F}

/-- The bits of a header are those at its place. -/
theorem hdrBits_storeAt (hD : D.fields = P.fields) {l₁ l₂ : List H}
    (hq : ParserDecl.extracted (P.statsTo q) = l₁ ++ h :: l₂) :
    D.hdrBits (fieldWord (P.storeAt st σ o q)) h =
      readBits (bitAt st) (o + (l₁.map P.width).sum) (P.width h) := by
  rw [HeaderDecls.hdrBits, hD]
  refine flatMap_eq_readBits (bitAt st) (P.fields h) _ fun fs₁ fw fs₂ hfields => ?_
  have hfield : P.storeAt st σ o q (.field h fw.1) = .bits (readBits (bitAt st)
      (o + (l₁.map P.width).sum + (fs₁.map Prod.snd).sum) fw.2) := storeAt_field hq hfields
  have hslice := sliceBits_ofNetwork
    (readBits (bitAt st) (o + (l₁.map P.width).sum + (fs₁.map Prod.snd).sum) fw.2)
  rw [length_readBits] at hslice
  simp only [fieldWord, hfield]
  exact hslice

/-- The headers that are extracted make up the packet from the offset on. -/
theorem hdrsBits_storeAt (hD : D.fields = P.fields) :
    (ParserDecl.extracted (P.statsTo q)).flatMap
        (D.hdrBits (fieldWord (P.storeAt st σ o q))) =
      readBits (bitAt st) o (D.totalWidth (ParserDecl.extracted (P.statsTo q))) := by
  have hwidth : D.width = P.width := by
    ext h
    rw [HeaderDecls.width, hD, ParserDecl.width]
  rw [HeaderDecls.totalWidth, hwidth]
  exact flatMap_eq_readBits (bitAt st) _ o fun l₁ h l₂ hq => hdrBits_storeAt hD hq

end Parsed

/-! ## Packages -/

variable [DecidableEq S] [DecidableEq S'] [DecidableEq H] [DecidableEq F] [DecidableEq X]

/-- A package that is converted. -/
structure ConvertedPackage (S H F X : Type) [DecidableEq S] [DecidableEq H] [DecidableEq F]
    [DecidableEq X] where
  parser : Parser S H F X
  deparser : OpsInput H F
  fields_eq : deparser.fields = parser.fields
  control : Control H F X
  converted : parser.convert deparser.initialOffsets = some control

namespace ConvertedPackage

variable (K : ConvertedPackage S H F X)

/-- The columns for operations. -/
def opNames : List (H × Bool) := hdrOpKeyNames K.deparser.xoredValidityOps

/-- What the keys of the deparser's table find. -/
def keys (σ : Store H F X) (op : H × Bool → Bool) : DeparserKeys H where
  offset := if K.deparser.emits = [] ∧ K.opNames = [] then σ .currOffset else σ .localOffset
  valid h := σ (.valid h)
  op := op

/-- The packet behind the deparser. -/
def deparsed (σ : Store H F X) (op : H × Bool → Bool) (st : ℕ → Word) : ℕ → Word :=
  deparse K.deparser (K.keys σ op) (fieldWord σ) st

/-- The headers that the parser extracts on a path. -/
def parsed (q : List ℕ) : List H := ParserDecl.extracted (K.parser.statsTo q)

/-- The packet is accepted on a path, and the conversion of the parser is right for it. -/
structure Parses (st : ℕ → Word) (σ : Store H F X) (o : ℕ) (q : List ℕ) : Prop where
  offset_mem : o ∈ K.deparser.initialOffsets
  offset : K.deparser.initialOffsets ≠ [0] → σ .currOffset = .num o
  selects : K.parser.MeetsSelection K.deparser.initialOffsets o st σ
  accepts : K.parser.lastAction st σ o (K.parser.rank K.parser.start + 2) [] = .inst o q
  meets : K.parser.Meets q o

/-- The deparser emits the headers of the path in their order, the pruning keeps them together,
and the rows are laid out correctly.  Everything is whole bytes. -/
structure Deparses (q : List ℕ) : Prop where
  wellSized : K.deparser.WellSized
  order : (K.deparser.emits.filter fun h => h ∈ K.parsed q) = K.parsed q
  headers : ∀ h ∈ K.deparser.emits, h ∈ K.parser.headers
  keeps : KeepsRow K.deparser (K.parsed q)
  laidOut : LaidOut K.deparser

/-- What the control can do to the store, and the operations on headers it can perform: those of
a record.  The flags of the parser and the offset in its meta stay. -/
structure Body (σ τ : Store H F X) (op : H × Bool → Bool) (ops : HdrValidityOps H) : Prop where
  valid : ∀ h, τ (.valid h) = σ (.valid h)
  localOffset : τ .localOffset = σ .localOffset
  performs : if K.opNames = [] then ops.setValid = [] ∧ ops.setInvalid = []
    else Performs K.deparser (K.keys τ op) ops

/-- The headers that the deparser emits.  Of an operation on a header the record tells whether it
set the header valid or invalid; where there were both, the deparser removes the header if it was
parsed, and inserts it if it was not. -/
def emitted (σ : Store H F X) (op : H × Bool → Bool) (ops : HdrValidityOps H) : List H :=
  K.deparser.emits.filter ((K.keys σ op).isValidAfter ops)

variable {K} {st : ℕ → Word} {σ τ : Store H F X} {o : ℕ} {q : List ℕ} {op : H × Bool → Bool}
  {ops : HdrValidityOps H}

theorem Parses.run_eq (hp : K.Parses st σ o q) :
    K.control.run st σ = K.parser.storeAt st σ o q := by
  obtain ⟨c, hc, hrun⟩ := Parser.run_eq_leaves hp.offset_mem hp.offset hp.selects
    fun q' hq' => by
      rw [hp.accepts] at hq'
      cases hq'
      exact hp.meets
  rw [hp.accepts] at hrun
  cases hc.symm.trans K.converted
  exact hrun

/-- The deparser finds the flags of the headers that were parsed. -/
theorem Parses.keys_valid (hp : K.Parses st σ o q) (hd : K.Deparses q)
    (hb : K.Body (K.control.run st σ) τ op ops) : ∀ h ∈ K.deparser.emits,
      (K.keys τ op).valid h = .flag (decide (h ∈ K.parsed q)) := by
  intro h hh
  show τ (.valid h) = _
  rw [hb.valid, hp.run_eq, storeAt_valid (hd.headers h hh)]
  rfl

/-- What the deparser finds behind the control. -/
theorem Parses.meets_keys (hp : K.Parses st σ o q) (hd : K.Deparses q)
    (hb : K.Body (K.control.run st σ) τ op ops) :
    K.deparser.emits.filter (K.keys τ op).isValid = K.parsed q ∧
      Meets K.deparser (K.keys τ op) o := by
  have hflag := hp.keys_valid hd hb
  have hvalid : K.deparser.emits.filter (K.keys τ op).isValid = K.parsed q := by
    refine Eq.trans (List.filter_congr fun h hh => ?_) hd.order
    rw [DeparserKeys.isValid, hflag h hh]
    simp
  refine ⟨hvalid, hp.offset_mem, fun hzero hwork => ?_, fun h hh => ⟨_, hflag h hh⟩, ?_⟩
  · show (if K.deparser.emits = [] ∧ K.opNames = [] then τ .currOffset else τ .localOffset) = _
    refine (if_neg hwork).trans ?_
    rw [hb.localOffset, Parser.run_localOffset hzero K.converted, hp.offset hzero]
  · rw [hvalid]
    exact hd.keeps

theorem Parses.shifts (hp : K.Parses st σ o q) (hd : K.Deparses q)
    (hb : K.Body (K.control.run st σ) τ op ops) :
    Shifts K.deparser.byteStackSize o (o + K.deparser.totalWidth (K.parsed q))
      ((K.emitted τ op ops).flatMap (K.deparser.hdrBits (fieldWord τ))) (bitAt st)
      (bitAt (K.deparsed τ op st)) := by
  obtain ⟨hvalid, hk⟩ := hp.meets_keys hd hb
  have hshifts := shifts_deparse_of_laidOut hd.wellSized hd.laidOut hk hb.performs (fieldWord τ) st
  rw [hvalid] at hshifts
  exact hshifts

/-- The control leaves the headers as they were parsed: it sets none of them invalid, and none of
the others that the deparser emits valid. -/
structure Passes (K : ConvertedPackage S H F X) (σ τ : Store H F X) (ops : HdrValidityOps H)
    (q : List ℕ) : Prop where
  fields : ∀ h ∈ K.parsed q, ∀ f, τ (.field h f) = σ (.field h f)
  kept : ∀ h ∈ K.parsed q, h ∉ ops.setInvalid
  absent : ∀ h ∈ K.deparser.emits, h ∉ K.parsed q → h ∉ ops.setValid

/-- The deparser then emits what was parsed. -/
theorem Passes.emitted_eq (hp : K.Parses st σ o q) (hd : K.Deparses q)
    (hb : K.Body (K.control.run st σ) τ op ops)
    (hpass : K.Passes (K.control.run st σ) τ ops q) : K.emitted τ op ops = K.parsed q := by
  refine Eq.trans (List.filter_congr fun h hh => ?_) (hp.meets_keys hd hb).1
  have hvalid : (K.keys τ op).isValid h = decide (h ∈ K.parsed q) := by
    have hflag := hp.keys_valid hd hb h hh
    rw [DeparserKeys.isValid, hflag]
    simp
  rw [DeparserKeys.isValidAfter, hvalid]
  by_cases hmem : h ∈ K.parsed q
  · rw [decide_eq_true hmem, HdrValidityOps.op_getD_true, decide_eq_true (hpass.kept h hmem)]
  · rw [decide_eq_false hmem, HdrValidityOps.op_getD_false,
      decide_eq_false (hpass.absent h hh hmem)]

/-- The packet stays, as far as the byte stack reaches. -/
theorem Parses.bitAt_of_passes (hp : K.Parses st σ o q) (hd : K.Deparses q)
    (hb : K.Body (K.control.run st σ) τ op ops)
    (hpass : K.Passes (K.control.run st σ) τ ops q) {p : ℕ}
    (hlt : p < K.deparser.byteStackSize) : bitAt (K.deparsed τ op st) p = bitAt st p := by
  have hbits : (K.parsed q).flatMap (K.deparser.hdrBits (fieldWord τ)) =
      readBits (bitAt st) o (K.deparser.totalWidth (K.parsed q)) := by
    refine Eq.trans ?_ (hdrsBits_storeAt (σ := σ) (q := q) K.fields_eq)
    refine List.flatMap_congr fun h hh => List.flatMap_congr fun fw _ => ?_
    have hword : fieldWord τ h fw.1 = fieldWord (K.parser.storeAt st σ o q) h fw.1 := by
      rw [fieldWord, hpass.fields h hh, hp.run_eq, fieldWord]
    rw [hword]
  obtain ⟨hfront, hhdrs, hrest⟩ := hp.shifts hd hb p hlt
  rw [hpass.emitted_eq hp hd hb, hbits, length_readBits] at hhdrs hrest
  rcases Nat.lt_or_ge p o with hpo | hpo
  · exact hfront hpo
  rcases Nat.lt_or_ge p (o + K.deparser.totalWidth (K.parsed q)) with hin | hout
  · rw [hhdrs hpo hin, ← writeBits_of_mem (s := bitAt st) hpo (by rw [length_readBits]; exact hin),
      writeBits_readBits]
  · have hback := Nat.sub_add_cancel hout
    rw [hrest hout (by rw [hback]; exact hlt), hback]

/-- Packages that are applied one after the other, each to the packet that the one before has
left. -/
inductive Applies : List (ConvertedPackage S H F X) → (ℕ → Word) → (ℕ → Word) → Prop
  | nil (st : ℕ → Word) : Applies [] st st
  | cons {K : ConvertedPackage S H F X} {Ks : List (ConvertedPackage S H F X)} {st st' : ℕ → Word}
      {σ τ : Store H F X} {o : ℕ} {q : List ℕ} {op : H × Bool → Bool} {ops : HdrValidityOps H}
      (hp : K.Parses st σ o q) (hd : K.Deparses q) (hb : K.Body (K.control.run st σ) τ op ops)
      (hpass : K.Passes (K.control.run st σ) τ ops q)
      (h : Applies Ks (K.deparsed τ op st) st') : Applies (K :: Ks) st st'

/-- **Packages that change no header change no bit**, at whatever offsets and on whatever paths
each of them parses the packet. -/
theorem Applies.bitAt_eq {Ks : List (ConvertedPackage S H F X)} {st st' : ℕ → Word}
    (h : Applies Ks st st') {bss : ℕ} (hbss : ∀ K ∈ Ks, bss ≤ K.deparser.byteStackSize) :
    ∀ p < bss, bitAt st' p = bitAt st p := by
  induction h with
  | nil st => exact fun _ _ => rfl
  | cons hp hd hb hpass _ ih =>
      intro p hlt
      rw [ih (fun K hK => hbss K (List.mem_cons_of_mem _ hK)) p hlt]
      exact hp.bitAt_of_passes hd hb hpass (Nat.lt_of_lt_of_le hlt (hbss _ List.mem_cons_self))

/-! ## One package after the other -/

end ConvertedPackage

/-! ## Two bytes -/

/-- The deparser that emits two bytes, without operations. -/
def twoBytesDeparser : OpsInput BytePair Unit where
  fields _ := [((), 8)]
  xoredHeaderSets := []
  parsedHeaders := none
  initialOffsets := [0]
  emits := [.first, .second]
  xoredValidityOps := []
  byteStackSize := 24

theorem isSome_convert_twoBytes : (twoBytes.convert [0]).isSome = true := rfl

/-- The package that extracts two bytes if the first is zero. -/
def twoBytesPackage : ConvertedPackage BytePair BytePair Unit Unit where
  parser := twoBytes
  deparser := twoBytesDeparser
  fields_eq := rfl
  control := (twoBytes.convert [0]).get isSome_convert_twoBytes
  converted := (Option.some_get _).symm

namespace twoBytesPackage

theorem laidOut : LaidOut twoBytesDeparser := by
  refine (if_pos rfl).mpr ⟨List.pairwise_pair.mpr fun _ _ _ hend => ?_, trivial⟩
  exact absurd hend (by decide)

theorem deparses : twoBytesPackage.Deparses [0] where
  wellSized := ⟨fun _ => ⟨1, rfl⟩, by decide, by decide, by decide⟩
  order := rfl
  headers h _ := by cases h <;> decide
  keeps := ⟨fun _ hX => absurd hX List.not_mem_nil, fun _ _ => rfl⟩
  laidOut := laidOut

theorem parses {st : ℕ → Word} (hzero : twoBytes.chosen st (fun _ => .num 0) 0 [] = some 0)
    (haccept : twoBytes.chosen st (fun _ => .num 0) 0 [0] = some 0) :
    twoBytesPackage.Parses st (fun _ => .num 0) 0 [0] where
  offset_mem := List.mem_singleton_self 0
  offset h := absurd rfl h
  selects := meetsSelection_twoBytes hzero
  accepts := by
    show twoBytes.lastAction st (fun _ => .num 0) 0 3 [] = _
    rw [Parser.lastAction, hzero]
    show twoBytes.lastAction st (fun _ => .num 0) 0 2 [0] = _
    rw [Parser.lastAction, haccept]
    rfl
  meets := meets_twoBytes

/-- A packet of zeroes. -/
def zeroes : ℕ → Word := fun _ _ => false

theorem parses_zeroes : twoBytesPackage.Parses zeroes (fun _ => .num 0) 0 [0] :=
  parses (by decide) (by decide)

/-- The control changes nothing. -/
def passed (st : ℕ → Word) : Store BytePair Unit Unit := twoBytes.storeAt st (fun _ => .num 0) 0 [0]

theorem body_passed {st : ℕ → Word} (hp : twoBytesPackage.Parses st (fun _ => .num 0) 0 [0]) :
    twoBytesPackage.Body (twoBytesPackage.control.run st fun _ => .num 0) (passed st)
      (fun _ => false) ⟨[], []⟩ where
  valid h := by rw [hp.run_eq]; rfl
  localOffset := by rw [hp.run_eq]; rfl
  performs := (if_pos rfl).mpr ⟨rfl, rfl⟩

theorem passes {st : ℕ → Word} (hp : twoBytesPackage.Parses st (fun _ => .num 0) 0 [0]) :
    twoBytesPackage.Passes (twoBytesPackage.control.run st fun _ => .num 0) (passed st)
      ⟨[], []⟩ [0] where
  fields h _ f := by rw [hp.run_eq]; rfl
  kept _ _ := List.not_mem_nil
  absent _ _ _ := List.not_mem_nil

/-- Two packages that change nothing, one after the other. -/
theorem bitAt_eq_zeroes : (List.range 24).map (bitAt (twoBytesPackage.deparsed
      (passed (twoBytesPackage.deparsed (passed zeroes) (fun _ => false) zeroes)) (fun _ => false)
      (twoBytesPackage.deparsed (passed zeroes) (fun _ => false) zeroes))) =
    (List.range 24).map (bitAt zeroes) := by
  have hp : twoBytesPackage.Parses (twoBytesPackage.deparsed (passed zeroes) (fun _ => false)
      zeroes) (fun _ => .num 0) 0 [0] := parses (by decide) (by decide)
  have hbss : ∀ K ∈ [twoBytesPackage, twoBytesPackage], 24 ≤ K.deparser.byteStackSize :=
    List.forall_mem_cons.mpr ⟨Nat.le_refl 24, List.forall_mem_singleton.mpr (Nat.le_refl 24)⟩
  exact List.map_congr_left fun p hlt => ConvertedPackage.Applies.bitAt_eq
    (.cons parses_zeroes deparses (body_passed parses_zeroes) (passes parses_zeroes)
      (.cons hp deparses (body_passed hp) (passes hp) (.nil _))) hbss p (List.mem_range.mp hlt)

end twoBytesPackage

end Composition
end MicroP4
