import MicroP4.Composition.KeptRows
import MicroP4.Parsing.SavedOffset
import MicroP4.Parsing.StateMachine

/-!
# Restoring the offset of the caller

A caller applies one package after the other, each converted for the offset the caller has
stopped at.  The parser of a package moves `indices.curr_offset` and its deparser moves it back:
a row of the emit table ends with the action that its first column was made with, and that
action assigns the offset of the column.

The rows that `extendEntry` makes for header-validity operations call moves and emissions
alone.  A deparser without emissions selects the action by `indices.curr_offset` itself, and
assigns what is there.  Where the pruning has left no row for a packet, nothing is assigned.
-/

namespace MicroP4
namespace Composition

open BitString Parsing Deparser

variable {S H F X : Type}

/-! ## What is assigned to `curr_offset` -/

/-- The offset after an action of the emit table. -/
def EmitAction.currOffset (v : Value) : EmitAction H → Value
  | .setOffset os => .num os
  | .emit _ _ => v
  | .chain ancestor _ _ => EmitAction.currOffset v ancestor

/-- The offset after a call of an action that `extendEntry` makes. -/
def OpsCall.currOffset (v : Value) : OpsCall H → Value
  | .move _ _ _ => v
  | .emit _ _ => v

/-- The offset after all calls of the action. -/
def OpsAction.currOffset (a : OpsAction H) (v : Value) : Value := a.calls.foldl OpsCall.currOffset v

theorem OpsAction.currOffset_eq (a : OpsAction H) (v : Value) : OpsAction.currOffset a v = v := by
  unfold OpsAction.currOffset
  induction a.calls with
  | nil => rfl
  | cons c calls ih => cases c <;> exact ih

/-! ## Rows that reset the offset -/

/-- The action of the row assigns the offset in its column. -/
def Resets (r : EmitRow H) : Prop :=
  ∃ os a, r.keyOffset = some os ∧ r.action = some a ∧ ∀ v, EmitAction.currOffset v a = .num os

theorem resets_extendTrue {r : EmitRow H} (hr : Resets r) (h : H) (s e : ℕ) :
    Resets (r.extendTrue h s e) := by
  obtain ⟨os, a, hkey, haction, ha⟩ := hr
  refine ⟨os, .chain a h s, hkey, ?_, ha⟩
  simp only [EmitRow.extendTrue, haction]

theorem resets_foldl [DecidableEq H] {D : DeparserInput H F} (hs : List H) {rows : List (EmitRow H)}
    (hrows : ∀ r ∈ rows, Resets r) : ∀ r ∈ hs.foldl D.extendEmitTable rows, Resets r := by
  induction hs generalizing rows with
  | nil => exact hrows
  | cons h hs ih =>
      refine ih fun r hr => ?_
      obtain ⟨r₀, hr₀, rfl | ⟨s, e, rfl⟩⟩ := exists_of_mem_extendEmitTable hr
      · exact hrows r₀ hr₀
      · exact resets_extendTrue (hrows r₀ hr₀) h s e

/-- Every row of the emit table resets the offset. -/
theorem resets_emitTable [DecidableEq H] {D : DeparserInput H F} (hoff : D.initialOffsets ≠ [0]) :
    ∀ r ∈ D.emitTable, Resets r := by
  unfold DeparserInput.emitTable
  rw [if_neg hoff]
  refine resets_foldl D.emits fun r hr => ?_
  obtain ⟨os, -, rfl⟩ := List.mem_map.mp hr
  exact ⟨os, .setOffset os, rfl, rfl, fun _ => rfl⟩

/-! ## Callees -/

variable [DecidableEq S] [DecidableEq H] [DecidableEq F] [DecidableEq X]

/-- A package that is converted for other offsets than `0` alone.  `body` is what its control,
with the packages it applies, can do to the store, and the operations it can record; the
parser meta is an `in` parameter of the control. -/
structure Callee (S H F X : Type) [DecidableEq S] [DecidableEq H] [DecidableEq F]
    [DecidableEq X] where
  parser : Parser S H F X
  deparser : OpsInput H F
  offsets_ne : deparser.initialOffsets ≠ [0]
  control : Control H F X
  converted : parser.convert deparser.initialOffsets = some control
  body : Store H F X → Store H F X → (H × Bool → Bool) → Prop
  body_localOffset : ∀ {σ τ op}, body σ τ op → τ .localOffset = σ .localOffset

/-- The parser accepts the packet in `st` at an offset, from an instance on. -/
inductive Accepts (P : Parser S H F X) (st : ℕ → Word) (σ : Store H F X) (o : ℕ) : List ℕ → Prop
  | accept {p : List ℕ} {i : ℕ} : P.chosen st σ o p = some i →
      P.targetOf (i :: p) = some .accept → Accepts P st σ o p
  | next {p : List ℕ} {i : ℕ} {s : S} : P.chosen st σ o p = some i →
      P.targetOf (i :: p) = some (.state s) → Accepts P st σ o (i :: p) → Accepts P st σ o p

namespace Callee

variable (C : Callee S H F X)

/-- The columns for operations. -/
def opNames : List (H × Bool) := hdrOpKeyNames C.deparser.xoredValidityOps

/-- The keys of the deparser.  Without emissions and operations its table is the one of
`initTableWithOffsetEntries`. -/
def keys (σ : Store H F X) (op : H × Bool → Bool) : DeparserKeys H where
  offset := if C.deparser.emits = [] ∧ C.opNames = [] then σ .currOffset else σ .localOffset
  valid h := σ (.valid h)
  op := op

/-- The offset after the deparser.  If no row is hit, `NoAction` leaves it alone. -/
def deparse (σ : Store H F X) (op : H × Bool → Bool) : Value :=
  if C.opNames = [] then
    ((C.deparser.emitTable.find? (EmitRow.hit (C.keys σ op))).bind Deparser.EmitRow.action).elim
      (σ .currOffset) (EmitAction.currOffset (σ .currOffset))
  else
    ((C.deparser.opsTable.find? (OpsRow.hit C.opNames (C.keys σ op))).bind fun e =>
      C.deparser.findAction e.name).elim (σ .currOffset) fun a =>
        OpsAction.currOffset a (σ .currOffset)

/-- A run of the package on a packet that the parser accepts, up to the deparser. -/
structure Run where
  st : ℕ → Word
  before : Store H F X
  offset : ℕ
  before_currOffset : before .currOffset = .num offset
  accepts : Accepts C.parser st before offset []
  atDeparser : Store H F X
  op : H × Bool → Bool
  body : C.body (C.control.run st before) atDeparser op

/-- After the deparser the offset is the one that the parser started with, whichever row is hit,
and if none is. -/
def Restores : Prop := ∀ r : C.Run, C.deparse r.atDeparser r.op = r.before .currOffset

/-! ## What the deparser does to the offset -/

variable {C}

/-- A row with columns for operations leaves the offset alone. -/
theorem deparse_of_opNames_ne_nil (hnames : C.opNames ≠ []) (σ : Store H F X)
    (op : H × Bool → Bool) : C.deparse σ op = σ .currOffset := by
  unfold deparse
  rw [if_neg hnames]
  cases (C.deparser.opsTable.find? (OpsRow.hit C.opNames (C.keys σ op))).bind fun e =>
      C.deparser.findAction e.name with
  | none => rfl
  | some a => exact OpsAction.currOffset_eq a _

/-- A row that is hit resets the offset to the value in the column. -/
theorem deparse_of_hit (hnames : C.opNames = []) {σ : Store H F X} {op : H × Bool → Bool}
    (hhit : ∃ r ∈ C.deparser.emitTable, EmitRow.hit (C.keys σ op) r = true) :
    C.deparse σ op = (C.keys σ op).offset := by
  obtain ⟨r, hfind⟩ := Option.isSome_iff_exists.mp (List.find?_isSome.mpr hhit)
  obtain ⟨os, a, hkey, haction, ha⟩ :=
    resets_emitTable C.offsets_ne r (List.mem_of_find?_eq_some hfind)
  have hcolumn := List.find?_some hfind
  unfold EmitRow.hit at hcolumn
  rw [hkey, Option.all_some, Bool.and_eq_true, decide_eq_true_eq] at hcolumn
  unfold deparse
  rw [if_pos hnames, hfind, Option.bind_some, haction, Option.elim_some, ha, hcolumn.1]

/-- Without a row that is hit nothing happens. -/
theorem deparse_of_not_hit (hnames : C.opNames = []) {σ : Store H F X} {op : H × Bool → Bool}
    (hmiss : ¬ ∃ r ∈ C.deparser.emitTable, EmitRow.hit (C.keys σ op) r = true) :
    C.deparse σ op = σ .currOffset := by
  have hfind : C.deparser.emitTable.find? (EmitRow.hit (C.keys σ op)) = none :=
    List.find?_eq_none.mpr fun r hr hhit => hmiss ⟨r, hr, hhit⟩
  unfold deparse
  rw [if_pos hnames, hfind]
  rfl

/-! ## Runs -/

/-- The deparser resets the offset in this run: it has a header to emit and no columns for
operations, and there is a row for the offset the package was entered at and for the headers that
are valid. -/
structure Run.Resets (r : C.Run) : Prop where
  emits : C.deparser.emits ≠ []
  opNames : C.opNames = []
  hasRow : HasRow C.deparser (C.keys r.atDeparser r.op)

/-- At the deparser the parser meta has the offset that the parser started with. -/
theorem Run.localOffset (r : C.Run) : r.atDeparser .localOffset = r.before .currOffset :=
  (C.body_localOffset r.body).trans (Parser.run_localOffset C.offsets_ne C.converted r.st r.before)

theorem Run.Resets.deparse_eq {r : C.Run} (h : r.Resets) :
    C.deparse r.atDeparser r.op = r.before .currOffset := by
  rw [deparse_of_hit h.opNames ((exists_hit_iff C.offsets_ne).mpr h.hasRow), ← r.localOffset]
  exact if_neg fun hnil => h.emits hnil.1

/-- Otherwise the deparser leaves the offset alone. -/
theorem Run.deparse_of_not_resets {r : C.Run} (h : ¬ r.Resets) :
    C.deparse r.atDeparser r.op = r.atDeparser .currOffset := by
  by_cases hnames : C.opNames = []
  · by_cases hhit : ∃ e ∈ C.deparser.emitTable,
        EmitRow.hit (C.keys r.atDeparser r.op) e = true
    · -- a deparser without emissions, which assigns what is there
      rw [deparse_of_hit hnames hhit]
      refine if_pos ⟨not_not.mp fun hemits => h ⟨hemits, hnames, ?_⟩, hnames⟩
      exact (exists_hit_iff C.offsets_ne).mp hhit
    · exact deparse_of_not_hit hnames hhit
  · exact deparse_of_opNames_ne_nil hnames _ _

/-- Whether the offset is restored in a run. -/
theorem Run.deparse_eq_iff (r : C.Run) : C.deparse r.atDeparser r.op = r.before .currOffset ↔
    r.Resets ∨ r.atDeparser .currOffset = r.before .currOffset := by
  by_cases hreset : r.Resets
  · exact iff_of_true hreset.deparse_eq (Or.inl hreset)
  · rw [deparse_of_not_resets hreset, or_iff_right hreset]

/-! ## What was consumed -/

/-- A parser that the conversion is right for has consumed the headers of the path. -/
theorem Run.currOffset_parsed (r : C.Run) {q : List ℕ}
    (ho : r.offset ∈ C.deparser.initialOffsets)
    (hselects : C.parser.MeetsSelection C.deparser.initialOffsets r.offset r.st r.before)
    (hlast : C.parser.lastAction r.st r.before r.offset (C.parser.rank C.parser.start + 2) [] =
      .inst r.offset q) (hmeets : C.parser.Meets q r.offset) :
    C.control.run r.st r.before .currOffset =
      .num (r.offset + advance C.parser.toParserDecl (C.parser.statsTo q)) := by
  obtain ⟨c, hc, hrun⟩ := Parser.run_eq_leaves ho (fun _ => r.before_currOffset) hselects
    fun q' hq' => by
      rw [hlast] at hq'
      cases hq'
      exact hmeets
  cases hc.symm.trans C.converted
  rw [hrun, hlast]
  exact execAll_currOffset C.parser.toParserDecl (bitAt r.st) _ rfl

/-- Such a package, if its control applies no other, restores the offset if the deparser resets
it or no bit was parsed. -/
theorem Run.deparse_eq_iff_parsed (r : C.Run) {q : List ℕ}
    (ho : r.offset ∈ C.deparser.initialOffsets)
    (hselects : C.parser.MeetsSelection C.deparser.initialOffsets r.offset r.st r.before)
    (hlast : C.parser.lastAction r.st r.before r.offset (C.parser.rank C.parser.start + 2) [] =
      .inst r.offset q) (hmeets : C.parser.Meets q r.offset)
    (hbody : r.atDeparser .currOffset = C.control.run r.st r.before .currOffset) :
    C.deparse r.atDeparser r.op = r.before .currOffset ↔
      r.Resets ∨ advance C.parser.toParserDecl (C.parser.statsTo q) = 0 := by
  rw [r.deparse_eq_iff, hbody, r.currOffset_parsed ho hselects hlast hmeets, r.before_currOffset,
    Value.num.injEq, Nat.add_eq_left]

variable (C) in
/-- **The offset is restored** in the runs in which the deparser resets it, and in those in which
nothing was consumed when the deparser starts: where the conversion is right for the packet and
the control applies no other package, in those in which the parser has extracted no bit. -/
theorem restores_iff :
    (C.Restores ↔
      ∀ r : C.Run, r.Resets ∨ r.atDeparser .currOffset = r.before .currOffset) ∧
    ∀ (r : C.Run) (q : List ℕ), r.offset ∈ C.deparser.initialOffsets →
      C.parser.MeetsSelection C.deparser.initialOffsets r.offset r.st r.before →
      C.parser.lastAction r.st r.before r.offset (C.parser.rank C.parser.start + 2) [] =
        .inst r.offset q →
      C.parser.Meets q r.offset →
      r.atDeparser .currOffset = C.control.run r.st r.before .currOffset →
      (C.deparse r.atDeparser r.op = r.before .currOffset ↔
        r.Resets ∨ advance C.parser.toParserDecl (C.parser.statsTo q) = 0) :=
  ⟨forall_congr' Run.deparse_eq_iff, fun r _ => r.deparse_eq_iff_parsed⟩

/-! ## One callee after the other -/

/-- A caller applies packages one after the other. -/
inductive Applies : List ((C : Callee S H F X) × C.Run) → Value → Value → Prop
  | nil (v : Value) : Applies [] v v
  | cons {C : Callee S H F X} {rs : List ((C : Callee S H F X) × C.Run)} {w : Value} (r : C.Run)
      (h : Applies rs (C.deparse r.atDeparser r.op) w) :
      Applies (⟨C, r⟩ :: rs) (r.before .currOffset) w

/-- In a sequence of runs that restore the offset, every parser starts at the same one. -/
theorem Applies.before_eq {rs : List ((C : Callee S H F X) × C.Run)} {v w : Value}
    (h : Applies rs v w) (hrs : ∀ r ∈ rs, r.2.Resets ∨
      r.2.atDeparser .currOffset = r.2.before .currOffset) :
    w = v ∧ ∀ r ∈ rs, r.2.before .currOffset = v := by
  induction h with
  | nil v => exact ⟨rfl, fun r hr => absurd hr List.not_mem_nil⟩
  | cons r h ih =>
      obtain ⟨hend, hstarts⟩ := ih fun r' hr' => hrs r' (List.mem_cons_of_mem _ hr')
      rw [r.deparse_eq_iff.mpr (hrs _ List.mem_cons_self)] at hend hstarts
      exact ⟨hend, List.forall_mem_cons.mpr ⟨rfl, hstarts⟩⟩

end Callee

/-! ## A header that is removed -/

/-- A parser that extracts a header of a byte. -/
def oneHeader : Parser Unit Unit Unit Unit where
  headers := [()]
  fields _ := [((), 8)]
  start := ()
  components _ := [.extract ()]
  transition _ := .goto .accept
  fields_nodup _ := by decide
  extract_mem _ _ _ := List.mem_singleton_self _
  extracted_nodup := ParserDecl.extracted_nodup_of_owner _ (fun _ => 0) (by decide) id
    (fun _ _ _ => rfl) (by decide)
  rank _ := 0
  rank_lt := by decide
  sorted := [()]
  sorted_head := rfl
  mem_sorted _ _ _ := List.mem_singleton_self _
  sorted_pairwise := by decide

/-- The deparser of a package whose control removes that header. -/
def oneHeaderDeparser : OpsInput Unit Unit where
  fields _ := [((), 8)]
  xoredHeaderSets := []
  parsedHeaders := none
  initialOffsets := [8]
  emits := [()]
  xoredValidityOps := [⟨[], [()]⟩]
  byteStackSize := 24

theorem isSome_convert_oneHeader : (oneHeader.convert [8]).isSome = true := rfl

/-- The package is entered at offset `8`. -/
def removesHeader : Callee Unit Unit Unit Unit where
  parser := oneHeader
  deparser := oneHeaderDeparser
  offsets_ne := by decide
  control := (oneHeader.convert [8]).get isSome_convert_oneHeader
  converted := (Option.some_get _).symm
  body σ τ op := τ = σ ∧ op = fun c => !c.2
  body_localOffset h := by rw [h.1]

namespace removesHeader

/-- The package is called at offset `8`. -/
def before : Store Unit Unit Unit
  | .currOffset => .num 8
  | _ => .flag false

/-- A packet of zeroes. -/
def zeroes : ℕ → Word := fun _ _ => false

/-- The table selects the action that extracts the header. -/
theorem run_eq : removesHeader.control.run zeroes before =
    removesHeader.control.call zeroes (removesHeader.control.call zeroes before [.init])
      [.inst 8 []] := by
  have hplain : oneHeader.Plain := by
    intro p s es cases _ h
    cases h
  have hroot : oneHeader.IsRoot [8] [] :=
    ⟨fun _ => rfl, fun h => absurd h (by decide), 
      fun q hq hne => absurd (List.suffix_nil.mp hq) hne⟩
  have hstart : oneHeader.targetOf [] = some (.state ()) := rfl
  have hfuel : oneHeader.rank () + 1 < 2 := by decide
  obtain ⟨c, hc, hcalled⟩ := oneHeader.convert_called zeroes
    (removesHeader.control.call zeroes before [.init]) (List.nodup_singleton 8) hplain hroot
    hstart (List.mem_singleton_self 8) (fun _ => rfl) hfuel
  cases Option.some.inj (removesHeader.converted.symm.trans hc)
  unfold Control.run
  dsimp only
  rw [hcalled]
  rfl

/-- The run on the packet. -/
def run : removesHeader.Run where
  st := zeroes
  before := before
  offset := 8
  before_currOffset := rfl
  accepts := .accept (i := 0) rfl rfl
  atDeparser := removesHeader.control.run zeroes before
  op := fun c => !c.2
  body := ⟨rfl, rfl⟩

theorem deparse_run : removesHeader.deparse run.atDeparser run.op = .num 16 := by
  have hcurr : run.atDeparser .currOffset = .num 16 := congrFun run_eq .currOffset
  have hkeys : removesHeader.keys run.atDeparser run.op =
      ⟨.num 8, fun _ => .flag true, fun c => !c.2⟩ := by
    have hlocal : run.atDeparser .localOffset = .num 8 := congrFun run_eq .localOffset
    have hvalid : run.atDeparser (.valid ()) = .flag true := congrFun run_eq (.valid ())
    unfold Callee.keys
    rw [if_neg (by decide), hlocal]
    congr 1
    funext h
    exact hvalid
  unfold Callee.deparse
  rw [hkeys, hcurr]
  rfl

end removesHeader

/-- The header was extracted and is removed, and the caller goes on behind it. -/
theorem not_restores_removesHeader : ¬ removesHeader.Restores := by
  intro h
  have hrun := h removesHeader.run
  rw [removesHeader.deparse_run] at hrun
  cases hrun

end Composition
end MicroP4
