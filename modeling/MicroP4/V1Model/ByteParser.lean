import MicroP4.Tofino.ByteHdrStack

/-!
# The parser for v1model

The generated parser has a state that extracts one byte into the next element of the byte stack
and goes to itself.  It counts in `indices.pkt_len`, a `bit<16>` that starts at 1, and goes on
while the counter is at most the length of the packet, cut to 16 bits, and at most `maxExtLen`.
The length is in bytes and `maxExtLen` in bits, so that a packet longer than `maxExtLen / 8`
bytes is not left alone there (`parser_correct_iff`).
-/

namespace MicroP4
namespace V1Model

open Tofino (AnalysisResult)

/-! ## The parser -/

/-- A packet; `standard_metadata.packet_length` is a `bit<32>`. -/
structure Packet where
  bytes : List (BitVec 8)
  length_lt : bytes.length < 2 ^ 32

/-- `standard_metadata.packet_length`. -/
def Packet.packetLength (pkt : Packet) : BitVec 32 := BitVec.ofNat 32 pkt.bytes.length

/-- The errors of a parser. -/
inductive ParserError where
  | packetTooShort
  | stackOutOfBounds
  deriving DecidableEq

/-- The names of the states of the parser. -/
inductive StateName where
  | start
  | parseByte
  | accept
  deriving DecidableEq

/-- How far the packet is read, the byte stack with its next index, and `indices`. -/
structure Config where
  cursor : ℕ
  hdrStack : ℕ → Option (BitVec 8)
  nextIndex : ℕ
  indicesValid : Bool
  pktLen : BitVec 16

/-- In front of the start state. -/
def Config.initial : Config := ⟨0, fun _ => none, 0, false, 0⟩

/-- `pin.extract(msa_packet_struct.msa_hdr_stack.next)`, for a stack of `size` elements. -/
def extractNext (size : ℕ) (pkt : Packet) (c : Config) : Except ParserError Config :=
  if c.nextIndex ≥ size then .error .stackOutOfBounds
  else
    match pkt.bytes[c.cursor]? with
    | none => .error .packetTooShort
    | some b => .ok { c with
        cursor := c.cursor + 1
        hdrStack := Function.update c.hdrStack c.nextIndex (some b)
        nextIndex := c.nextIndex + 1 }

/-- `verify`. -/
def verify (check : Bool) (toSignal : ParserError) (c : Config) : Except ParserError Config :=
  if check then .ok c else .error toSignal

variable (A : AnalysisResult) (pkt : Packet)

/-- The start state. -/
def start (c : Config) : Except ParserError (StateName × Config) :=
  (verify (pkt.packetLength ≥ 14) .packetTooShort { c with indicesValid := true, pktLen := 1 }).map
    fun c => (.parseByte, c)

/-- The state `parse_byte`.  The constant gets the type of the counter. -/
def parseByte (c : Config) : Except ParserError (StateName × Config) :=
  (extractNext (A.byteStackSize / 8) pkt c).map fun c =>
    let c := { c with pktLen := c.pktLen + 1 }
    if c.pktLen ≤ pkt.packetLength.setWidth 16 ∧ c.pktLen ≤ BitVec.ofNat 16 A.maxExtLen then
      (.parseByte, c)
    else (.accept, c)

/-- A run of the parser that `createV1ModelParser` generates, of at most `fuel` states. -/
def run : ℕ → StateName → Config → Option (Except ParserError Config)
  | _, .accept, c => some (.ok c)
  | 0, _, _ => none
  | fuel + 1, .start, c =>
      match start pkt c with
      | .error e => some (.error e)
      | .ok (s, c) => run fuel s c
  | fuel + 1, .parseByte, c =>
      match parseByte A pkt c with
      | .error e => some (.error e)
      | .ok (s, c) => run fuel s c

/-- The parser accepts. -/
def Accepts (c : Config) : Prop := ∃ fuel, run A pkt fuel .start .initial = some (.ok c)

/-! ## The loop -/

/-- After `n` bytes are extracted. -/
def Config.loaded (pkt : Packet) (n : ℕ) : Config where
  cursor := n
  hdrStack i := if i < n then pkt.bytes[i]? else none
  nextIndex := n
  indicesValid := true
  pktLen := BitVec.ofNat 16 (n + 1)

/-- The bounds of the loop, in 16 bits. -/
def bound : ℕ := min (pkt.bytes.length % 2 ^ 16) (A.maxExtLen % 2 ^ 16)

/-- How many bytes are extracted, if the stack has an element for each of them: the first byte
in any case. -/
def loads : ℕ := max 1 (bound A pkt)

variable {A pkt}

theorem bound_le_length : bound A pkt ≤ pkt.bytes.length :=
  Nat.le_trans (Nat.min_le_left _ _) (Nat.mod_le _ _)

variable (A pkt) in
/-- The counter does not wrap in the loop, since `maxExtLen` is a multiple of 8. -/
theorem loads_add_one_lt : loads A pkt + 1 < 2 ^ 16 := by
  have hdvd := A.maxExtLen_dvd
  have hle : bound A pkt ≤ A.maxExtLen % 2 ^ 16 := Nat.min_le_right _ _
  unfold loads
  omega

theorem loads_le_length (h : 14 ≤ pkt.bytes.length) : loads A pkt ≤ pkt.bytes.length :=
  Nat.max_le.mpr ⟨Nat.le_trans (by decide) h, bound_le_length⟩

theorem extractNext_loaded {n : ℕ} (hn : n < pkt.bytes.length) (size : ℕ) :
    extractNext size pkt (.loaded pkt n) = if size ≤ n then .error .stackOutOfBounds
      else .ok { Config.loaded pkt (n + 1) with pktLen := BitVec.ofNat 16 (n + 1) } := by
  unfold extractNext
  by_cases hsize : size ≤ n
  · rw [if_pos hsize]
    exact if_pos hsize
  · have hget : pkt.bytes[n]? = some pkt.bytes[n] := List.getElem?_eq_getElem hn
    have hstack : Function.update (Config.loaded pkt n).hdrStack n (some pkt.bytes[n]) =
        (Config.loaded pkt (n + 1)).hdrStack := by
      ext1 i
      show _ = if i < n + 1 then pkt.bytes[i]? else none
      by_cases hi : i = n
      · rw [hi, Function.update_self, if_pos (Nat.lt_succ_self n), hget]
      · rw [Function.update_of_ne hi]
        show (if i < n then pkt.bytes[i]? else none) = _
        have hlt : i < n ↔ i < n + 1 := by omega
        simp only [hlt]
    have hin : ¬ (Config.loaded pkt n).nextIndex ≥ size := hsize
    rw [if_neg hsize, if_neg hin]
    show (match pkt.bytes[n]? with | none => _ | some b => _) = _
    rw [hget]
    exact congrArg (fun stack => Except.ok
      { Config.loaded pkt n with
        cursor := n + 1, hdrStack := stack, nextIndex := n + 1 }) hstack

/-- The test at the end of the state. -/
theorem test_iff {n : ℕ} (hn : n < 2 ^ 16) :
    (BitVec.ofNat 16 n ≤ pkt.packetLength.setWidth 16 ∧
      BitVec.ofNat 16 n ≤ BitVec.ofNat 16 A.maxExtLen) ↔ n ≤ bound A pkt := by
  have hlen : pkt.packetLength.toNat = pkt.bytes.length :=
    (BitVec.toNat_ofNat _ _).trans (Nat.mod_eq_of_lt pkt.length_lt)
  rw [BitVec.le_def, BitVec.le_def, BitVec.toNat_setWidth, hlen, BitVec.toNat_ofNat,
    BitVec.toNat_ofNat, Nat.mod_eq_of_lt hn]
  exact Nat.le_min.symm

/-- The state on a packet of which `n` bytes are extracted. -/
theorem parseByte_loaded {n : ℕ} (hn : n < pkt.bytes.length) (hlt : n + 2 < 2 ^ 16) :
    parseByte A pkt (.loaded pkt n) = if A.byteStackSize / 8 ≤ n then .error .stackOutOfBounds
      else .ok (if n + 2 ≤ bound A pkt then .parseByte else .accept, .loaded pkt (n + 1)) := by
  unfold parseByte
  rw [extractNext_loaded hn]
  split
  · rfl
  · have hcounter : BitVec.ofNat 16 (n + 1) + 1 = BitVec.ofNat 16 (n + 2) := by
      rw [BitVec.ofNat_add (n + 1) 1]
      rfl
    show Except.ok (if _ then _ else _) = _
    simp only [hcounter, test_iff hlt]
    split <;> rfl

theorem run_accept (fuel : ℕ) (c : Config) : run A pkt fuel .accept c = some (.ok c) := by
  cases fuel <;> rfl

theorem run_parseByte {n : ℕ} (hn : n < pkt.bytes.length) (hlt : n + 2 < 2 ^ 16) (fuel : ℕ) :
    run A pkt (fuel + 1) .parseByte (.loaded pkt n) =
      if A.byteStackSize / 8 ≤ n then some (.error .stackOutOfBounds)
      else run A pkt fuel (if n + 2 ≤ bound A pkt then .parseByte else .accept)
        (.loaded pkt (n + 1)) := by
  rw [run, parseByte_loaded hn hlt]
  by_cases hsize : A.byteStackSize / 8 ≤ n
  · rw [if_pos hsize, if_pos hsize]
  · rw [if_neg hsize, if_neg hsize]

/-- The last byte. -/
theorem run_parseByte_last {n : ℕ} (hn : n < pkt.bytes.length) (hlast : n + 1 = loads A pkt)
    (fuel : ℕ) : run A pkt (fuel + 1) .parseByte (.loaded pkt n) =
      if A.byteStackSize / 8 ≤ n then some (.error .stackOutOfBounds)
      else some (.ok (.loaded pkt (n + 1))) := by
  have hwrap := loads_add_one_lt A pkt
  have hstop : ¬ n + 2 ≤ bound A pkt := by
    have hmax : bound A pkt ≤ loads A pkt := Nat.le_max_right _ _
    omega
  rw [run_parseByte hn (by omega), if_neg hstop, run_accept]

/-- A byte that is not the last. -/
theorem run_parseByte_next {n : ℕ} (hn : n < pkt.bytes.length) (hnext : n + 2 ≤ loads A pkt)
    (fuel : ℕ) : run A pkt (fuel + 1) .parseByte (.loaded pkt n) =
      if A.byteStackSize / 8 ≤ n then some (.error .stackOutOfBounds)
      else run A pkt fuel .parseByte (.loaded pkt (n + 1)) := by
  have hwrap := loads_add_one_lt A pkt
  have hgo : n + 2 ≤ bound A pkt := by
    unfold loads at hnext
    omega
  rw [run_parseByte hn (by omega), if_pos hgo]

/-- **The loop**: with `k + 1` bytes to go, it extracts them, or stops at the end of the stack. -/
theorem exists_run_parseByte (hlen : loads A pkt ≤ pkt.bytes.length) {k : ℕ} : ∀ {n : ℕ},
    n + k + 1 = loads A pkt → ∃ fuel, run A pkt fuel .parseByte (.loaded pkt n) =
      if loads A pkt ≤ A.byteStackSize / 8 then some (.ok (.loaded pkt (loads A pkt)))
      else some (.error .stackOutOfBounds) := by
  induction k with
  | zero =>
      intro n hn
      refine ⟨1, ?_⟩
      rw [run_parseByte_last (by omega) hn, ← hn]
      by_cases hfit : n + 1 ≤ A.byteStackSize / 8
      · rw [if_neg (Nat.not_le.mpr hfit), if_pos hfit]
      · rw [if_pos (Nat.not_lt.mp hfit), if_neg hfit]
  | succ k ih =>
      intro n hn
      by_cases hsize : A.byteStackSize / 8 ≤ n
      · refine ⟨1, ?_⟩
        rw [run_parseByte_next (by omega) (by omega), if_pos hsize, if_neg (by omega)]
      · obtain ⟨fuel, hrun⟩ := ih (n := n + 1) (by omega)
        refine ⟨fuel + 1, ?_⟩
        rw [run_parseByte_next (by omega) (by omega), if_neg hsize, hrun]

/-! ## From the start -/

/-- More fuel does not change a run that ends. -/
theorem run_mono {fuel fuel' : ℕ} (hle : fuel ≤ fuel') {s : StateName} {c : Config}
    {r : Except ParserError Config} (h : run A pkt fuel s c = some r) :
    run A pkt fuel' s c = some r := by
  induction fuel generalizing fuel' s c with
  | zero =>
      cases s with
      | accept => rwa [run_accept] at h ⊢
      | start => cases h
      | parseByte => cases h
  | succ fuel ih =>
      obtain ⟨fuel', rfl⟩ : ∃ m, fuel' = m + 1 := ⟨fuel' - 1, by omega⟩
      cases s with
      | accept => rwa [run_accept] at h ⊢
      | start =>
          rw [run] at h ⊢
          cases hs : start pkt c with
          | error e => rwa [hs] at h
          | ok next =>
              rw [hs] at h
              exact ih (Nat.le_of_succ_le_succ hle) h
      | parseByte =>
          rw [run] at h ⊢
          cases hs : parseByte A pkt c with
          | error e => rwa [hs] at h
          | ok next =>
              rw [hs] at h
              exact ih (Nat.le_of_succ_le_succ hle) h

theorem run_unique {fuel fuel' : ℕ} {s : StateName} {c : Config}
    {r r' : Except ParserError Config} (h : run A pkt fuel s c = some r)
    (h' : run A pkt fuel' s c = some r') : r = r' :=
  Option.some.inj ((run_mono (Nat.le_max_left _ _) h).symm.trans
    (run_mono (Nat.le_max_right _ _) h'))

theorem start_initial (hlen : 14 ≤ pkt.bytes.length) :
    start pkt .initial = .ok (.parseByte, .loaded pkt 0) := by
  have hge : pkt.packetLength ≥ 14 := by
    show 14 ≤ (BitVec.ofNat 32 pkt.bytes.length).toNat
    rwa [BitVec.toNat_ofNat, Nat.mod_eq_of_lt pkt.length_lt]
  unfold start verify
  rw [if_pos (decide_eq_true hge)]
  rfl

/-- A run of the parser, which ends on every packet. -/
theorem exists_run (hlen : 14 ≤ pkt.bytes.length) :
    ∃ fuel, run A pkt fuel .start .initial =
      if loads A pkt ≤ A.byteStackSize / 8 then some (.ok (.loaded pkt (loads A pkt)))
      else some (.error .stackOutOfBounds) := by
  have hone : 1 ≤ loads A pkt := Nat.le_max_left _ _
  obtain ⟨fuel, hrun⟩ := exists_run_parseByte (A := A) (loads_le_length hlen)
    (k := loads A pkt - 1) (n := 0) (by omega)
  refine ⟨fuel + 1, ?_⟩
  rw [run, start_initial hlen]
  exact hrun

/-- When the parser accepts, and what it has then extracted. -/
theorem accepts_iff (hlen : 14 ≤ pkt.bytes.length) {c : Config} :
    Accepts A pkt c ↔ loads A pkt ≤ A.byteStackSize / 8 ∧ c = .loaded pkt (loads A pkt) := by
  obtain ⟨fuel, hrun⟩ := exists_run (A := A) hlen
  constructor
  · rintro ⟨fuel', h⟩
    by_cases hfit : loads A pkt ≤ A.byteStackSize / 8
    · rw [if_pos hfit] at hrun
      exact ⟨hfit, Except.ok.inj (run_unique h hrun)⟩
    · rw [if_neg hfit] at hrun
      cases run_unique h hrun
  · rintro ⟨hfit, rfl⟩
    rw [if_pos hfit] at hrun
    exact ⟨fuel, hrun⟩

/-! ## What it should extract -/

variable (A pkt) in
/-- The parser accepts, with the first `min length (maxExtLen / 8)` bytes of the packet in the
first elements of the stack, and no other byte read. -/
def Correct : Prop :=
  ∃ c, Accepts A pkt c ∧ c.cursor = min pkt.bytes.length (A.maxExtLen / 8) ∧
    c.nextIndex = min pkt.bytes.length (A.maxExtLen / 8) ∧
    ∀ i, c.hdrStack i =
      if i < min pkt.bytes.length (A.maxExtLen / 8) then pkt.bytes[i]? else none

theorem correct_iff_loads (hlen : 14 ≤ pkt.bytes.length) :
    Correct A pkt ↔ loads A pkt = min pkt.bytes.length (A.maxExtLen / 8) := by
  constructor
  · rintro ⟨c, haccepts, hcursor, -⟩
    obtain ⟨-, rfl⟩ := (accepts_iff hlen).mp haccepts
    exact hcursor
  · intro hloads
    have hfit : loads A pkt ≤ A.byteStackSize / 8 := by
      have hbound : A.maxExtLen / 8 ≤ A.byteStackSize / 8 :=
        Nat.div_le_div_right (Nat.le_add_right _ _)
      omega
    refine ⟨_, (accepts_iff hlen).mpr ⟨hfit, rfl⟩, hloads, hloads, fun i => ?_⟩
    rw [← hloads]
    rfl

/-- **The v1model parser**, for a `maxExtLen` of at least 14 bytes and a packet of as many: it
extracts what it should exactly if the packet has at most `maxExtLen / 8` bytes and fits the
16 bits of the counter, or if by chance the length in 16 bits is `maxExtLen / 8`. -/
theorem parser_correct_iff (hmax : 14 * 8 ≤ A.maxExtLen) (hlen : 14 ≤ pkt.bytes.length) :
    Correct A pkt ↔
      pkt.bytes.length ≤ A.maxExtLen / 8 ∧ pkt.bytes.length < 2 ^ 16 ∧
          pkt.bytes.length ≤ A.maxExtLen % 2 ^ 16 ∨
        A.maxExtLen / 8 < pkt.bytes.length ∧ pkt.bytes.length % 2 ^ 16 = A.maxExtLen / 8 ∧
          A.maxExtLen / 8 ≤ A.maxExtLen % 2 ^ 16 := by
  have hdvd := A.maxExtLen_dvd
  rw [correct_iff_loads hlen]
  unfold loads bound
  omega

/-- `n` bytes of zeros. -/
def zeros (n : ℕ) (h : n < 2 ^ 32) : Packet :=
  ⟨List.replicate n 0, (List.length_replicate ..).trans_lt h⟩

/-- One Ethernet header, and nothing inserted. -/
def ethernetOnly : AnalysisResult := ⟨112, 0, by decide, by decide⟩

/-- A packet that is the header. -/
theorem parser_correct_iff_fourteen :
    Correct ethernetOnly (zeros 14 (by decide)) ↔
      (zeros 14 (by decide)).bytes.length ≤ ethernetOnly.maxExtLen / 8 ∧
          (zeros 14 (by decide)).bytes.length < 2 ^ 16 ∧
          (zeros 14 (by decide)).bytes.length ≤ ethernetOnly.maxExtLen % 2 ^ 16 ∨
        ethernetOnly.maxExtLen / 8 < (zeros 14 (by decide)).bytes.length ∧
          (zeros 14 (by decide)).bytes.length % 2 ^ 16 = ethernetOnly.maxExtLen / 8 ∧
          ethernetOnly.maxExtLen / 8 ≤ ethernetOnly.maxExtLen % 2 ^ 16 :=
  parser_correct_iff (by decide) (by decide)

/-- A packet with one byte of payload: the parser wants it on the stack of 14 bytes. -/
theorem not_correct_fifteen : ¬ Correct ethernetOnly (zeros 15 (by decide)) := by
  rw [correct_iff_loads (by decide)]
  decide

end V1Model
end MicroP4
