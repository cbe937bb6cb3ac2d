import Psc.Lib.NumericStd
import Psc.Lib.Spi

/-!
# The DCCT converter interface

`adc_ltc2376.vhd`: a start is latched, and on the ticks of a clock divider the machine gives the
conversion pulse, waits, and shifts in the bits of two daisy-chained converters, 36 or 40 by
`resolution`.

`clocksLeft` counts the clocks until the machine is at rest. Each clock without a start lowers it by
one and keeps `InOrder`, which ties the bits taken so far to the shift register (`step_inOrder`), so
`conversion` says what a start does.
-/

namespace Psc.Ltc2376

open Clocked NumericStd Spi

/-- `state_type`. -/
inductive Phase where
  | idle | setCnv | waitForNotBusy | sclkHi | sclkLo | done
  deriving DecidableEq

/-- The input ports. -/
structure Input where
  reset : Bool
  start : Bool
  resolution : Bool
  sdi : Bool

/-- The registers of `clkdivide`. -/
structure Divider where
  clkCnt : BitVec 8
  clkEnb : Bool

/-- The registers of the state machine. -/
structure Fsm where
  state : Phase
  shiftReg : BitVec 40
  cnvCount : ℕ
  bitCount : ℕ
  startLat : Bool
  cnv : Bool
  sclk : Bool
  dcct1 : BitVec 20
  dcct2 : BitVec 20
  dataRdy : Bool

/-- The registers. -/
structure State where
  divider : Divider
  fsm : Fsm

/-- `CNV_PULSE`. -/
def cnvPulse : ℕ := 10

/-- `CNV_WIDTH`. -/
def cnvWidth : ℕ := 51

/-- `num_bits`. -/
def numBits (resolution : Bool) : ℕ := if resolution then 40 else 36

/-- `clkdivide`. -/
def clkdivide (d : Divider) (reset : Bool) : Divider :=
  if reset then ⟨0, false⟩
  else if d.clkCnt = 4 then ⟨0, true⟩
  else ⟨d.clkCnt + 1, false⟩

/-- The state machine after a reset. -/
def resetFsm (s : Fsm) : Fsm :=
  { s with
    cnvCount := 0
    bitCount := 0
    shiftReg := 0
    dcct1 := 0
    dcct2 := 0
    dataRdy := false
    cnv := false
    startLat := false
    state := .idle }

/-- The state machine at a tick, with the start of this clock latched. -/
def tick (s : Fsm) (i : Input) : Fsm :=
  let s' := { s with startLat := s.startLat || i.start }
  match s.state with
  | .idle =>
    { s' with
      state := if s.startLat then .setCnv else .idle
      startLat := if s.startLat then false else i.start
      bitCount := numBits i.resolution - 1
      sclk := false
      dataRdy := false }
  | .setCnv =>
    if s.cnvCount = cnvPulse then
      { s' with cnv := false, cnvCount := 0, state := .waitForNotBusy }
    else { s' with cnv := true, cnvCount := s.cnvCount + 1 }
  | .waitForNotBusy =>
    if s.cnvCount = cnvWidth then { s' with cnvCount := 0, state := .sclkHi }
    else { s' with cnvCount := s.cnvCount + 1 }
  | .sclkHi =>
    { s' with shiftReg := setBit s.shiftReg s.bitCount i.sdi, state := .sclkLo, sclk := true }
  | .sclkLo =>
    -- the index has nine bits, and its last decrement wraps
    { s' with
      sclk := false
      bitCount := (s.bitCount + 2 ^ 9 - 1) % 2 ^ 9
      state := if s.bitCount = 0 then .done else .sclkHi }
  | .done =>
    { s' with
      dcct2 := if i.resolution then s.shiftReg.extractLsb' 20 20
        else (s.shiftReg.extractLsb' 18 18).signExtend 20
      dcct1 := if i.resolution then s.shiftReg.extractLsb' 0 20
        else (s.shiftReg.extractLsb' 0 18).signExtend 20
      bitCount := 0
      dataRdy := true
      state := .idle }

/-- The state machine. -/
def fsm (clkEnb : Bool) (s : Fsm) (i : Input) : Fsm :=
  if i.reset then resetFsm s
  else if clkEnb then tick s i
  else { s with startLat := s.startLat || i.start }

/-- One clock. -/
def step (s : State) (i : Input) : State where
  divider := clkdivide s.divider i.reset
  fsm := fsm s.divider.clkEnb s.fsm i

/-! ## Ticks -/

namespace Divider

/-- What a reset leaves, and every clock keeps. -/
def Ok (d : Divider) : Prop := d.clkCnt.toNat ≤ 4 ∧ (d.clkEnb = true → d.clkCnt = 0)

/-- The clocks before the next tick. -/
def wait (d : Divider) : ℕ := if d.clkEnb then 0 else 5 - d.clkCnt.toNat

theorem ok_reset (d : Divider) : (clkdivide d true).Ok := ⟨by simp [clkdivide], by simp [clkdivide]⟩

variable {d : Divider}

theorem clkdivide_of_eq (h : d.clkCnt = 4) : clkdivide d false = ⟨0, true⟩ := by
  rw [clkdivide, if_neg Bool.false_ne_true, if_pos h]

theorem clkdivide_of_ne (h : d.clkCnt ≠ 4) : clkdivide d false = ⟨d.clkCnt + 1, false⟩ := by
  rw [clkdivide, if_neg Bool.false_ne_true, if_neg h]

theorem toNat_add_one_of_ne (h : d.Ok) (hne : d.clkCnt ≠ 4) :
    (d.clkCnt + 1).toNat = d.clkCnt.toNat + 1 ∧ d.clkCnt.toNat < 4 := by
  have hle := h.1
  have hne' : d.clkCnt.toNat ≠ 4 := fun h => hne (BitVec.eq_of_toNat_eq h)
  refine ⟨?_, by omega⟩
  rw [BitVec.toNat_add]
  exact Nat.mod_eq_of_lt (by simp; omega)

theorem ok_clkdivide (h : d.Ok) : (clkdivide d false).Ok := by
  by_cases h4 : d.clkCnt = 4
  · rw [clkdivide_of_eq h4]
    exact ⟨by simp, fun _ => rfl⟩
  · obtain ⟨hadd, hlt⟩ := toNat_add_one_of_ne h h4
    rw [clkdivide_of_ne h4]
    exact ⟨by rw [hadd]; omega, fun henb => absurd henb Bool.false_ne_true⟩

theorem wait_clkdivide (h : d.Ok) :
    (clkdivide d false).wait = if d.clkEnb then 4 else d.wait - 1 := by
  cases henb : d.clkEnb with
  | true =>
    have hzero := h.2 henb
    rw [clkdivide_of_ne (by rw [hzero]; decide), hzero]
    rfl
  | false =>
    unfold wait
    rw [henb]
    by_cases h4 : d.clkCnt = 4
    · rw [clkdivide_of_eq h4, h4]
      rfl
    · obtain ⟨hadd, hlt⟩ := toNat_add_one_of_ne h h4
      rw [clkdivide_of_ne h4]
      dsimp only
      rw [hadd, if_neg Bool.false_ne_true, if_neg Bool.false_ne_true, if_neg Bool.false_ne_true]
      omega

theorem wait_pos (h : d.Ok) (henb : d.clkEnb = false) : 0 < d.wait := by
  have := h.1
  simp only [wait, henb, Bool.false_eq_true, if_false]
  omega

theorem wait_of_tick (henb : d.clkEnb = true) : d.wait = 0 := by simp [wait, henb]

theorem wait_clkdivide_le (h : d.Ok) : (clkdivide d false).wait ≤ 4 := by
  rw [wait_clkdivide h]
  have : d.wait ≤ 5 := by unfold wait; split_ifs <;> omega
  split_ifs <;> omega

end Divider

/-! ## A conversion -/

/-- The ticks until the machine is at rest, with `n` bits to a conversion. -/
def ticksLeft (n : ℕ) (s : Fsm) : ℕ :=
  match s.state with
  | .idle => if s.startLat then 66 + 2 * n else if s.dataRdy then 1 else 0
  | .setCnv => cnvPulse + 1 - s.cnvCount + (54 + 2 * n)
  | .waitForNotBusy => cnvWidth + 1 - s.cnvCount + (2 + 2 * n)
  | .sclkHi => 2 * (s.bitCount + 1) + 2
  | .sclkLo => 2 * s.bitCount + 3
  | .done => 2

/-- The clocks until the machine is at rest. -/
def clocksLeft (n : ℕ) (s : State) : ℕ :=
  if ticksLeft n s.fsm = 0 then 0 else s.divider.wait + 5 * (ticksLeft n s.fsm - 1) + 1

/-- `bits` are the first bits of the conversion, and stand in the shift register. -/
def Taken (n k : ℕ) (s : Fsm) (bits : List Bool) : Prop :=
  bits = (List.range k).map fun j => s.shiftReg.getLsbD (n - 1 - j)

/-- `bits` are the bits of the conversion: the first half of them is `dcct2`, the second half is
`dcct1`, and both are sign-extended. -/
def Converted (resolution : Bool) (s : Fsm) (bits : List Bool) : Prop :=
  ∃ x y : BitVec (numBits resolution / 2), bits = wordBits x ++ wordBits y ∧
    s.dcct2 = x.signExtend 20 ∧ s.dcct1 = y.signExtend 20

/-- Where the counters and `sclk` stand in each state, and how many bits have been taken. -/
def InOrder (resolution : Bool) (s : Fsm) (bits : List Bool) : Prop :=
  match s.state with
  | .idle =>
    s.cnvCount = 0 ∧ if s.startLat then bits = [] ∧ s.dataRdy = false
      else Converted resolution s bits
  | .setCnv =>
    s.cnvCount ≤ cnvPulse ∧ s.bitCount + 1 = numBits resolution ∧ s.startLat = false ∧
      s.dataRdy = false ∧ s.sclk = false ∧ bits = []
  | .waitForNotBusy =>
    s.cnvCount ≤ cnvWidth ∧ s.bitCount + 1 = numBits resolution ∧ s.startLat = false ∧
      s.dataRdy = false ∧ s.sclk = false ∧ bits = []
  | .sclkHi =>
    s.cnvCount = 0 ∧ s.bitCount < numBits resolution ∧ s.startLat = false ∧ s.dataRdy = false ∧
      s.sclk = false ∧ Taken (numBits resolution) (numBits resolution - 1 - s.bitCount) s bits
  | .sclkLo =>
    s.cnvCount = 0 ∧ s.bitCount < numBits resolution ∧ s.startLat = false ∧ s.dataRdy = false ∧
      s.sclk = true ∧ Taken (numBits resolution) (numBits resolution - s.bitCount) s bits
  | .done =>
    s.cnvCount = 0 ∧ s.startLat = false ∧ s.dataRdy = false ∧ s.sclk = false ∧
      Taken (numBits resolution) (numBits resolution) s bits

/-- `sclk` rises at the end of the clock. -/
def rises (s s' : Fsm) : Bool := !s.sclk && s'.sclk

/-- The bits taken with the clock. -/
def taking (s s' : Fsm) (i : Input) (bits : List Bool) : List Bool :=
  bits ++ if rises s s' then [i.sdi] else []

theorem taking_of_not_rises {s s' : Fsm} {i : Input} (bits : List Bool)
    (h : s.sclk = true ∨ s'.sclk = false) : taking s s' i bits = bits := by
  unfold taking rises
  rcases h with h | h
  · simp [h]
  · simp [h]

theorem numBits_pos (resolution : Bool) : 0 < numBits resolution := by
  cases resolution <;> decide

theorem numBits_le (resolution : Bool) : numBits resolution ≤ 40 := by
  cases resolution <;> decide

theorem Taken.succ {n b : ℕ} {s s' : Fsm} {bits : List Bool} {x : Bool} (hn : n ≤ 40) (hb : b < n)
    (h : Taken n (n - 1 - b) s bits) (hs' : s'.shiftReg = setBit s.shiftReg b x) :
    Taken n (n - b) s' (bits ++ [x]) := by
  unfold Taken at h ⊢
  rw [h, show n - b = n - 1 - b + 1 by omega, List.range_succ, List.map_append, hs']
  congr 1
  · apply List.map_congr_left
    intro j hj
    have := List.mem_range.mp hj
    rw [getLsbD_setBit, if_neg (by omega)]
  · rw [List.map_cons, List.map_nil, getLsbD_setBit, if_pos (by omega)]

/-- All the bits of a conversion, halved. -/
theorem Taken.halves {n : ℕ} {s : Fsm} {bits : List Bool} (m : ℕ) (hm : n = 2 * m)
    (h : Taken n n s bits) :
    bits = wordBits (s.shiftReg.extractLsb' m m) ++ wordBits (s.shiftReg.extractLsb' 0 m) := by
  have hword : ∀ lo, wordBits (s.shiftReg.extractLsb' lo m) =
      (List.range m).map fun j => s.shiftReg.getLsbD (lo + (m - 1 - j)) := by
    intro lo
    apply List.map_congr_left
    intro j hj
    have hjm := List.mem_range.mp hj
    rw [BitVec.getMsbD_eq_getLsbD, BitVec.getLsbD_extractLsb']
    simp [hjm]
    omega
  unfold Taken at h
  rw [h, hword, hword, hm, two_mul, List.range_add, List.map_append, List.map_map]
  congr 1
  · apply List.map_congr_left
    intro j hj
    have := List.mem_range.mp hj
    congr 1
    omega
  · apply List.map_congr_left
    intro j hj
    have := List.mem_range.mp hj
    simp only [Function.comp]
    congr 1
    omega

/-- A tick of a conversion: one less to go, with the bits in order. -/
structure Ticks (resolution : Bool) (s s' : Fsm) (i : Input) (bits : List Bool) : Prop where
  inOrder : InOrder resolution s' (taking s s' i bits)
  ticksLeft : ticksLeft (numBits resolution) s' + 1 = ticksLeft (numBits resolution) s

section Tick

variable {r : Bool} {s : Fsm} {i : Input} {bits : List Bool}

theorem ticks_of_keep {s' : Fsm} (hkeep : s.sclk = true ∨ s'.sclk = false)
    (hin : InOrder r s' bits) (hleft : ticksLeft (numBits r) s' + 1 = ticksLeft (numBits r) s) :
    Ticks r s s' i bits where
  inOrder := by rwa [taking_of_not_rises _ hkeep]
  ticksLeft := hleft

theorem tick_idle (hs : s.state = .idle) (hstart : i.start = false) (hres : i.resolution = r)
    (hleft : ticksLeft (numBits r) s ≠ 0) (h : InOrder r s bits) : Ticks r s (tick s i) i bits := by
  have hpos := numBits_pos r
  simp only [InOrder, hs] at h
  obtain ⟨hcnv, hlat⟩ := h
  cases hl : s.startLat with
  | true =>
    rw [hl, if_pos rfl] at hlat
    have htick : tick s i = { s with
        state := .setCnv, startLat := false, bitCount := numBits r - 1, sclk := false,
        dataRdy := false } := by
      simp [tick, hs, hl, hres]
    rw [htick]
    refine ticks_of_keep (.inr rfl) ?_ ?_
    · exact ⟨by simp [hcnv], by dsimp only; omega, rfl, rfl, rfl, hlat.1⟩
    · simp only [ticksLeft, hs, hl, hcnv, cnvPulse, if_true]
      omega
  | false =>
    rw [hl, if_neg Bool.false_ne_true] at hlat
    have hrdy : s.dataRdy = true := by
      by_contra hrdy
      simp [ticksLeft, hs, hl, hrdy] at hleft
    have htick : tick s i = { s with
        state := .idle, startLat := false, bitCount := numBits r - 1, sclk := false,
        dataRdy := false } := by
      simp [tick, hs, hl, hres, hstart]
    rw [htick]
    refine ticks_of_keep (.inr rfl) ?_ ?_
    · exact ⟨hcnv, by simpa [Converted] using hlat⟩
    · simp [ticksLeft, hs, hl, hrdy]

theorem tick_setCnv (hs : s.state = .setCnv) (hstart : i.start = false) (h : InOrder r s bits) :
    Ticks r s (tick s i) i bits := by
  simp only [InOrder, hs] at h
  obtain ⟨hcnv, hbit, hlat, hrdy, hsclk, hbits⟩ := h
  by_cases hend : s.cnvCount = cnvPulse
  · have htick : tick s i = { s with cnv := false, cnvCount := 0, state := .waitForNotBusy } := by
      simp [tick, hs, hstart, hend]
    rw [htick]
    refine ticks_of_keep (.inr hsclk) ?_ ?_
    · exact ⟨Nat.zero_le _, hbit, hlat, hrdy, hsclk, hbits⟩
    · simp only [ticksLeft, hs, hend, cnvPulse, cnvWidth]
      omega
  · have htick : tick s i = { s with cnv := true, cnvCount := s.cnvCount + 1 } := by
      simp [tick, hs, hstart, hend]
    rw [htick]
    refine ticks_of_keep (.inr hsclk) ?_ ?_
    · simp only [InOrder, hs]
      exact ⟨by omega, hbit, hlat, hrdy, hsclk, hbits⟩
    · simp only [ticksLeft, hs]
      omega

theorem tick_waitForNotBusy (hs : s.state = .waitForNotBusy) (hstart : i.start = false)
    (h : InOrder r s bits) : Ticks r s (tick s i) i bits := by
  simp only [InOrder, hs] at h
  obtain ⟨hcnv, hbit, hlat, hrdy, hsclk, hbits⟩ := h
  by_cases hend : s.cnvCount = cnvWidth
  · have htick : tick s i = { s with cnvCount := 0, state := .sclkHi } := by
      simp [tick, hs, hstart, hend]
    rw [htick]
    refine ticks_of_keep (.inr hsclk) ?_ ?_
    · refine ⟨rfl, by dsimp only; omega, hlat, hrdy, hsclk, ?_⟩
      rw [show numBits r - 1 - s.bitCount = 0 by omega, hbits]
      rfl
    · simp only [ticksLeft, hs, hend]
      omega
  · have htick : tick s i = { s with cnvCount := s.cnvCount + 1 } := by
      simp [tick, hs, hstart, hend]
    rw [htick]
    refine ticks_of_keep (.inr hsclk) ?_ ?_
    · simp only [InOrder, hs]
      exact ⟨by omega, hbit, hlat, hrdy, hsclk, hbits⟩
    · simp only [ticksLeft, hs]
      omega

theorem tick_sclkHi (hs : s.state = .sclkHi) (hstart : i.start = false) (h : InOrder r s bits) :
    Ticks r s (tick s i) i bits := by
  simp only [InOrder, hs] at h
  obtain ⟨hcnv, hbit, hlat, hrdy, hsclk, htaken⟩ := h
  have htick : tick s i = { s with
      shiftReg := setBit s.shiftReg s.bitCount i.sdi, state := .sclkLo, sclk := true } := by
    simp [tick, hs, hstart]
  rw [htick]
  refine ⟨?_, ?_⟩
  · refine ⟨hcnv, hbit, hlat, hrdy, rfl, ?_⟩
    have hrises : taking s { s with
        shiftReg := setBit s.shiftReg s.bitCount i.sdi, state := .sclkLo, sclk := true } i bits =
        bits ++ [i.sdi] := by
      simp [taking, rises, hsclk]
    rw [hrises]
    exact htaken.succ (numBits_le r) hbit rfl
  · simp only [ticksLeft, hs]
    omega

theorem tick_sclkLo (hs : s.state = .sclkLo) (hstart : i.start = false) (h : InOrder r s bits) :
    Ticks r s (tick s i) i bits := by
  simp only [InOrder, hs] at h
  obtain ⟨hcnv, hbit, hlat, hrdy, hsclk, htaken⟩ := h
  have hle := numBits_le r
  by_cases hend : s.bitCount = 0
  · have htick : tick s i = { s with sclk := false, bitCount := 511, state := .done } := by
      simp [tick, hs, hstart, hend]
    rw [htick]
    refine ticks_of_keep (.inr rfl) ?_ ?_
    · refine ⟨hcnv, hlat, hrdy, rfl, ?_⟩
      rw [hend] at htaken
      exact htaken
    · simp only [ticksLeft, hs, hend]
  · have htick : tick s i = { s with
        sclk := false, bitCount := s.bitCount - 1, state := .sclkHi } := by
      have hdec : (s.bitCount + 2 ^ 9 - 1) % 2 ^ 9 = s.bitCount - 1 := by omega
      simp [tick, hs, hstart, hend]
      omega
    rw [htick]
    refine ticks_of_keep (.inr rfl) ?_ ?_
    · refine ⟨hcnv, by dsimp only; omega, hlat, hrdy, rfl, ?_⟩
      dsimp only
      rw [show numBits r - 1 - (s.bitCount - 1) = numBits r - s.bitCount by omega]
      exact htaken
    · simp only [ticksLeft, hs]
      omega

theorem tick_done (hs : s.state = .done) (hstart : i.start = false) (hres : i.resolution = r)
    (h : InOrder r s bits) : Ticks r s (tick s i) i bits := by
  simp only [InOrder, hs] at h
  obtain ⟨hcnv, hlat, hrdy, hsclk, htaken⟩ := h
  have htick : (tick s i).state = .idle ∧ (tick s i).cnvCount = 0 ∧ (tick s i).startLat = false ∧
      (tick s i).dataRdy = true ∧ (tick s i).sclk = false := by
    simp [tick, hs, hstart, hcnv, hlat, hsclk]
  obtain ⟨hs', hcnv', hlat', hrdy', hsclk'⟩ := htick
  refine ⟨?_, ?_⟩
  · rw [taking_of_not_rises _ (.inr hsclk')]
    simp only [InOrder, hs', hlat', if_neg Bool.false_ne_true]
    refine ⟨hcnv', ?_⟩
    cases r with
    | true =>
      have h2 : (tick s i).dcct2 = (s.shiftReg.extractLsb' 20 20).signExtend 20 := by
        rw [BitVec.signExtend_eq]
        simp [tick, hs, hres]
      have h1 : (tick s i).dcct1 = (s.shiftReg.extractLsb' 0 20).signExtend 20 := by
        rw [BitVec.signExtend_eq]
        simp [tick, hs, hres]
      exact ⟨_, _, htaken.halves 20 rfl, h2, h1⟩
    | false =>
      have h2 : (tick s i).dcct2 = (s.shiftReg.extractLsb' 18 18).signExtend 20 := by
        simp [tick, hs, hres]
      have h1 : (tick s i).dcct1 = (s.shiftReg.extractLsb' 0 18).signExtend 20 := by
        simp [tick, hs, hres]
      exact ⟨_, _, htaken.halves 18 rfl, h2, h1⟩
  · simp [ticksLeft, hs, hs', hlat', hrdy']

/-- **A tick of a conversion.** -/
theorem tick_inOrder (hstart : i.start = false) (hres : i.resolution = r)
    (hleft : ticksLeft (numBits r) s ≠ 0) (h : InOrder r s bits) : Ticks r s (tick s i) i bits := by
  cases hs : s.state with
  | idle => exact tick_idle hs hstart hres hleft h
  | setCnv => exact tick_setCnv hs hstart h
  | waitForNotBusy => exact tick_waitForNotBusy hs hstart h
  | sclkHi => exact tick_sclkHi hs hstart h
  | sclkLo => exact tick_sclkLo hs hstart h
  | done => exact tick_done hs hstart hres h

end Tick

/-! ## Clocks -/

/-- What holds at rest. -/
structure AtRest (s : Fsm) : Prop where
  idle : s.state = .idle
  startLat : s.startLat = false
  dataRdy : s.dataRdy = false
  cnvCount : s.cnvCount = 0

section Clock

variable {r : Bool} {s : State} {i : Input} {bits : List Bool}

theorem ok_step (hr : i.reset = false) (h : s.divider.Ok) : (step s i).divider.Ok := by
  unfold step
  rw [hr]
  exact Divider.ok_clkdivide h

theorem fsm_of_not_tick (henb : s.divider.clkEnb = false) (hr : i.reset = false)
    (hstart : i.start = false) : (step s i).fsm = s.fsm := by
  simp [step, fsm, henb, hr, hstart]

theorem fsm_of_tick (henb : s.divider.clkEnb = true) (hr : i.reset = false) :
    (step s i).fsm = tick s.fsm i := by
  simp [step, fsm, henb, hr]

/-- **A clock without a start.** It leaves one clock less, and the bits in order. -/
theorem step_inOrder (hr : i.reset = false) (hstart : i.start = false) (hres : i.resolution = r)
    (hok : s.divider.Ok) (hleft : clocksLeft (numBits r) s ≠ 0) (h : InOrder r s.fsm bits) :
    InOrder r (step s i).fsm (taking s.fsm (step s i).fsm i bits) ∧
      clocksLeft (numBits r) (step s i) + 1 = clocksLeft (numBits r) s := by
  have hticks : ticksLeft (numBits r) s.fsm ≠ 0 := by
    intro h0
    simp [clocksLeft, h0] at hleft
  have hdiv : (step s i).divider = clkdivide s.divider false := by rw [step, hr]
  have hwait := Divider.wait_clkdivide hok
  unfold clocksLeft
  rw [hdiv]
  cases henb : s.divider.clkEnb with
  | true =>
    have htick := tick_inOrder hstart hres hticks h
    rw [fsm_of_tick henb hr]
    refine ⟨htick.inOrder, ?_⟩
    have hone := htick.ticksLeft
    have hnow := Divider.wait_of_tick henb
    rw [henb, if_pos rfl] at hwait
    rw [hwait, hnow, if_neg hticks]
    split_ifs <;> omega
  | false =>
    have hpos := Divider.wait_pos hok henb
    rw [fsm_of_not_tick henb hr hstart]
    refine ⟨?_, ?_⟩
    · have hrises : rises s.fsm s.fsm = false := by simp [rises]
      simpa [taking, hrises] using h
    · rw [henb, if_neg Bool.false_ne_true] at hwait
      rw [hwait, if_neg hticks, if_neg hticks]
      omega

theorem step_reset (s : State) (hr : i.reset = true) :
    AtRest (step s i).fsm ∧ (step s i).divider.Ok := by
  unfold step fsm
  rw [hr]
  exact ⟨⟨rfl, rfl, rfl, rfl⟩, Divider.ok_reset s.divider⟩

theorem step_atRest (hr : i.reset = false) (hstart : i.start = false) (h : AtRest s.fsm) :
    AtRest (step s i).fsm ∧ (∀ bits, taking s.fsm (step s i).fsm i bits = bits) ∧
      (step s i).fsm.dcct1 = s.fsm.dcct1 ∧ (step s i).fsm.dcct2 = s.fsm.dcct2 := by
  obtain ⟨hs, hlat, hrdy, hcnv⟩ := h
  cases henb : s.divider.clkEnb with
  | true =>
    have htick : tick s.fsm i = { s.fsm with
        state := .idle, startLat := false, bitCount := numBits i.resolution - 1, sclk := false,
        dataRdy := false } := by
      simp [tick, hs, hlat, hstart]
    rw [fsm_of_tick henb hr, htick]
    exact ⟨⟨rfl, rfl, rfl, hcnv⟩, fun bits => taking_of_not_rises bits (.inr rfl), rfl, rfl⟩
  | false =>
    rw [fsm_of_not_tick henb hr hstart]
    exact ⟨⟨hs, hlat, hrdy, hcnv⟩, fun bits => by simp [taking, rises], rfl, rfl⟩

theorem atRest_of_clocksLeft_eq_zero (h : InOrder r s.fsm bits)
    (hleft : clocksLeft (numBits r) s = 0) : AtRest s.fsm ∧ Converted r s.fsm bits := by
  have hticks : ticksLeft (numBits r) s.fsm = 0 := by
    by_contra hne
    simp [clocksLeft, hne] at hleft
  cases hs : s.fsm.state with
  | idle =>
    simp only [InOrder, hs] at h
    simp only [ticksLeft, hs] at hticks
    cases hlat : s.fsm.startLat with
    | true => simp [hlat] at hticks
    | false =>
      cases hrdy : s.fsm.dataRdy with
      | true => simp [hlat, hrdy] at hticks
      | false =>
        rw [hlat, if_neg Bool.false_ne_true] at h
        exact ⟨⟨hs, hlat, hrdy, h.1⟩, h.2⟩
  | _ => simp [ticksLeft, hs] at hticks

/-- `data_rdy` is high in the last five clocks, with the results. -/
theorem dataRdy_iff (hwait : s.divider.wait ≤ 4) (h : InOrder r s.fsm bits) :
    s.fsm.dataRdy = true ↔ 0 < clocksLeft (numBits r) s ∧ clocksLeft (numBits r) s ≤ 5 := by
  have hlong : ticksLeft (numBits r) s.fsm = 0 ∨ 2 ≤ ticksLeft (numBits r) s.fsm →
      ¬(0 < clocksLeft (numBits r) s ∧ clocksLeft (numBits r) s ≤ 5) := by
    intro hticks
    unfold clocksLeft
    split_ifs <;> omega
  cases hs : s.fsm.state with
  | idle =>
    simp only [InOrder, hs] at h
    cases hlat : s.fsm.startLat with
    | true =>
      rw [hlat, if_pos rfl] at h
      exact iff_of_false (by simp [h.2.2]) (hlong (.inr (by simp [ticksLeft, hs, hlat]; omega)))
    | false =>
      cases hrdy : s.fsm.dataRdy with
      | true =>
        refine iff_of_true rfl ?_
        simp [clocksLeft, ticksLeft, hs, hlat, hrdy]
        omega
      | false =>
        exact iff_of_false (by simp) (hlong (.inl (by simp [ticksLeft, hs, hlat, hrdy])))
  | setCnv =>
    simp only [InOrder, hs] at h
    exact iff_of_false (by simp [h.2.2.2.1]) (hlong (.inr (by simp [ticksLeft, hs]; omega)))
  | waitForNotBusy =>
    simp only [InOrder, hs] at h
    exact iff_of_false (by simp [h.2.2.2.1]) (hlong (.inr (by simp [ticksLeft, hs]; omega)))
  | sclkHi =>
    simp only [InOrder, hs] at h
    exact iff_of_false (by simp [h.2.2.2.1]) (hlong (.inr (by simp [ticksLeft, hs])))
  | sclkLo =>
    simp only [InOrder, hs] at h
    exact iff_of_false (by simp [h.2.2.2.1]) (hlong (.inr (by simp [ticksLeft, hs])))
  | done =>
    simp only [InOrder, hs] at h
    exact iff_of_false (by simp [h.2.2.1]) (hlong (.inr (by simp [ticksLeft, hs])))

theorem converted_of_dataRdy (hrdy : s.fsm.dataRdy = true) (h : InOrder r s.fsm bits) :
    Converted r s.fsm bits := by
  cases hs : s.fsm.state with
  | idle =>
    simp only [InOrder, hs] at h
    cases hlat : s.fsm.startLat with
    | true => simp [hlat, hrdy] at h
    | false =>
      rw [hlat, if_neg Bool.false_ne_true] at h
      exact h.2
  | _ => simp [InOrder, hs, hrdy] at h

/-- A start at rest. -/
theorem step_start (hr : i.reset = false) (hstart : i.start = true) (hok : s.divider.Ok)
    (h : AtRest s.fsm) :
    InOrder r (step s i).fsm [] ∧ rises s.fsm (step s i).fsm = false ∧
      326 + 10 * numBits r ≤ clocksLeft (numBits r) (step s i) ∧
      clocksLeft (numBits r) (step s i) ≤ 330 + 10 * numBits r := by
  obtain ⟨hs, hlat, hrdy, hcnv⟩ := h
  have hwait : (step s i).divider.wait ≤ 4 := by
    rw [step, hr]
    exact Divider.wait_clkdivide_le hok
  have hfsm : (step s i).fsm.state = .idle ∧ (step s i).fsm.startLat = true ∧
      (step s i).fsm.dataRdy = false ∧ (step s i).fsm.cnvCount = 0 ∧
      rises s.fsm (step s i).fsm = false := by
    cases henb : s.divider.clkEnb <;> simp [step, fsm, tick, rises, henb, hr, hs, hstart, hlat,
      hrdy, hcnv]
  obtain ⟨hs', hlat', hrdy', hcnv', hrises⟩ := hfsm
  have hticks : ticksLeft (numBits r) (step s i).fsm = 66 + 2 * numBits r := by
    simp [ticksLeft, hs', hlat']
  refine ⟨?_, hrises, ?_⟩
  · simp [InOrder, hs', hlat', hrdy', hcnv']
  · rw [clocksLeft, hticks, if_neg (by omega)]
    omega

end Clock

/-! ## Runs -/

/-- The clocks at whose end `sclk` rises. -/
def sclkRises (s : State) (inp : ℕ → Input) (n : ℕ) : Bool :=
  rises (run step s inp n).fsm (run step s inp (n + 1)).fsm

/-- The bits on `sdi` at the rising edges of `sclk` from clock `t` on, before clock `n`. -/
def sampled (s : State) (inp : ℕ → Input) (t n : ℕ) : List Bool :=
  record (sclkRises s inp) (fun k => (inp k).sdi) t n

/-- The clocks of a conversion, from its start to the end of `data_rdy`. -/
def conversionClocks (resolution : Bool) : ℕ := 331 + 10 * numBits resolution

/-- A start in clock `t`, with no other during the conversion. -/
structure Started (resolution : Bool) (inp : ℕ → Input) (t : ℕ) : Prop where
  start : (inp t).start = true
  alone : ∀ n, t < n → n ≤ t + conversionClocks resolution → (inp n).start = false
  low : ∀ n, t ≤ n → n ≤ t + conversionClocks resolution → (inp n).reset = false
  held : ∀ n, t < n → n ≤ t + conversionClocks resolution → (inp n).resolution = resolution

section Run

variable {r : Bool} {s : State} {inp : ℕ → Input} {t : ℕ}

theorem sampled_succ {n : ℕ} (h : t ≤ n) : sampled s inp t (n + 1) =
    taking (run step s inp n).fsm (run step s inp (n + 1)).fsm (inp n) (sampled s inp t n) :=
  record_succ h

/-- The clocks of a conversion, one by one. -/
theorem run_inOrder (h : Started r inp t) (hok : (run step s inp t).divider.Ok)
    (hrest : AtRest (run step s inp t).fsm) :
    ∀ k ≤ clocksLeft (numBits r) (run step s inp (t + 1)), t + 1 + k ≤ t + conversionClocks r →
      InOrder r (run step s inp (t + 1 + k)).fsm (sampled s inp t (t + 1 + k)) ∧
      (run step s inp (t + 1 + k)).divider.Ok ∧ (run step s inp (t + 1 + k)).divider.wait ≤ 4 ∧
      clocksLeft (numBits r) (run step s inp (t + 1 + k)) + k =
        clocksLeft (numBits r) (run step s inp (t + 1)) := by
  intro k
  induction k with
  | zero =>
    intro _ _
    have hr := h.low t le_rfl (by omega)
    obtain ⟨hord, hrises, -, -⟩ := @step_start r _ _ hr h.start hok hrest
    refine ⟨?_, ?_, ?_, rfl⟩
    · rw [Nat.add_zero, sampled_succ le_rfl, run_succ, taking, hrises, sampled, record_self]
      exact hord
    · exact ok_step hr hok
    · rw [Nat.add_zero, run_succ, step, hr]
      exact Divider.wait_clkdivide_le hok
  | succ k ih =>
    intro hk hu
    obtain ⟨hord, hok', -, hleft⟩ := ih (by omega) (by omega)
    have hr := h.low (t + 1 + k) (by omega) (by omega)
    obtain ⟨hord', hleft'⟩ := step_inOrder hr (h.alone (t + 1 + k) (by omega) (by omega))
      (h.held (t + 1 + k) (by omega) (by omega)) hok' (by omega) hord
    rw [← Nat.add_assoc, sampled_succ (by omega), run_succ]
    refine ⟨hord', ok_step hr hok', ?_, by omega⟩
    rw [step, hr]
    exact Divider.wait_clkdivide_le hok'

theorem run_atRest {n : ℕ} (hrest : AtRest (run step s inp n).fsm) {m : ℕ} (hnm : n ≤ m)
    (hquiet : ∀ k, n ≤ k → k < m → (inp k).start = false ∧ (inp k).reset = false) :
    AtRest (run step s inp m).fsm ∧
      (∀ t ≤ n, sampled s inp t m = sampled s inp t n) ∧
      (run step s inp m).fsm.dcct1 = (run step s inp n).fsm.dcct1 ∧
      (run step s inp m).fsm.dcct2 = (run step s inp n).fsm.dcct2 := by
  induction m, hnm using Nat.le_induction with
  | base => exact ⟨hrest, fun _ _ => rfl, rfl, rfl⟩
  | succ m hnm ih =>
    obtain ⟨hrest', hsame, h1, h2⟩ := ih fun k hk hkm => hquiet k hk (by omega)
    obtain ⟨hstart, hr⟩ := hquiet m hnm m.lt_succ_self
    obtain ⟨hrest'', htaking, h1', h2'⟩ := step_atRest hr hstart hrest'
    rw [run_succ]
    refine ⟨hrest'', fun t ht => ?_, h1'.trans h1, h2'.trans h2⟩
    rw [sampled_succ (by omega), run_succ, htaking, hsame t ht]

theorem sampled_mono {n m : ℕ} (htn : t ≤ n) (hnm : n ≤ m) :
    sampled s inp t n <+: sampled s inp t m := by
  induction m, hnm using Nat.le_induction with
  | base => exact List.prefix_rfl
  | succ m hnm ih =>
    refine ih.trans ?_
    rw [sampled_succ (by omega)]
    exact List.prefix_append _ _

theorem Converted.of_level {f : Fsm} {bits : List Bool} {b : Bool} (h : Converted r f bits)
    (hb : bits = List.replicate bits.length b) :
    f.dcct1 = (level (numBits r / 2) b).signExtend 20 ∧
      f.dcct2 = (level (numBits r / 2) b).signExtend 20 := by
  obtain ⟨x, y, rfl, h2, h1⟩ := h
  rw [List.length_append, List.replicate_add] at hb
  obtain ⟨hx, hy⟩ := List.append_inj hb (by simp)
  rw [length_wordBits] at hx hy
  rw [h1, h2, wordBits_eq_replicate_iff.mp hx, wordBits_eq_replicate_iff.mp hy]
  exact ⟨rfl, rfl⟩

theorem Converted.length {f : Fsm} {bits : List Bool} (h : Converted r f bits) :
    bits.length = numBits r := by
  obtain ⟨x, y, rfl, -, -⟩ := h
  rw [List.length_append, length_wordBits, length_wordBits]
  cases r <;> rfl

/-- **A conversion.** A start at rest brings `data_rdy` up once, for five clocks; from then on the
outputs hold the two halves of the bits taken, and the machine comes to rest. -/
theorem conversion (h : Started r inp t) (hok : (run step s inp t).divider.Ok)
    (hrest : AtRest (run step s inp t).fsm) :
    ∃ u, t + 300 < u ∧ u + 5 ≤ t + conversionClocks r ∧
      (∀ n, t < n → n ≤ t + conversionClocks r →
        ((run step s inp n).fsm.dataRdy = true ↔ u ≤ n ∧ n < u + 5)) ∧
      (∀ n, u ≤ n → n ≤ t + conversionClocks r → Converted r (run step s inp n).fsm
        (sampled s inp t (t + conversionClocks r))) ∧
      AtRest (run step s inp (t + conversionClocks r)).fsm := by
  obtain ⟨-, -, hlo, hhi⟩ := @step_start r _ _ (h.low t le_rfl (by omega)) h.start hok hrest
  have hrun := run_inOrder h hok hrest
  have hC : conversionClocks r = 331 + 10 * numBits r := rfl
  rw [← run_succ step s inp] at hlo hhi
  generalize hK : clocksLeft (numBits r) (run step s inp (t + 1)) = K at *
  -- the machine rests from the end of `data_rdy` on
  obtain ⟨hord, hok', -, hleft⟩ := hrun K le_rfl (by omega)
  obtain ⟨hrest', hconv⟩ := atRest_of_clocksLeft_eq_zero hord (by omega)
  have hlater : ∀ n, t + 1 + K ≤ n → n ≤ t + conversionClocks r →
      AtRest (run step s inp n).fsm ∧ Converted r (run step s inp n).fsm (sampled s inp t n) := by
    intro n hn hnC
    obtain ⟨hrest'', hsame, h1, h2⟩ := run_atRest hrest' hn fun k hk hkn =>
      ⟨h.alone k (by omega) (by omega), h.low k (by omega) (by omega)⟩
    refine ⟨hrest'', ?_⟩
    rw [hsame t (by omega)]
    obtain ⟨x, y, hbits, hx, hy⟩ := hconv
    exact ⟨x, y, hbits, h2.trans hx, h1.trans hy⟩
  have hall := (hlater (t + conversionClocks r) (by omega) le_rfl).2.length
  have hsampled : ∀ n, t + 1 ≤ n → n ≤ t + conversionClocks r →
      Converted r (run step s inp n).fsm (sampled s inp t n) →
      Converted r (run step s inp n).fsm (sampled s inp t (t + conversionClocks r)) := by
    intro n hn hnC hn'
    rwa [← (sampled_mono (by omega) hnC).eq_of_length (hn'.length.trans hall.symm)]
  have hrdy : ∀ n, t < n → n ≤ t + conversionClocks r →
      ((run step s inp n).fsm.dataRdy = true ↔ t + K - 4 ≤ n ∧ n < t + K - 4 + 5) := by
    intro n hn hnC
    obtain ⟨k, rfl⟩ := Nat.exists_eq_add_of_lt hn
    rw [show t + k + 1 = t + 1 + k by omega]
    rcases Nat.lt_or_ge K k with hlt | hle
    · have := (hlater (t + 1 + k) (by omega) (by omega)).1.dataRdy
      exact iff_of_false (by simp [this]) (by omega)
    · obtain ⟨hord', -, hwait, hleft'⟩ := hrun k hle (by omega)
      rw [dataRdy_iff hwait hord']
      omega
  refine ⟨t + K - 4, by omega, by omega, hrdy, ?_, (hlater _ (by omega) le_rfl).1⟩
  intro n hn hnC
  refine hsampled n (by omega) hnC ?_
  rcases Nat.lt_or_ge n (t + 1 + K) with hlt | hge
  · obtain ⟨k, rfl⟩ := Nat.exists_eq_add_of_lt (show t < n by omega)
    rw [show t + k + 1 = t + 1 + k by omega] at *
    exact converted_of_dataRdy ((hrdy _ (by omega) hnC).mpr ⟨by omega, by omega⟩)
      (hrun k (by omega) (by omega)).1
  · exact (hlater n hge hnC).2

end Run

end Psc.Ltc2376
