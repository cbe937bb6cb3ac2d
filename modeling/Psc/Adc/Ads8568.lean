import Psc.Lib.Spi

/-!
# The monitor converter interface

`adc_ads8568_intf.vhd`: a start in IDLE gives the conversion pulse, waits for the converter and
shifts in its 128 bits.

One counter, `cnv_count`, times the pulse and both waits. The second wait leaves it at its limit, so
that it is zero at the first start after a reset only. `conversion` gives the outputs of a
conversion by the value at which the counter starts, and `like_first_iff` what follows: every
conversion reads its bits, but only the first has the full pulse.
-/

namespace Psc.Ads8568

open Clocked Spi

/-- The generic `SPI_CLK_DIV`, within the range of `clk_count`. -/
structure Generics where
  spiClkDiv : ℕ
  spiClkDiv_pos : 1 ≤ spiClkDiv
  spiClkDiv_le : spiClkDiv ≤ 501

/-- The input ports. -/
structure Input where
  reset : Bool
  start : Bool
  sdi : Bool

/-- `state`. -/
inductive Phase where
  | idle | setCnv | waitForNotBusy | waitForMsbValid | clockMsb | sclkHi | sclkLo | done
  deriving DecidableEq

/-- The registers. -/
structure State where
  presentState : Phase
  shiftReg : BitVec 128
  cnvCount : ℕ
  clkCount : ℕ
  bitCount : ℕ
  cnv : Bool
  nFs : Bool
  sclk : Bool
  dataOut : BitVec 128
  dataRdy : Bool

/-- `CNV_PULSE`. -/
def cnvPulse : ℕ := 12

/-- `CNV_WIDTH`. -/
def cnvWidth : ℕ := 400

/-- `WAIT_MSB`. -/
def waitMsb : ℕ := 6

/-- `DATA_BITS`. -/
def dataBits : ℕ := 128

/-- One clock. -/
def step (p : Generics) (s : State) (i : Input) : State :=
  if i.reset then
    { s with
      cnvCount := 0
      clkCount := 0
      bitCount := 0
      shiftReg := 0
      dataOut := 0
      dataRdy := false
      cnv := false
      presentState := .idle }
  else
    match s.presentState with
    | .idle =>
      { s with
        presentState := if i.start then .setCnv else .idle
        nFs := true
        sclk := true
        dataRdy := false }
    | .setCnv =>
      if s.cnvCount = cnvPulse then
        { s with cnv := false, cnvCount := 0, presentState := .waitForNotBusy }
      else { s with cnv := true, cnvCount := s.cnvCount + 1 }
    | .waitForNotBusy =>
      if s.cnvCount = cnvWidth then
        { s with cnvCount := 0, nFs := false, presentState := .waitForMsbValid }
      else { s with cnvCount := s.cnvCount + 1 }
    | .waitForMsbValid =>
      if s.cnvCount = waitMsb then
        { s with
          sclk := false, shiftReg := s.shiftReg.shiftConcat i.sdi, presentState := .clockMsb }
      else { s with cnvCount := s.cnvCount + 1 }
    | .clockMsb =>
      if s.clkCount = p.spiClkDiv - 1 then
        { s with clkCount := 0, sclk := true, presentState := .sclkHi }
      else { s with clkCount := s.clkCount + 1, sclk := false }
    | .sclkHi =>
      if s.clkCount = p.spiClkDiv - 1 then
        { s with
          sclk := false
          clkCount := 0
          bitCount := s.bitCount + 1
          shiftReg := s.shiftReg.shiftConcat i.sdi
          presentState := .sclkLo }
      else { s with clkCount := s.clkCount + 1, sclk := true }
    | .sclkLo =>
      if s.bitCount = dataBits - 1 then { s with bitCount := 0, presentState := .done }
      else if s.clkCount = p.spiClkDiv - 1 then
        { s with clkCount := 0, sclk := true, presentState := .sclkHi }
      else { s with clkCount := s.clkCount + 1, sclk := false }
    | .done => { s with dataOut := s.shiftReg, dataRdy := true, presentState := .idle }

/-- `sclk` falls at the end of the clock. -/
def falls (s s' : State) : Bool := s.sclk && !s'.sclk

/-- The bits taken with the clock. -/
def taking (s s' : State) (i : Input) (bits : List Bool) : List Bool :=
  bits ++ if falls s s' then [i.sdi] else []

/-! ## A conversion -/

/-- The clocks of a conversion from CLOCK_MSB on. -/
def bitClocks (p : Generics) : ℕ := 254 * p.spiClkDiv + 2

/-- The clocks of a conversion from WAIT_FOR_NOT_BUSY on. -/
def afterPulse (p : Generics) : ℕ := cnvWidth + 1 + (waitMsb + 1) + bitClocks p

/-- The clocks until `data_rdy`. -/
def clocksLeft (p : Generics) (s : State) : ℕ :=
  match s.presentState with
  | .idle => 0
  | .setCnv => cnvPulse + 1 - s.cnvCount + afterPulse p
  | .waitForNotBusy => cnvWidth + 1 - s.cnvCount + (waitMsb + 1) + bitClocks p
  | .waitForMsbValid => waitMsb + 1 - s.cnvCount + bitClocks p
  | .clockMsb => p.spiClkDiv - s.clkCount + 253 * p.spiClkDiv + 2
  | .sclkHi => p.spiClkDiv - s.clkCount + 2 * (126 - s.bitCount) * p.spiClkDiv + 2
  | .sclkLo =>
    if s.bitCount = 127 then 2
    else p.spiClkDiv - s.clkCount + (2 * (126 - s.bitCount) + 1) * p.spiClkDiv + 2
  | .done => 1

/-- Where the counters and outputs stand in each state of a conversion whose pulse is timed from
`c`, with the bits taken so far in the shift register. -/
def InOrder (p : Generics) (c : ℕ) (s : State) (bits : List Bool) : Prop :=
  match s.presentState with
  | .idle =>
    s.cnvCount = waitMsb ∧ s.clkCount = 0 ∧ s.bitCount = 0 ∧ s.cnv = false ∧ s.nFs = false ∧
      s.dataRdy = true ∧ bits = wordBits s.dataOut
  | .setCnv =>
    c ≤ s.cnvCount ∧ s.cnvCount ≤ cnvPulse ∧ s.clkCount = 0 ∧ s.bitCount = 0 ∧
      s.cnv = decide (c < s.cnvCount) ∧ s.nFs = true ∧ s.dataRdy = false ∧ s.sclk = true ∧ bits = []
  | .waitForNotBusy =>
    s.cnvCount ≤ cnvWidth ∧ s.clkCount = 0 ∧ s.bitCount = 0 ∧ s.cnv = false ∧ s.nFs = true ∧
      s.dataRdy = false ∧ s.sclk = true ∧ bits = []
  | .waitForMsbValid =>
    s.cnvCount ≤ waitMsb ∧ s.clkCount = 0 ∧ s.bitCount = 0 ∧ s.cnv = false ∧ s.nFs = false ∧
      s.dataRdy = false ∧ s.sclk = true ∧ bits = []
  | .clockMsb =>
    s.cnvCount = waitMsb ∧ s.clkCount < p.spiClkDiv ∧ s.bitCount = 0 ∧ s.cnv = false ∧
      s.nFs = false ∧ s.dataRdy = false ∧ s.sclk = false ∧ bits = lowBits s.shiftReg 1
  | .sclkHi =>
    s.cnvCount = waitMsb ∧ s.clkCount < p.spiClkDiv ∧ s.bitCount ≤ 126 ∧ s.cnv = false ∧
      s.nFs = false ∧ s.dataRdy = false ∧ s.sclk = true ∧ bits = lowBits s.shiftReg (s.bitCount + 1)
  | .sclkLo =>
    s.cnvCount = waitMsb ∧ s.clkCount < p.spiClkDiv ∧ 1 ≤ s.bitCount ∧ s.bitCount ≤ 127 ∧
      (s.bitCount = 127 → s.clkCount = 0) ∧ s.cnv = false ∧ s.nFs = false ∧ s.dataRdy = false ∧
      s.sclk = false ∧ bits = lowBits s.shiftReg (s.bitCount + 1)
  | .done =>
    s.cnvCount = waitMsb ∧ s.clkCount = 0 ∧ s.bitCount = 0 ∧ s.cnv = false ∧ s.nFs = false ∧
      s.dataRdy = false ∧ s.sclk = false ∧ bits = lowBits s.shiftReg 128

/-- A clock of a conversion: one less to go, with the bits in order. -/
structure Advances (p : Generics) (c : ℕ) (s s' : State) (i : Input) (bits : List Bool) :
    Prop where
  inOrder : InOrder p c s' (taking s s' i bits)
  clocksLeft : clocksLeft p s' + 1 = clocksLeft p s

section Step

variable {p : Generics} {c : ℕ} {s : State} {i : Input} {bits : List Bool}

theorem taking_of_not_falls {s' : State} (h : s.sclk = false ∨ s'.sclk = true) :
    taking s s' i bits = bits := by
  unfold taking falls
  rcases h with h | h <;> simp [h]

theorem taking_of_falls {s' : State} (h : s.sclk = true) (h' : s'.sclk = false) :
    taking s s' i bits = bits ++ [i.sdi] := by
  simp [taking, falls, h, h']

theorem advances_of_keep {s' : State} (hkeep : s.sclk = false ∨ s'.sclk = true)
    (hin : InOrder p c s' bits) (hleft : clocksLeft p s' + 1 = clocksLeft p s) :
    Advances p c s s' i bits where
  inOrder := by rwa [taking_of_not_falls hkeep]
  clocksLeft := hleft

theorem advances_setCnv (hs : s.presentState = .setCnv) (hr : i.reset = false)
    (h : InOrder p c s bits) : Advances p c s (step p s i) i bits := by
  simp only [InOrder, hs] at h
  obtain ⟨hlo, hhi, hclk, hbit, hcnv, hfs, hrdy, hsclk, hbits⟩ := h
  by_cases hend : s.cnvCount = cnvPulse
  · have hstep : step p s i =
        { s with cnv := false, cnvCount := 0, presentState := .waitForNotBusy } := by
      simp [step, hr, hs, hend]
    rw [hstep]
    refine advances_of_keep (.inr hsclk) ?_ ?_
    · exact ⟨Nat.zero_le _, hclk, hbit, rfl, hfs, hrdy, hsclk, hbits⟩
    · simp only [clocksLeft, hs, hend, afterPulse]
      omega
  · have hstep : step p s i = { s with cnv := true, cnvCount := s.cnvCount + 1 } := by
      simp [step, hr, hs, hend]
    rw [hstep]
    refine advances_of_keep (.inr hsclk) ?_ ?_
    · simp only [InOrder, hs]
      exact ⟨by omega, by omega, hclk, hbit, by simp; omega, hfs, hrdy, hsclk, hbits⟩
    · simp only [clocksLeft, hs]
      omega

theorem advances_waitForNotBusy (hs : s.presentState = .waitForNotBusy) (hr : i.reset = false)
    (h : InOrder p c s bits) : Advances p c s (step p s i) i bits := by
  simp only [InOrder, hs] at h
  obtain ⟨hhi, hclk, hbit, hcnv, hfs, hrdy, hsclk, hbits⟩ := h
  by_cases hend : s.cnvCount = cnvWidth
  · have hstep : step p s i =
        { s with cnvCount := 0, nFs := false, presentState := .waitForMsbValid } := by
      simp [step, hr, hs, hend]
    rw [hstep]
    refine advances_of_keep (.inr hsclk) ?_ ?_
    · exact ⟨Nat.zero_le _, hclk, hbit, hcnv, rfl, hrdy, hsclk, hbits⟩
    · simp only [clocksLeft, hs, hend]
      omega
  · have hstep : step p s i = { s with cnvCount := s.cnvCount + 1 } := by
      simp [step, hr, hs, hend]
    rw [hstep]
    refine advances_of_keep (.inr hsclk) ?_ ?_
    · simp only [InOrder, hs]
      exact ⟨by omega, hclk, hbit, hcnv, hfs, hrdy, hsclk, hbits⟩
    · simp only [clocksLeft, hs]
      omega

theorem advances_waitForMsbValid (hs : s.presentState = .waitForMsbValid) (hr : i.reset = false)
    (h : InOrder p c s bits) : Advances p c s (step p s i) i bits := by
  simp only [InOrder, hs] at h
  obtain ⟨hhi, hclk, hbit, hcnv, hfs, hrdy, hsclk, hbits⟩ := h
  have hdiv := p.spiClkDiv_pos
  by_cases hend : s.cnvCount = waitMsb
  · have hstep : step p s i = { s with
        sclk := false, shiftReg := s.shiftReg.shiftConcat i.sdi, presentState := .clockMsb } := by
      simp [step, hr, hs, hend]
    have htake : taking s (step p s i) i bits = bits ++ [i.sdi] :=
      taking_of_falls hsclk (by rw [hstep])
    refine ⟨?_, ?_⟩
    · rw [htake, hstep, hbits]
      refine ⟨hend, by rw [hclk]; exact hdiv, hbit, hcnv, hfs, hrdy, rfl, ?_⟩
      exact (lowBits_shiftConcat s.shiftReg i.sdi (k := 0) (by omega)).symm
    · rw [hstep]
      simp only [clocksLeft, hs, hend, hclk, bitClocks]
      omega
  · have hstep : step p s i = { s with cnvCount := s.cnvCount + 1 } := by
      simp [step, hr, hs, hend]
    rw [hstep]
    refine advances_of_keep (.inr hsclk) ?_ ?_
    · simp only [InOrder, hs]
      exact ⟨by omega, hclk, hbit, hcnv, hfs, hrdy, hsclk, hbits⟩
    · simp only [clocksLeft, hs]
      omega

theorem advances_clockMsb (hs : s.presentState = .clockMsb) (hr : i.reset = false)
    (h : InOrder p c s bits) : Advances p c s (step p s i) i bits := by
  simp only [InOrder, hs] at h
  obtain ⟨hcount, hclk, hbit, hcnv, hfs, hrdy, hsclk, hbits⟩ := h
  by_cases hend : s.clkCount = p.spiClkDiv - 1
  · have hstep : step p s i =
        { s with clkCount := 0, sclk := true, presentState := .sclkHi } := by
      simp [step, hr, hs, hend]
    rw [hstep]
    refine advances_of_keep (.inl hsclk) ?_ ?_
    · refine ⟨hcount, p.spiClkDiv_pos, by simp [hbit], hcnv, hfs, hrdy, rfl, ?_⟩
      rw [hbits, hbit]
    · simp only [clocksLeft, hs, hend, hbit]
      omega
  · have hstep : step p s i = { s with clkCount := s.clkCount + 1, sclk := false } := by
      simp [step, hr, hs, hend]
    rw [hstep]
    refine advances_of_keep (.inl hsclk) ?_ ?_
    · simp only [InOrder, hs]
      exact ⟨hcount, by omega, hbit, hcnv, hfs, hrdy, trivial, hbits⟩
    · simp only [clocksLeft, hs]
      omega

theorem advances_sclkHi (hs : s.presentState = .sclkHi) (hr : i.reset = false)
    (h : InOrder p c s bits) : Advances p c s (step p s i) i bits := by
  simp only [InOrder, hs] at h
  obtain ⟨hcount, hclk, hbit, hcnv, hfs, hrdy, hsclk, hbits⟩ := h
  have hdiv := p.spiClkDiv_pos
  by_cases hend : s.clkCount = p.spiClkDiv - 1
  · have hstep : step p s i = { s with
        sclk := false, clkCount := 0, bitCount := s.bitCount + 1,
        shiftReg := s.shiftReg.shiftConcat i.sdi, presentState := .sclkLo } := by
      simp [step, hr, hs, hend]
    have htake : taking s (step p s i) i bits = bits ++ [i.sdi] :=
      taking_of_falls hsclk (by rw [hstep])
    refine ⟨?_, ?_⟩
    · rw [htake, hstep, hbits]
      refine ⟨hcount, hdiv, by simp, by dsimp only; omega, fun _ => rfl, hcnv, hfs, hrdy, rfl, ?_⟩
      exact (lowBits_shiftConcat s.shiftReg i.sdi (by omega)).symm
    · rw [hstep]
      simp only [clocksLeft, hs, hend]
      split_ifs with hlast
      · rw [show 126 - s.bitCount = 0 by omega]
        omega
      · obtain ⟨k, hk⟩ : ∃ k, 126 - s.bitCount = k + 1 := ⟨125 - s.bitCount, by omega⟩
        rw [hk, show 126 - (s.bitCount + 1) = k by omega, mul_add, add_mul, add_mul]
        omega
  · have hstep : step p s i = { s with clkCount := s.clkCount + 1, sclk := true } := by
      simp [step, hr, hs, hend]
    rw [hstep]
    refine advances_of_keep (.inr rfl) ?_ ?_
    · simp only [InOrder, hs]
      exact ⟨hcount, by omega, hbit, hcnv, hfs, hrdy, trivial, hbits⟩
    · simp only [clocksLeft, hs]
      omega

theorem advances_sclkLo (hs : s.presentState = .sclkLo) (hr : i.reset = false)
    (h : InOrder p c s bits) : Advances p c s (step p s i) i bits := by
  simp only [InOrder, hs] at h
  obtain ⟨hcount, hclk, hlo, hhi, hlast, hcnv, hfs, hrdy, hsclk, hbits⟩ := h
  by_cases hdone : s.bitCount = 127
  · have hstep : step p s i = { s with bitCount := 0, presentState := .done } := by
      simp [step, hr, hs, hdone, dataBits]
    rw [hstep]
    refine advances_of_keep (.inl hsclk) ?_ ?_
    · refine ⟨hcount, hlast hdone, rfl, hcnv, hfs, hrdy, hsclk, ?_⟩
      rw [hbits, hdone]
    · simp only [clocksLeft, hs, hdone, if_true]
  · by_cases hend : s.clkCount = p.spiClkDiv - 1
    · have hstep : step p s i =
          { s with clkCount := 0, sclk := true, presentState := .sclkHi } := by
        simp [step, hr, hs, hend, hdone, dataBits]
      rw [hstep]
      refine advances_of_keep (.inl hsclk) ?_ ?_
      · exact ⟨hcount, p.spiClkDiv_pos, by dsimp only; omega, hcnv, hfs, hrdy, rfl, hbits⟩
      · simp only [clocksLeft, hs, hend, if_neg hdone, add_mul]
        omega
    · have hstep : step p s i = { s with clkCount := s.clkCount + 1, sclk := false } := by
        simp [step, hr, hs, hend, hdone, dataBits]
      rw [hstep]
      refine advances_of_keep (.inl hsclk) ?_ ?_
      · simp only [InOrder, hs]
        exact ⟨hcount, by omega, hlo, hhi, fun h => absurd h hdone, hcnv, hfs, hrdy, trivial, hbits⟩
      · simp only [clocksLeft, hs, if_neg hdone]
        omega

theorem advances_done (hs : s.presentState = .done) (hr : i.reset = false)
    (h : InOrder p c s bits) : Advances p c s (step p s i) i bits := by
  simp only [InOrder, hs] at h
  obtain ⟨hcount, hclk, hbit, hcnv, hfs, hrdy, hsclk, hbits⟩ := h
  have hstep : step p s i =
      { s with dataOut := s.shiftReg, dataRdy := true, presentState := .idle } := by
    simp [step, hr, hs]
  rw [hstep]
  refine advances_of_keep (.inl hsclk) ?_ ?_
  · exact ⟨hcount, hclk, hbit, hcnv, hfs, rfl, hbits.trans (lowBits_eq_wordBits s.shiftReg)⟩
  · simp only [clocksLeft, hs]

/-- **A clock of a conversion.** -/
theorem step_inOrder (hidle : s.presentState ≠ .idle) (hr : i.reset = false)
    (h : InOrder p c s bits) : Advances p c s (step p s i) i bits := by
  cases hs : s.presentState with
  | idle => exact absurd hs hidle
  | setCnv => exact advances_setCnv hs hr h
  | waitForNotBusy => exact advances_waitForNotBusy hs hr h
  | waitForMsbValid => exact advances_waitForMsbValid hs hr h
  | clockMsb => exact advances_clockMsb hs hr h
  | sclkHi => exact advances_sclkHi hs hr h
  | sclkLo => exact advances_sclkLo hs hr h
  | done => exact advances_done hs hr h

/-- What the clocks left say of the outputs. -/
structure Outputs (p : Generics) (c : ℕ) (s : State) : Prop where
  cnv : s.cnv = true ↔
    afterPulse p < clocksLeft p s ∧ clocksLeft p s < afterPulse p + (cnvPulse + 1 - c)
  waiting : s.presentState = .waitForNotBusy ↔
    waitMsb + 1 + bitClocks p < clocksLeft p s ∧ clocksLeft p s ≤ afterPulse p
  nFs : s.nFs = false ↔ clocksLeft p s ≤ waitMsb + 1 + bitClocks p
  dataRdy : s.dataRdy = true ↔ clocksLeft p s = 0

theorem outputs_of_shifting (hcnv : s.cnv = false) (hfs : s.nFs = false) (hrdy : s.dataRdy = false)
    (hs : s.presentState ≠ .waitForNotBusy) (hpos : 0 < clocksLeft p s)
    (hle : clocksLeft p s ≤ waitMsb + 1 + bitClocks p) : Outputs p c s where
  cnv := iff_of_false (by simp [hcnv]) (by unfold afterPulse; omega)
  waiting := iff_of_false hs (by omega)
  nFs := iff_of_true hfs hle
  dataRdy := iff_of_false (by simp [hrdy]) hpos.ne'

theorem outputs_of_inOrder (h : InOrder p c s bits) : Outputs p c s := by
  have hmul : ∀ k ≤ 252, k * p.spiClkDiv ≤ 252 * p.spiClkDiv :=
    fun k hk => Nat.mul_le_mul_right _ hk
  cases hs : s.presentState with
  | idle =>
    simp only [InOrder, hs] at h
    obtain ⟨-, -, -, hcnv, hfs, hrdy, -⟩ := h
    have hleft : clocksLeft p s = 0 := by simp only [clocksLeft, hs]
    constructor
    · exact iff_of_false (by simp [hcnv]) (by omega)
    · exact iff_of_false (by simp [hs]) (by omega)
    · exact iff_of_true hfs (by omega)
    · exact iff_of_true hrdy hleft
  | setCnv =>
    simp only [InOrder, hs] at h
    obtain ⟨hlo, hhi, -, -, hcnv, hfs, hrdy, -, -⟩ := h
    have hleft : clocksLeft p s = cnvPulse + 1 - s.cnvCount + afterPulse p := by
      simp only [clocksLeft, hs]
    constructor
    · rw [hcnv, decide_eq_true_eq]
      omega
    · exact iff_of_false (by simp [hs]) (by omega)
    · exact iff_of_false (by simp [hfs]) (by unfold afterPulse at hleft; omega)
    · exact iff_of_false (by simp [hrdy]) (by omega)
  | waitForNotBusy =>
    simp only [InOrder, hs] at h
    obtain ⟨hhi, -, -, hcnv, hfs, hrdy, -, -⟩ := h
    have hleft : clocksLeft p s = cnvWidth + 1 - s.cnvCount + (waitMsb + 1) + bitClocks p := by
      simp only [clocksLeft, hs]
    have hall : afterPulse p = cnvWidth + 1 + (waitMsb + 1) + bitClocks p := rfl
    constructor
    · exact iff_of_false (by simp [hcnv]) (by omega)
    · exact iff_of_true hs (by omega)
    · exact iff_of_false (by simp [hfs]) (by omega)
    · exact iff_of_false (by simp [hrdy]) (by omega)
  | waitForMsbValid =>
    simp only [InOrder, hs] at h
    obtain ⟨hhi, -, -, hcnv, hfs, hrdy, -, -⟩ := h
    refine outputs_of_shifting hcnv hfs hrdy (by simp [hs]) ?_ ?_ <;>
      simp only [clocksLeft, hs] <;> omega
  | clockMsb =>
    simp only [InOrder, hs] at h
    obtain ⟨-, hclk, -, hcnv, hfs, hrdy, -, -⟩ := h
    refine outputs_of_shifting hcnv hfs hrdy (by simp [hs]) ?_ ?_ <;>
      simp only [clocksLeft, bitClocks, hs] <;> omega
  | sclkHi =>
    simp only [InOrder, hs] at h
    obtain ⟨-, hclk, hbit, hcnv, hfs, hrdy, -, -⟩ := h
    have := hmul (2 * (126 - s.bitCount)) (by omega)
    refine outputs_of_shifting hcnv hfs hrdy (by simp [hs]) ?_ ?_ <;>
      simp only [clocksLeft, bitClocks, hs] <;> omega
  | sclkLo =>
    simp only [InOrder, hs] at h
    obtain ⟨-, hclk, hlo, hhi, -, hcnv, hfs, hrdy, -, -⟩ := h
    have := hmul (2 * (126 - s.bitCount) + 1) (by omega)
    refine outputs_of_shifting hcnv hfs hrdy (by simp [hs]) ?_ ?_ <;>
      simp only [clocksLeft, bitClocks, hs] <;> split_ifs <;> omega
  | done =>
    simp only [InOrder, hs] at h
    obtain ⟨-, -, -, hcnv, hfs, hrdy, -, -⟩ := h
    refine outputs_of_shifting hcnv hfs hrdy (by simp [hs]) ?_ ?_ <;>
      simp only [clocksLeft, bitClocks, hs] <;> omega

theorem clocksLeft_eq_zero_iff (h : InOrder p c s bits) :
    clocksLeft p s = 0 ↔ s.presentState = .idle := by
  cases hs : s.presentState with
  | idle => simp only [clocksLeft, hs]
  | waitForNotBusy | waitForMsbValid | setCnv | clockMsb | sclkHi | done =>
    simp only [InOrder, hs] at h
    simp only [clocksLeft, hs]
    exact iff_of_false (by omega) (by simp)
  | sclkLo =>
    simp only [InOrder, hs] at h
    simp only [clocksLeft, hs]
    exact iff_of_false (by split_ifs <;> simp) (by simp)

/-- What holds in IDLE when the pulse of the next conversion is timed from `c`. -/
structure AtRest (c : ℕ) (s : State) : Prop where
  idle : s.presentState = .idle
  cnvCount : s.cnvCount = c
  clkCount : s.clkCount = 0
  bitCount : s.bitCount = 0
  cnv : s.cnv = false

theorem atRest_of_inOrder (h : InOrder p c s bits) (hs : s.presentState = .idle) :
    AtRest waitMsb s := by
  simp only [InOrder, hs] at h
  exact ⟨hs, h.1, h.2.1, h.2.2.1, h.2.2.2.1⟩

theorem step_reset (s : State) (hr : i.reset = true) : AtRest 0 (step p s i) := by
  rw [step, if_pos hr]
  exact ⟨rfl, rfl, rfl, rfl, rfl⟩

theorem step_atRest (hr : i.reset = false) (hstart : i.start = false) (h : AtRest c s) :
    AtRest c (step p s i) := by
  obtain ⟨hs, hcnt, hclk, hbit, hcnv⟩ := h
  have hstep : step p s i = { s with
      presentState := .idle, nFs := true, sclk := true, dataRdy := false } := by
    simp [step, hr, hs, hstart]
  rw [hstep]
  exact ⟨rfl, hcnt, hclk, hbit, hcnv⟩

theorem step_start (hr : i.reset = false) (hstart : i.start = true) (hc : c ≤ cnvPulse)
    (h : AtRest c s) : InOrder p c (step p s i) [] ∧ falls s (step p s i) = false ∧
      clocksLeft p (step p s i) = cnvPulse + 1 - c + afterPulse p := by
  obtain ⟨hs, hcnt, hclk, hbit, hcnv⟩ := h
  have hstep : step p s i = { s with
      presentState := .setCnv, nFs := true, sclk := true, dataRdy := false } := by
    simp [step, hr, hs, hstart]
  rw [hstep]
  refine ⟨?_, by simp [falls], by simp only [clocksLeft, hcnt]⟩
  simp [InOrder, hcnt, hclk, hbit, hcnv, hc]

end Step

/-! ## Runs -/

/-- The clocks at whose end `sclk` falls. -/
def sclkFalls (p : Generics) (s : State) (inp : ℕ → Input) (n : ℕ) : Bool :=
  falls (run (step p) s inp n) (run (step p) s inp (n + 1))

/-- The bits on `sdi` at the falling edges of `sclk` from clock `t` on, before clock `n`. -/
def sampled (p : Generics) (s : State) (inp : ℕ → Input) (t n : ℕ) : List Bool :=
  record (sclkFalls p s inp) (fun k => (inp k).sdi) t n

/-- A start in IDLE. -/
def accepts (p : Generics) (s : State) (inp : ℕ → Input) (n : ℕ) : Bool :=
  decide ((run (step p) s inp n).presentState = .idle) && (inp n).start && !(inp n).reset

/-- The clocks from a start to `data_rdy`, for a pulse of `w` clocks. -/
def conversionClocks (p : Generics) (w : ℕ) : ℕ := w + 2 + afterPulse p

/-- The waveform of a conversion from a start in clock `t` to `data_rdy` in clock `v`, with a pulse
of `w` clocks. -/
structure Converts (p : Generics) (s : State) (inp : ℕ → Input) (t w v : ℕ) : Prop where
  cnv : ∀ m, t < m → m ≤ v → ((run (step p) s inp m).cnv = true ↔ t + 2 ≤ m ∧ m < t + 2 + w)
  waiting : ∀ m, t < m → m ≤ v → ((run (step p) s inp m).presentState = .waitForNotBusy ↔
    t + 2 + w ≤ m ∧ m < t + 2 + w + (cnvWidth + 1))
  nFs : ∀ m, t < m → m ≤ v →
    ((run (step p) s inp m).nFs = false ↔ t + 2 + w + (cnvWidth + 1) ≤ m)
  dataRdy : ∀ m, t < m → m ≤ v → ((run (step p) s inp m).dataRdy = true ↔ m = v)
  length : (sampled p s inp t v).length = dataBits
  dataOut : wordBits (run (step p) s inp v).dataOut = sampled p s inp t v

/-- A conversion with the full pulse. -/
def LikeFirst (p : Generics) (s : State) (inp : ℕ → Input) (t : ℕ) : Prop :=
  ∃ v, t < v ∧ Converts p s inp t cnvPulse v

section Run

variable {p : Generics} {c : ℕ} {s : State} {inp : ℕ → Input} {t u : ℕ}

theorem sampled_succ {n : ℕ} (h : t ≤ n) : sampled p s inp t (n + 1) =
    taking (run (step p) s inp n) (run (step p) s inp (n + 1)) (inp n) (sampled p s inp t n) :=
  record_succ h

/-- The clocks of a conversion, one by one. -/
theorem run_inOrder (hc : c ≤ cnvPulse) (hrest : AtRest c (run (step p) s inp t))
    (hstart : (inp t).start = true) (hr : ∀ n, t ≤ n → n < u → (inp n).reset = false) :
    ∀ k < conversionClocks p (cnvPulse - c), t + 1 + k ≤ u →
      InOrder p c (run (step p) s inp (t + 1 + k)) (sampled p s inp t (t + 1 + k)) ∧
      clocksLeft p (run (step p) s inp (t + 1 + k)) + k + 1 =
        conversionClocks p (cnvPulse - c) := by
  intro k
  induction k with
  | zero =>
    intro _ hu
    obtain ⟨hord, hfalls, hleft⟩ := @step_start p c _ _ (hr t le_rfl (by omega)) hstart hc hrest
    refine ⟨?_, ?_⟩
    · rw [Nat.add_zero, sampled_succ le_rfl, run_succ, taking, hfalls, sampled, record_self]
      exact hord
    · rw [Nat.add_zero, run_succ, hleft]
      unfold conversionClocks
      omega
  | succ k ih =>
    intro hk hu
    obtain ⟨hord, hleft⟩ := ih (by omega) (by omega)
    have hidle : (run (step p) s inp (t + 1 + k)).presentState ≠ .idle := by
      rw [Ne, ← clocksLeft_eq_zero_iff hord]
      omega
    have hadv := step_inOrder hidle (hr (t + 1 + k) (by omega) (by omega)) hord
    rw [← Nat.add_assoc, sampled_succ (by omega), run_succ]
    exact ⟨hadv.inOrder, by have := hadv.clocksLeft; omega⟩

/-- **A conversion.** The counter shortens the pulse by where it starts; the rest is the same, and
the bits are read. -/
theorem conversion (hc : c ≤ cnvPulse) (hrest : AtRest c (run (step p) s inp t))
    (hstart : (inp t).start = true)
    (hr : ∀ n, t ≤ n → n < t + conversionClocks p (cnvPulse - c) → (inp n).reset = false) :
    Converts p s inp t (cnvPulse - c) (t + conversionClocks p (cnvPulse - c)) ∧
      AtRest waitMsb (run (step p) s inp (t + conversionClocks p (cnvPulse - c))) := by
  have hrun := run_inOrder hc hrest hstart hr
  have hclocks : conversionClocks p (cnvPulse - c) = cnvPulse - c + 2 + afterPulse p := rfl
  have hafter : afterPulse p = cnvWidth + 1 + (waitMsb + 1) + bitClocks p := rfl
  generalize conversionClocks p (cnvPulse - c) = L at *
  have hat : ∀ m, t < m → m ≤ t + L →
      InOrder p c (run (step p) s inp m) (sampled p s inp t m) ∧
        clocksLeft p (run (step p) s inp m) + m = t + L := by
    intro m htm hm
    obtain ⟨k, rfl⟩ := Nat.exists_eq_add_of_lt htm
    rw [show t + k + 1 = t + 1 + k by omega]
    obtain ⟨hord, hleft⟩ := hrun k (by omega) (by omega)
    exact ⟨hord, by omega⟩
  obtain ⟨hord, hleft⟩ := hat (t + L) (by omega) le_rfl
  have hidle := (clocksLeft_eq_zero_iff hord).mp (by omega)
  refine ⟨?_, atRest_of_inOrder hord hidle⟩
  have hbits : sampled p s inp t (t + L) = wordBits (run (step p) s inp (t + L)).dataOut := by
    rw [InOrder, hidle] at hord
    exact hord.2.2.2.2.2.2
  constructor
  · intro m htm hm
    obtain ⟨hord', hleft'⟩ := hat m htm hm
    rw [(outputs_of_inOrder hord').cnv]
    omega
  · intro m htm hm
    obtain ⟨hord', hleft'⟩ := hat m htm hm
    rw [(outputs_of_inOrder hord').waiting]
    omega
  · intro m htm hm
    obtain ⟨hord', hleft'⟩ := hat m htm hm
    rw [(outputs_of_inOrder hord').nFs]
    omega
  · intro m htm hm
    obtain ⟨hord', hleft'⟩ := hat m htm hm
    rw [(outputs_of_inOrder hord').dataRdy]
    omega
  · rw [hbits, length_wordBits]
    rfl
  · exact hbits.symm

theorem not_idle_of_converting (hc : c ≤ cnvPulse) (hrest : AtRest c (run (step p) s inp t))
    (hstart : (inp t).start = true) (hr : ∀ n, t ≤ n → n < u → (inp n).reset = false) {n : ℕ}
    (htn : t < n) (hn : n < t + conversionClocks p (cnvPulse - c)) (hu : n ≤ u) :
    (run (step p) s inp n).presentState ≠ .idle := by
  obtain ⟨k, rfl⟩ := Nat.exists_eq_add_of_lt htn
  obtain ⟨hord, hleft⟩ := run_inOrder hc hrest hstart hr k (by omega) (by omega)
  rw [show t + 1 + k = t + k + 1 by omega] at hord hleft
  rw [Ne, ← clocksLeft_eq_zero_iff hord]
  omega

/-- A run from a reset in clock 0, with `reset` low before clock `u`. -/
structure FromReset (inp : ℕ → Input) (u : ℕ) : Prop where
  reset : (inp 0).reset = true
  low : ∀ n, 0 < n → n < u → (inp n).reset = false

/-- Where the counter stands in IDLE, after so many conversions. -/
def leftOver (k : ℕ) : ℕ := if k = 0 then 0 else waitMsb

theorem leftOver_le (k : ℕ) : leftOver k ≤ cnvPulse := by
  unfold leftOver
  split_ifs <;> decide

theorem accepts_iff {n : ℕ} (hr : (inp n).reset = false) : accepts p s inp n = true ↔
    (run (step p) s inp n).presentState = .idle ∧ (inp n).start = true := by
  simp [accepts, hr]

/-- At every clock the machine is at rest, or in the conversion of a start. -/
theorem atRest_or_converting (h : FromReset inp u) {n : ℕ} (hn : 0 < n) (hu : n ≤ u) :
    AtRest (leftOver (tickCount (accepts p s inp) n)) (run (step p) s inp n) ∨
      ∃ t, 0 < t ∧ t < n ∧ accepts p s inp t = true ∧
        n < t + conversionClocks p (cnvPulse - leftOver (tickCount (accepts p s inp) t)) ∧
        AtRest (leftOver (tickCount (accepts p s inp) t)) (run (step p) s inp t) := by
  induction n, hn using Nat.le_induction with
  | base =>
    left
    rw [tickCount_succ_of_not_tick (by simp [accepts, h.reset]), tickCount_zero]
    exact step_reset s h.reset
  | succ n hn ih =>
    have hr := h.low n hn (by omega)
    rcases ih (by omega) with hrest | ⟨t, hpos, htn, hacc, hlt, hrest⟩
    · cases hs : (inp n).start with
      | true =>
        refine .inr ⟨n, hn, n.lt_succ_self, (accepts_iff hr).mpr ⟨hrest.idle, hs⟩, ?_, hrest⟩
        unfold conversionClocks
        omega
      | false =>
        left
        rw [tickCount_succ_of_not_tick (by simp [accepts, hs])]
        exact step_atRest hr hs hrest
    · rcases Nat.lt_or_ge (n + 1)
        (t + conversionClocks p (cnvPulse - leftOver (tickCount (accepts p s inp) t))) with
        hlt' | hge
      · exact .inr ⟨t, hpos, by omega, hacc, hlt', hrest⟩
      · have hend : n + 1 =
            t + conversionClocks p (cnvPulse - leftOver (tickCount (accepts p s inp) t)) := by
          omega
        have hstart := ((accepts_iff (h.low t hpos (by omega))).mp hacc).2
        obtain ⟨-, hrest'⟩ := conversion (leftOver_le _) hrest hstart
          fun m hm hmu => h.low m (by omega) (by omega)
        left
        rw [← hend] at hrest'
        have hcount : tickCount (accepts p s inp) (n + 1) ≠ 0 := by
          have hmono := @tickCount_mono (accepts p s inp) (t + 1) (n + 1) (by omega)
          rw [tickCount_succ_of_tick hacc] at hmono
          omega
        rw [leftOver, if_neg hcount]
        exact hrest'

theorem atRest_of_accepts (h : FromReset inp u) (hu : t ≤ u) (ht : accepts p s inp t = true) :
    0 < t ∧ AtRest (leftOver (tickCount (accepts p s inp) t)) (run (step p) s inp t) := by
  have hpos : 0 < t := by
    by_contra h0
    rw [show t = 0 by omega] at ht
    simp [accepts, h.reset] at ht
  refine ⟨hpos, ?_⟩
  rcases @atRest_or_converting p s inp u h t hpos hu with
    hrest | ⟨t', hpos', htt', hacc, hlt, hrest⟩
  · exact hrest
  · have hstart := ((accepts_iff (h.low t' hpos' (by omega))).mp hacc).2
    have hidle : (run (step p) s inp t).presentState = .idle := by
      simp only [accepts, Bool.and_eq_true, decide_eq_true_eq] at ht
      exact ht.1.1
    exact absurd hidle (not_idle_of_converting (leftOver_le _) hrest hstart
      (fun m hm hmu => h.low m (by omega) (by omega : m < u)) htt' hlt hu)

theorem Converts.unique {w w' v v' : ℕ} (hv : t < v) (hw : t + 2 + w ≤ v)
    (h : Converts p s inp t w v) (hv' : t < v') (h' : Converts p s inp t w' v') : w' ≤ w := by
  have hend : v' = v := by
    rcases Nat.le_total v' v with hle | hle
    · exact (h.dataRdy v' hv' hle).mp ((h'.dataRdy v' hv' le_rfl).mpr rfl)
    · exact ((h'.dataRdy v hv hle).mp ((h.dataRdy v hv le_rfl).mpr rfl)).symm
  by_contra hlt
  have h1 := h.cnv (t + 2 + w) (by omega) hw
  have h2 := h'.cnv (t + 2 + w) (by omega) (by omega)
  rw [h1] at h2
  omega

end Run

/-! ## A run -/

/-- The interfaces of the monitor converters. -/
def monitor : Generics := ⟨5, by omega, by omega⟩

/-- A reset, and then a start in every clock. -/
def startsAlways (n : ℕ) : Input := ⟨n == 0, true, false⟩

/-- The registers at configuration. -/
def restState : State := ⟨.idle, 0, 0, 0, 0, false, true, true, 0, false⟩

theorem fromReset_startsAlways (u : ℕ) : FromReset startsAlways u :=
  ⟨rfl, fun _ hn _ => beq_false_of_ne hn.ne'⟩

/-- The second start of the run: the first conversion ends in clock 1695. -/
theorem accepts_second : AtRest waitMsb (run (step monitor) restState startsAlways 1695) ∧
    accepts monitor restState startsAlways 1695 = true := by
  have hfirst : AtRest 0 (run (step monitor) restState startsAlways 1) := step_reset restState rfl
  obtain ⟨-, hrest⟩ := conversion (Nat.zero_le _) hfirst rfl
    fun m hm _ => (fromReset_startsAlways (m + 1)).low m hm m.lt_succ_self
  have hend : 1 + conversionClocks monitor (cnvPulse - 0) = 1695 := rfl
  rw [hend] at hrest
  refine ⟨hrest, (accepts_iff ?_).mpr ⟨hrest.idle, rfl⟩⟩
  exact (fromReset_startsAlways 1696).low 1695 (by omega) (by omega)

/-- **Conversions.** Every conversion after a reset reads its 128 bits, but the pulse of the later
ones is cut short by what the last wait has left in the counter: only the first is like the
first. -/
theorem like_first_iff (p : Generics) (s : State) {inp : ℕ → Input} {u t n : ℕ}
    (h : FromReset inp u) (hu : t + conversionClocks p cnvPulse ≤ u)
    (ht : accepts p s inp t = true) (hn : n = tickCount (accepts p s inp) t + 1) :
    (∃ v, t < v ∧ Converts p s inp t (if n = 1 then cnvPulse else cnvPulse - waitMsb) v) ∧
      (LikeFirst p s inp t ↔ n = 1) := by
  obtain ⟨hpos, hrest⟩ := atRest_of_accepts h (by omega) ht
  have hstart := ((accepts_iff (h.low t hpos (by unfold conversionClocks at hu; omega))).mp ht).2
  have hclocks : ∀ w, conversionClocks p w = w + 2 + afterPulse p := fun _ => rfl
  have hpulse : cnvPulse - leftOver (tickCount (accepts p s inp) t) =
      if n = 1 then cnvPulse else cnvPulse - waitMsb := by
    unfold leftOver
    by_cases h0 : tickCount (accepts p s inp) t = 0
    · rw [if_pos h0, if_pos (by omega), Nat.sub_zero]
    · rw [if_neg h0, if_neg (by omega)]
  have hle : conversionClocks p (cnvPulse - leftOver (tickCount (accepts p s inp) t)) ≤
      conversionClocks p cnvPulse := by
    rw [hclocks, hclocks]
    omega
  obtain ⟨hconv, -⟩ := conversion (leftOver_le _) hrest hstart
    fun m hm hmu => h.low m (by omega) (by omega)
  rw [hpulse] at hconv
  refine ⟨⟨_, by rw [hclocks]; omega, hconv⟩, ?_, ?_⟩
  · rintro ⟨v, hv, hfirst⟩
    by_contra hn1
    rw [if_neg hn1] at hconv
    have := hconv.unique (by rw [hclocks]; omega) (by rw [hclocks]; omega) hv hfirst
    exact absurd this (by decide)
  · intro hn1
    rw [if_pos hn1] at hconv
    exact ⟨_, by rw [hclocks]; omega, hconv⟩

/-- The first start of the run. -/
theorem first_conversion_like_first : LikeFirst monitor restState startsAlways 1 := by
  have hcount : tickCount (accepts monitor restState startsAlways) 1 = 0 :=
    tickCount_succ_of_not_tick (by simp [accepts, startsAlways])
  exact (like_first_iff monitor restState (n := 1) (fromReset_startsAlways _) le_rfl rfl
    (by rw [hcount])).2.mpr rfl

/-- The second conversion has a pulse of six clocks. -/
theorem second_conversion_not_like_first :
    accepts monitor restState startsAlways 1695 = true ∧
      ¬LikeFirst monitor restState startsAlways 1695 := by
  obtain ⟨hrest, hacc⟩ := accepts_second
  refine ⟨hacc, ?_⟩
  obtain ⟨hconv, -⟩ := conversion (by decide) hrest rfl
    fun m hm _ => (fromReset_startsAlways (m + 1)).low m (by omega) m.lt_succ_self
  rintro ⟨v, hv, hfirst⟩
  have hclocks : ∀ w, conversionClocks monitor w = w + 2 + afterPulse monitor := fun _ => rfl
  have := hconv.unique (by rw [hclocks]; omega) (by rw [hclocks]; omega) hv hfirst
  exact absurd this (by decide)

end Psc.Ads8568
