import Psc.Lib.Spi

/-!
# The DAC serialiser

`dac_ad5781.vhd`: a start in IDLE sends two 24-bit frames to the DAC, the control register and the
setpoint; the first start after a reset sends a word of the initialisation in place of the control
register.

`remaining` is the number of clocks until the machine is back in IDLE, and `promised` lists the
frames that the DAC will then have received. A clock of a transfer lowers the one by one and leaves
the other as it is (`step_promised`), so a transfer sends what it promises when it is started
(`run_promised`).
-/

namespace Psc.Ad5781

open Clocked Spi

/-- The generics, within the range of `clk_count`. -/
structure Generics where
  spiClkDiv : ℕ
  syncWidth : ℕ
  spiClkDiv_pos : 1 ≤ spiClkDiv
  syncWidth_pos : 1 ≤ syncWidth
  spiClkDiv_le : spiClkDiv ≤ 1001
  syncWidth_le : syncWidth ≤ 1000

/-- The input ports. -/
structure Input where
  reset : Bool
  start : Bool
  dacData : BitVec 20
  dacCtrlBits : BitVec 5

/-- The registers of the first process. -/
structure InputRegs where
  dataInReg : BitVec 20
  bin2scReg : Bool
  rbufReg : Bool
  dacTriReg : Bool
  sdoDisReg : Bool
  opGndReg : Bool

/-- `state`. -/
inductive Phase where
  | idle | sendCtrlReg | sendSetpoint | nSyncZero | firstBit | sclkLo | sclkHi | dacDone
  | waitSyncLow
  deriving DecidableEq

/-- The registers of the second process. -/
structure Fsm where
  presentState : Phase
  initCount : ℕ
  sclk : Bool
  bitCount : ℕ
  clkCount : ℕ
  setpointSent : Bool
  nSync : Bool
  shiftReg : BitVec 24
  done : Bool

/-- The registers. -/
structure State where
  regs : InputRegs
  fsm : Fsm

/-- The registers that hold `dac_data` and `dac_ctrl_bits`. -/
def InputRegs.of (dacData : BitVec 20) (dacCtrlBits : BitVec 5) : InputRegs where
  dataInReg := dacData
  bin2scReg := dacCtrlBits.getLsbD 4
  rbufReg := dacCtrlBits.getLsbD 3
  dacTriReg := dacCtrlBits.getLsbD 2
  sdoDisReg := dacCtrlBits.getLsbD 1
  opGndReg := dacCtrlBits.getLsbD 0

/-- The first process. -/
def sample (r : InputRegs) (i : Input) : InputRegs :=
  if i.reset then { r with dataInReg := 0 } else .of i.dacData i.dacCtrlBits

/-- `BITS`. -/
def bits : ℕ := 24

/-- The word that sets RESET in the software control register. -/
def resetWord : BitVec 24 := 0x400004#24

/-- The word that clears it. -/
def clearWord : BitVec 24 := 0x400000#24

/-- The word for the control register: `r_w`, `ctrl_reg_addr`, `reserved`, `lin_comp`, the control
bits, `reserved`. -/
def ctrlRegWord (r : InputRegs) : BitVec 24 :=
  0#1 ++ 0b010#3 ++ 0#10 ++ 0#4 ++ BitVec.ofBool r.sdoDisReg ++ BitVec.ofBool r.bin2scReg ++
    BitVec.ofBool r.dacTriReg ++ BitVec.ofBool r.opGndReg ++ BitVec.ofBool r.rbufReg ++ 0#1

/-- The word for the DAC register: `r_w`, `dac_reg_addr`, the data. -/
def setpointWord (r : InputRegs) : BitVec 24 := 0#1 ++ 0b001#3 ++ r.dataInReg

/-- The second process after a reset. -/
def resetFsm (s : Fsm) : Fsm :=
  { s with
    presentState := .idle
    initCount := 0
    sclk := false
    bitCount := 0
    clkCount := 0
    setpointSent := false
    nSync := true
    shiftReg := 0 }

/-- The second process. -/
def fsm (p : Generics) (r : InputRegs) (s : Fsm) (i : Input) : Fsm :=
  if i.reset then resetFsm s
  else
    match s.presentState with
    | .idle =>
      if i.start then
        if s.initCount = 0 then
          { s with done := false, nSync := true, shiftReg := resetWord, presentState := .nSyncZero }
        else if s.initCount = 1 then
          { s with done := false, nSync := true, shiftReg := clearWord, presentState := .nSyncZero }
        else { s with done := false, nSync := true, presentState := .sendCtrlReg }
      else { s with done := false }
    | .sendCtrlReg =>
      { s with shiftReg := ctrlRegWord r, setpointSent := false, presentState := .nSyncZero }
    | .sendSetpoint =>
      { s with setpointSent := true, shiftReg := setpointWord r, presentState := .nSyncZero }
    | .nSyncZero =>
      if s.clkCount = p.syncWidth then
        { s with nSync := false, clkCount := 0, sclk := true, presentState := .firstBit }
      else { s with nSync := true, clkCount := s.clkCount + 1 }
    | .firstBit =>
      if s.clkCount = p.spiClkDiv - 1 then
        { s with sclk := false, clkCount := 0, bitCount := s.bitCount + 1, presentState := .sclkLo }
      else { s with sclk := true, clkCount := s.clkCount + 1 }
    | .sclkHi =>
      if s.clkCount = p.spiClkDiv - 1 then
        if s.bitCount = bits then
          { s with
            initCount := if s.initCount = 2 then 2 else s.initCount + 1
            bitCount := 0
            clkCount := 0
            presentState := .dacDone }
        else
          { s with
            sclk := false
            bitCount := s.bitCount + 1
            clkCount := 0
            presentState := .sclkLo }
      else { s with sclk := true, clkCount := s.clkCount + 1 }
    | .sclkLo =>
      if s.clkCount = p.spiClkDiv - 1 then
        { s with
          sclk := true
          clkCount := 0
          shiftReg := s.shiftReg.extractLsb' 0 23 ++ 0#1
          presentState := .sclkHi }
      else { s with sclk := false, clkCount := s.clkCount + 1 }
    | .dacDone =>
      if s.clkCount = p.syncWidth - 1 then
        if s.setpointSent then
          { s with clkCount := 0, nSync := false, done := true, presentState := .waitSyncLow }
        else { s with clkCount := 0, nSync := true, presentState := .sendSetpoint }
      else { s with nSync := true, clkCount := s.clkCount + 1 }
    | .waitSyncLow =>
      if s.clkCount = p.syncWidth - 1 then
        { s with clkCount := 0, nSync := false, presentState := .idle }
      else { s with nSync := false, clkCount := s.clkCount + 1 }

/-- One clock. -/
def step (p : Generics) (s : State) (i : Input) : State where
  regs := sample s.regs i
  fsm := fsm p s.regs s.fsm i

/-- The output lines: `sdo` is the highest bit of the shift register. -/
def lines (s : Fsm) : Lines := ⟨s.nSync, s.sclk, s.shiftReg.getLsbD 23⟩

/-! ## A transfer -/

/-- The clocks of a frame, from N_SYNC_ZERO to DAC_DONE. -/
def frameClocks (p : Generics) : ℕ := 2 * p.syncWidth + 1 + 49 * p.spiClkDiv

/-- The clocks left of the frame under way. -/
def frameLeft (p : Generics) (s : Fsm) : ℕ :=
  match s.presentState with
  | .nSyncZero => p.syncWidth + 1 - s.clkCount + 49 * p.spiClkDiv + p.syncWidth
  | .firstBit => p.spiClkDiv - s.clkCount + 48 * p.spiClkDiv + p.syncWidth
  | .sclkLo => p.spiClkDiv - s.clkCount + (2 * (24 - s.bitCount) + 1) * p.spiClkDiv + p.syncWidth
  | .sclkHi => p.spiClkDiv - s.clkCount + 2 * (24 - s.bitCount) * p.spiClkDiv + p.syncWidth
  | .dacDone => p.syncWidth - s.clkCount
  | _ => 0

/-- The clocks left after the frame under way: WAIT_SYNC_LOW, and before it the setpoint. -/
def restLeft (p : Generics) (s : Fsm) : ℕ :=
  if s.setpointSent then p.syncWidth else 1 + frameClocks p + p.syncWidth

/-- The clocks until the machine is in IDLE. -/
def remaining (p : Generics) (s : Fsm) : ℕ :=
  match s.presentState with
  | .idle => 0
  | .waitSyncLow => p.syncWidth - s.clkCount
  | .sendSetpoint => 1 + frameClocks p + p.syncWidth
  | .sendCtrlReg => 1 + frameClocks p + (1 + frameClocks p + p.syncWidth)
  | _ => frameLeft p s + restLeft p s

/-- The bits of the frame under way that have not been sent. -/
def unsent (s : Fsm) : List Bool :=
  match s.presentState with
  | .nSyncZero | .firstBit => wordBits s.shiftReg
  | .sclkLo => topBits (s.shiftReg <<< 1) (24 - s.bitCount)
  | .sclkHi => topBits s.shiftReg (24 - s.bitCount)
  | _ => []

/-- The frames after the one under way. -/
def rest (d : BitVec 24) (s : Fsm) : List (List Bool) :=
  if s.setpointSent then [] else [wordBits d]

theorem rest_eq_nil_iff {d : BitVec 24} {s : Fsm} : rest d s = [] ↔ s.setpointSent = true := by
  unfold rest
  cases s.setpointSent <;> simp

/-- The frames that a slave will have when the machine is back in IDLE, if the words loaded are `c`
for the control register and `d` for the setpoint. -/
def promised (c d : BitVec 24) (s : Fsm) (r : Slave) : List (List Bool) :=
  match s.presentState with
  | .idle | .waitSyncLow => r.frames
  | .sendCtrlReg => r.frames ++ [wordBits c, wordBits d]
  | .sendSetpoint => r.frames ++ [wordBits d]
  | .dacDone => r.frames ++ rest d s
  | _ => r.sent ++ (r.bits ++ unsent s) :: rest d s

/-- Where the counters and the lines stand in each state, and how many bits the slave has. -/
def InOrder (p : Generics) (s : Fsm) (r : Slave) : Prop :=
  match s.presentState with
  | .idle => s.clkCount = 0 ∧ s.bitCount = 0
  | .sendCtrlReg => s.clkCount = 0 ∧ s.bitCount = 0 ∧ r.bits = []
  | .sendSetpoint => s.clkCount = 0 ∧ s.bitCount = 0 ∧ r.bits = [] ∧ s.nSync = true
  | .nSyncZero => s.clkCount ≤ p.syncWidth ∧ s.bitCount = 0 ∧ r.bits = []
  | .firstBit =>
    s.clkCount < p.spiClkDiv ∧ s.bitCount = 0 ∧ r.bits = [] ∧ s.nSync = false ∧ s.sclk = true
  | .sclkLo =>
    s.clkCount < p.spiClkDiv ∧ 1 ≤ s.bitCount ∧ s.bitCount ≤ bits ∧
      r.bits.length = s.bitCount ∧ s.nSync = false ∧ s.sclk = false
  | .sclkHi =>
    s.clkCount < p.spiClkDiv ∧ 1 ≤ s.bitCount ∧ s.bitCount ≤ bits ∧
      r.bits.length = s.bitCount ∧ s.nSync = false ∧ s.sclk = true
  | .dacDone | .waitSyncLow => s.clkCount < p.syncWidth ∧ s.bitCount = 0

/-- A clock of a transfer: one less to go, with the same frames in the end. -/
structure Advances (p : Generics) (c d : BitVec 24) (s s' : Fsm) (r r' : Slave) : Prop where
  inOrder : InOrder p s' r'
  remaining : remaining p s' + 1 = remaining p s
  promised : promised c d s' r' = promised c d s r

section Step

variable {p : Generics} {g : InputRegs} {s : Fsm} {i : Input} {r : Slave} {c d : BitVec 24}

/-- The slave after the clock. -/
def seen (p : Generics) (g : InputRegs) (s : Fsm) (i : Input) (r : Slave) : Slave :=
  r.observe (lines s, lines (fsm p g s i))

theorem seen_of_bits_nil {s' : Fsm} (hfsm : fsm p g s i = s') (hbits : r.bits = [])
    (hfall : ¬Falls (lines s) (lines s')) : seen p g s i r = r := by
  unfold seen
  rw [hfsm]
  exact Slave.observe_of_bits_nil hbits hfall

theorem seen_of_not_falls {s' : Fsm} (hfsm : fsm p g s i = s') (hsync : s'.nSync = false)
    (hfall : ¬Falls (lines s) (lines s')) : seen p g s i r = r := by
  unfold seen
  rw [hfsm]
  exact Slave.observe_of_not_falls hsync hfall

theorem advances_sendCtrlReg (hs : s.presentState = .sendCtrlReg) (hr : i.reset = false)
    (h : InOrder p s r) (hc : ctrlRegWord g = c) :
    Advances p c d s (fsm p g s i) r (seen p g s i r) := by
  simp only [InOrder, hs] at h
  obtain ⟨hclk, hbit, hbits⟩ := h
  have hfsm : fsm p g s i =
      { s with shiftReg := c, setpointSent := false, presentState := .nSyncZero } := by
    simp [fsm, hr, hs, hc]
  have hseen : seen p g s i r = r := seen_of_bits_nil hfsm hbits (by simp [Falls, lines])
  rw [hfsm, hseen]
  refine ⟨⟨by simp [hclk], hbit, hbits⟩, ?_, ?_⟩
  · simp only [remaining, frameLeft, restLeft, frameClocks, hs, hclk]
    simp
    omega
  · simp [promised, unsent, rest, hs, hbits, Slave.frames]

theorem advances_sendSetpoint (hs : s.presentState = .sendSetpoint) (hr : i.reset = false)
    (h : InOrder p s r) (hd : setpointWord g = d) :
    Advances p c d s (fsm p g s i) r (seen p g s i r) := by
  simp only [InOrder, hs] at h
  obtain ⟨hclk, hbit, hbits, -⟩ := h
  have hfsm : fsm p g s i =
      { s with setpointSent := true, shiftReg := d, presentState := .nSyncZero } := by
    simp [fsm, hr, hs, hd]
  have hseen : seen p g s i r = r := seen_of_bits_nil hfsm hbits (by simp [Falls, lines])
  rw [hfsm, hseen]
  refine ⟨⟨by simp [hclk], hbit, hbits⟩, ?_, ?_⟩
  · simp only [remaining, frameLeft, restLeft, frameClocks, hs, hclk]
    simp
    omega
  · simp [promised, unsent, rest, hs, hbits, Slave.frames]

theorem advances_nSyncZero (hs : s.presentState = .nSyncZero) (hr : i.reset = false)
    (h : InOrder p s r) : Advances p c d s (fsm p g s i) r (seen p g s i r) := by
  simp only [InOrder, hs] at h
  obtain ⟨hclk, hbit, hbits⟩ := h
  have hdiv := p.spiClkDiv_pos
  by_cases hend : s.clkCount = p.syncWidth
  · have hfsm : fsm p g s i =
        { s with nSync := false, clkCount := 0, sclk := true, presentState := .firstBit } := by
      simp [fsm, hr, hs, hend]
    have hseen : seen p g s i r = r := seen_of_bits_nil hfsm hbits (by simp [Falls, lines])
    rw [hfsm, hseen]
    refine ⟨⟨hdiv, hbit, hbits, rfl, rfl⟩, ?_, ?_⟩
    · simp only [remaining, frameLeft, restLeft, hs, hend]
      omega
    · simp [promised, unsent, rest, hs]
  · have hfsm : fsm p g s i = { s with nSync := true, clkCount := s.clkCount + 1 } := by
      simp [fsm, hr, hs, hend]
    have hseen : seen p g s i r = r := seen_of_bits_nil hfsm hbits (by simp [Falls, lines])
    rw [hfsm, hseen]
    refine ⟨?_, ?_, ?_⟩
    · simp only [InOrder, hs]
      exact ⟨by omega, hbit, hbits⟩
    · simp only [remaining, frameLeft, restLeft, hs]
      omega
    · simp [promised, unsent, rest, hs]

theorem advances_firstBit (hs : s.presentState = .firstBit) (hr : i.reset = false)
    (h : InOrder p s r) : Advances p c d s (fsm p g s i) r (seen p g s i r) := by
  simp only [InOrder, hs] at h
  obtain ⟨hclk, hbit, hbits, hsync, hsclk⟩ := h
  by_cases hend : s.clkCount = p.spiClkDiv - 1
  · have hfsm : fsm p g s i =
        { s with sclk := false, clkCount := 0, bitCount := s.bitCount + 1,
                 presentState := .sclkLo } := by
      simp [fsm, hr, hs, hend]
    have hseen : seen p g s i r = { r with bits := [s.shiftReg.getMsbD 0] } := by
      unfold seen
      rw [hfsm, Slave.observe_of_falls hsync ⟨hsclk, rfl⟩, hbits]
      rfl
    rw [hfsm, hseen]
    refine ⟨?_, ?_, ?_⟩
    · simp only [InOrder, hbit]
      exact ⟨p.spiClkDiv_pos, le_rfl, by decide, rfl, hsync, trivial⟩
    · simp only [remaining, frameLeft, restLeft, hs, hbit, hend]
      omega
    · simp only [promised, unsent, rest, hs, hbit, hbits, wordBits, topBits_succ _ 23]
      rfl
  · have hfsm : fsm p g s i = { s with sclk := true, clkCount := s.clkCount + 1 } := by
      simp [fsm, hr, hs, hend]
    have hseen : seen p g s i r = r := seen_of_bits_nil hfsm hbits (by simp [Falls, lines])
    rw [hfsm, hseen]
    refine ⟨?_, ?_, ?_⟩
    · simp only [InOrder, hs]
      exact ⟨by omega, hbit, hbits, hsync, trivial⟩
    · simp only [remaining, frameLeft, restLeft, hs]
      omega
    · simp [promised, unsent, rest, hs]

theorem shift_eq (x : BitVec 24) : x.extractLsb' 0 23 ++ 0#1 = x <<< 1 := by
  ext j hj
  simp
  grind

theorem advances_sclkLo (hs : s.presentState = .sclkLo) (hr : i.reset = false)
    (h : InOrder p s r) : Advances p c d s (fsm p g s i) r (seen p g s i r) := by
  simp only [InOrder, hs] at h
  obtain ⟨hclk, hlo, hhi, hlen, hsync, hsclk⟩ := h
  by_cases hend : s.clkCount = p.spiClkDiv - 1
  · have hfsm : fsm p g s i =
        { s with sclk := true, clkCount := 0, shiftReg := s.shiftReg <<< 1,
                 presentState := .sclkHi } := by
      rw [← shift_eq]
      simp [fsm, hr, hs, hend]
    have hseen : seen p g s i r = r :=
      seen_of_not_falls hfsm hsync (by simp [Falls, lines])
    rw [hfsm, hseen]
    refine ⟨⟨p.spiClkDiv_pos, hlo, hhi, hlen, hsync, rfl⟩, ?_, ?_⟩
    · simp only [remaining, frameLeft, restLeft, hs, hend, add_mul]
      omega
    · simp [promised, unsent, rest, hs]
  · have hfsm : fsm p g s i = { s with sclk := false, clkCount := s.clkCount + 1 } := by
      simp [fsm, hr, hs, hend]
    have hseen : seen p g s i r = r :=
      seen_of_not_falls hfsm hsync (by simp [Falls, lines, hsclk])
    rw [hfsm, hseen]
    refine ⟨?_, ?_, ?_⟩
    · simp only [InOrder, hs]
      exact ⟨by omega, hlo, hhi, hlen, hsync, trivial⟩
    · simp only [remaining, frameLeft, restLeft, hs]
      omega
    · simp [promised, unsent, rest, hs]

theorem advances_sclkHi (hs : s.presentState = .sclkHi) (hr : i.reset = false)
    (h : InOrder p s r) : Advances p c d s (fsm p g s i) r (seen p g s i r) := by
  simp only [InOrder, hs] at h
  obtain ⟨hclk, hlo, hhi, hlen, hsync, hsclk⟩ := h
  have hsw := p.syncWidth_pos
  by_cases hend : s.clkCount = p.spiClkDiv - 1
  · by_cases hlast : s.bitCount = bits
    · have hfsm : fsm p g s i =
          { s with initCount := if s.initCount = 2 then 2 else s.initCount + 1, bitCount := 0,
                   clkCount := 0, presentState := .dacDone } := by
        simp [fsm, hr, hs, hend, hlast]
      have hseen : seen p g s i r = r :=
        seen_of_not_falls hfsm hsync (by simp [Falls, lines, hsclk])
      have hne : r.bits ≠ [] := by
        intro hnil
        rw [hnil, List.length_nil] at hlen
        omega
      rw [hfsm, hseen]
      refine ⟨⟨hsw, rfl⟩, ?_, ?_⟩
      · simp only [remaining, frameLeft, restLeft, hs, hend, hlast, bits]
        omega
      · simp only [promised, unsent, rest, hs, hlast, bits, Slave.frames_of_ne_nil hne]
        simp
    · have hfsm : fsm p g s i =
          { s with sclk := false, bitCount := s.bitCount + 1, clkCount := 0,
                   presentState := .sclkLo } := by
        simp [fsm, hr, hs, hend, hlast]
      have hseen : seen p g s i r = { r with bits := r.bits ++ [s.shiftReg.getMsbD 0] } := by
        unfold seen
        rw [hfsm, Slave.observe_of_falls hsync ⟨hsclk, rfl⟩]
        rfl
      obtain ⟨k, hk⟩ : ∃ k, 24 - s.bitCount = k + 1 := ⟨23 - s.bitCount, by unfold bits at *; omega⟩
      rw [hfsm, hseen]
      refine ⟨⟨p.spiClkDiv_pos, by simp, ?_, by simp [hlen], hsync, rfl⟩, ?_, ?_⟩
      · show s.bitCount + 1 ≤ bits
        omega
      · simp only [remaining, frameLeft, restLeft, hs, hend, hk,
          show 24 - (s.bitCount + 1) = k by omega, add_mul, mul_add]
        omega
      · simp only [promised, unsent, rest, hs, hk, show 24 - (s.bitCount + 1) = k by omega,
          topBits_succ _ k, List.append_assoc, List.singleton_append]
  · have hfsm : fsm p g s i = { s with sclk := true, clkCount := s.clkCount + 1 } := by
      simp [fsm, hr, hs, hend]
    have hseen : seen p g s i r = r :=
      seen_of_not_falls hfsm hsync (by simp [Falls, lines])
    rw [hfsm, hseen]
    refine ⟨?_, ?_, ?_⟩
    · simp only [InOrder, hs]
      exact ⟨by omega, hlo, hhi, hlen, hsync, trivial⟩
    · simp only [remaining, frameLeft, restLeft, hs]
      omega
    · simp [promised, unsent, rest, hs]

theorem advances_dacDone (hs : s.presentState = .dacDone) (hr : i.reset = false)
    (h : InOrder p s r) : Advances p c d s (fsm p g s i) r (seen p g s i r) := by
  simp only [InOrder, hs] at h
  obtain ⟨hclk, hbit⟩ := h
  have hsw := p.syncWidth_pos
  by_cases hend : s.clkCount = p.syncWidth - 1
  · cases hsent : s.setpointSent with
    | true =>
      have hfsm : fsm p g s i =
          { s with clkCount := 0, nSync := false, done := true, presentState := .waitSyncLow } := by
        simp [fsm, hr, hs, hend, hsent]
      have hseen : (seen p g s i r).frames = r.frames := by
        unfold seen
        rw [hfsm]
        exact Slave.frames_observe_of_not_falls (by simp [Falls, lines])
      rw [hfsm]
      refine ⟨⟨hsw, hbit⟩, ?_, ?_⟩
      · simp only [remaining, frameLeft, restLeft, hs, hend, hsent]
        simp
        omega
      · simp [promised, rest, hs, hsent, hseen]
    | false =>
      have hfsm : fsm p g s i =
          { s with clkCount := 0, nSync := true, presentState := .sendSetpoint } := by
        simp [fsm, hr, hs, hend, hsent]
      have hseen : seen p g s i r = ⟨r.frames, []⟩ := by
        unfold seen
        rw [hfsm, Slave.observe_of_nSync rfl]
      rw [hfsm, hseen]
      refine ⟨⟨rfl, hbit, rfl, rfl⟩, ?_, ?_⟩
      · simp only [remaining, frameLeft, restLeft, hs, hend, hsent]
        simp
        omega
      · simp [promised, rest, hs, hsent]
  · have hfsm : fsm p g s i = { s with nSync := true, clkCount := s.clkCount + 1 } := by
      simp [fsm, hr, hs, hend]
    have hseen : seen p g s i r = ⟨r.frames, []⟩ := by
      unfold seen
      rw [hfsm, Slave.observe_of_nSync rfl]
    rw [hfsm, hseen]
    refine ⟨?_, ?_, ?_⟩
    · simp only [InOrder, hs]
      exact ⟨by omega, hbit⟩
    · simp only [remaining, frameLeft, restLeft, hs]
      omega
    · simp [promised, rest, hs]

theorem advances_waitSyncLow (hs : s.presentState = .waitSyncLow) (hr : i.reset = false)
    (h : InOrder p s r) : Advances p c d s (fsm p g s i) r (seen p g s i r) := by
  simp only [InOrder, hs] at h
  obtain ⟨hclk, hbit⟩ := h
  have hsclk : (fsm p g s i).sclk = s.sclk := by
    unfold fsm
    rw [if_neg (by simp [hr]), hs]
    dsimp only
    split_ifs <;> rfl
  have hseen : (seen p g s i r).frames = r.frames :=
    Slave.frames_observe_of_not_falls (by simp [Falls, lines, hsclk])
  by_cases hend : s.clkCount = p.syncWidth - 1
  · have hfsm : fsm p g s i = { s with clkCount := 0, nSync := false, presentState := .idle } := by
      simp [fsm, hr, hs, hend]
    refine ⟨by rw [hfsm]; exact ⟨rfl, hbit⟩, ?_, ?_⟩
    · simp only [hfsm, remaining, hs, hend]
      omega
    · simp [hfsm, promised, hs, hseen]
  · have hfsm : fsm p g s i = { s with nSync := false, clkCount := s.clkCount + 1 } := by
      simp [fsm, hr, hs, hend]
    refine ⟨?_, ?_, ?_⟩
    · simp only [hfsm, InOrder, hs]
      exact ⟨by omega, hbit⟩
    · simp only [hfsm, remaining, hs]
      omega
    · simp [hfsm, promised, hs, hseen]

/-- **A clock of a transfer.** The words are those that the registers hold when they are loaded. -/
theorem step_promised (hidle : s.presentState ≠ .idle) (hr : i.reset = false) (h : InOrder p s r)
    (hc : s.presentState = .sendCtrlReg → ctrlRegWord g = c)
    (hd : s.presentState = .sendSetpoint → setpointWord g = d) :
    Advances p c d s (fsm p g s i) r (seen p g s i r) := by
  cases hs : s.presentState with
  | idle => exact absurd hs hidle
  | sendCtrlReg => exact advances_sendCtrlReg hs hr h (hc hs)
  | sendSetpoint => exact advances_sendSetpoint hs hr h (hd hs)
  | nSyncZero => exact advances_nSyncZero hs hr h
  | firstBit => exact advances_firstBit hs hr h
  | sclkLo => exact advances_sclkLo hs hr h
  | sclkHi => exact advances_sclkHi hs hr h
  | dacDone => exact advances_dacDone hs hr h
  | waitSyncLow => exact advances_waitSyncLow hs hr h

theorem remaining_eq_zero_iff (h : InOrder p s r) : remaining p s = 0 ↔ s.presentState = .idle := by
  have hsw := p.syncWidth_pos
  cases hs : s.presentState <;>
    simp only [InOrder, remaining, frameLeft, restLeft, hs] at h ⊢ <;> simp <;> omega

theorem counters_in_range (h : InOrder p s r) : s.clkCount ≤ 1000 ∧ s.bitCount ≤ 25 := by
  have hdiv := p.spiClkDiv_le
  have hsw := p.syncWidth_le
  cases hs : s.presentState <;> simp only [InOrder, bits, hs] at h <;> omega

/-- A start in IDLE loads a word, or asks for the control register's. -/
theorem inOrder_start (hs : s.presentState = .idle) (hr : i.reset = false) (hstart : i.start = true)
    (h : InOrder p s r) :
    InOrder p (fsm p g s i) (seen p g s i r) ∧ (seen p g s i r) = ⟨r.frames, []⟩ := by
  simp only [InOrder, hs] at h
  have hsync : (fsm p g s i).nSync = true := by
    unfold fsm
    rw [if_neg (by simp [hr]), hs]
    dsimp only
    rw [if_pos hstart]
    split_ifs <;> rfl
  have hseen : seen p g s i r = ⟨r.frames, []⟩ := Slave.observe_of_nSync hsync
  refine ⟨?_, hseen⟩
  rw [hseen]
  unfold fsm
  rw [if_neg (by simp [hr]), hs]
  dsimp only
  rw [if_pos hstart]
  split_ifs
  · exact ⟨by simp [h.1], h.2, rfl⟩
  · exact ⟨by simp [h.1], h.2, rfl⟩
  · exact ⟨h.1, h.2, rfl⟩

theorem idle_of_not_start (hs : s.presentState = .idle) (hr : i.reset = false)
    (hstart : i.start = false) (h : InOrder p s r) :
    fsm p g s i = { s with done := false } ∧ InOrder p (fsm p g s i) (seen p g s i r) ∧
      (seen p g s i r).frames = r.frames := by
  simp only [InOrder, hs] at h
  have hfsm : fsm p g s i = { s with done := false } := by simp [fsm, hr, hs, hstart]
  refine ⟨hfsm, ?_, ?_⟩
  · rw [hfsm]
    simpa only [InOrder, hs] using h
  · refine Slave.frames_observe_of_not_falls ?_
    rw [hfsm]
    simp [Falls, lines]

end Step

end Psc.Ad5781
