import Psc.Lib.NumericStd
import Psc.Lib.Clocked
import Psc.Records

/-!
# The fault block

`fault_block.vhd`: the protection logic of one channel. Each VHDL process is a function from the
registers before the clock edge and the inputs to its own registers after it.

1. `tenkhz_trig` is delayed by three clocks into `tenKhzPulse`, the tick at which the checks run.
2. A rising edge of `clear` sets `clearPulse`, which the next tick takes down again.
3. At a tick each of the eleven counted sources runs its check (`ovc1Check`, …): all are
   `countedCheck` on their own condition, counter, limit and bit. The two loop-error checks are
   skipped, and their counters cleared, in park and while the setpoint moves.
4. On every clock the live bits `0..12` set their latches, which only `clearPulse` and `reset`
   take down, and the masked latches are registered for the outputs.

The registers `error_sub`, `dff2`, `dff3`, `heartbeat` and `heart_cnt` are read by no live code.
-/

namespace Psc.FaultBlock

open NumericStd

/-- The input ports. -/
structure Input where
  reset : Bool
  tenkhzTrig : Bool
  faultParams : FaultParams
  dcctAdcs : DcctAdcs
  monAdcs : MonAdcs
  fault1 : Bool
  fault2 : Bool
  fault3 : Bool
  dcctFault : Bool
  acOnIn : Bool
  acOnOut : Bool
  park : Bool
  dacSetpoint : BitVec 20
  evrFltIn : Bool

/-- The registers of the process "Main Fault Logic". -/
structure Main where
  ovcFaultCnt1 : BitVec 16
  ovcFaultCnt2 : BitVec 16
  ovvFaultCnt : BitVec 16
  errFaultCnt1 : BitVec 16
  errFaultCnt2 : BitVec 16
  igndFaultCnt : BitVec 16
  dcctFaultCnt : BitVec 16
  fault1Cnt : BitVec 16
  fault2Cnt : BitVec 16
  fault3Cnt : BitVec 16
  onFaultCnt : BitVec 32
  faultReg : BitVec 16
  faultRegLat : BitVec 16
  deriving DecidableEq

/-- The registers of the block. -/
structure State extends Main where
  faultRegLatMask : BitVec 16
  errorRegMask : BitVec 16
  dacSetpointRegNew : BitVec 20
  dacSetpointRegOld : BitVec 20
  dff0 : Bool
  dff1 : Bool
  tenKhzPulse : Bool
  re : Bool
  reReg : Bool
  clearPulse : Bool
  dacChangeFlag : Bool
  deriving DecidableEq

/-! ## The counted checks -/

/-- A fault counter with its bit of `fault_reg`. -/
structure Check (w : ℕ) where
  cnt : BitVec w
  live : Bool

/-- The check of one source: count while the condition holds, raise the bit when the count equals
the limit, clear both when the condition does not hold. -/
def countedCheck {w : ℕ} (trip : Bool) (cntlim : BitVec w) (c : Check w) : Check w :=
  if trip then
    if c.cnt = cntlim then { c with live := true } else { c with cnt := c.cnt + 1 }
  else ⟨0, false⟩

/-- `abs(adc) >= abs(signed(thresh))`. -/
def overThreshold {w : ℕ} (adc thresh : BitVec w) : Bool := thresh.abs.sle adc.abs

section Checks

variable (s : State) (i : Input)

/-- Over current DCCT 1. -/
def ovc1Check : Check 16 :=
  countedCheck (overThreshold i.dcctAdcs.dcct0 i.faultParams.ovc1Thresh && !s.clearPulse)
    i.faultParams.ovc1Cntlim ⟨s.ovcFaultCnt1, s.faultReg.getLsbD 0⟩

/-- Over current DCCT 2. -/
def ovc2Check : Check 16 :=
  countedCheck (overThreshold i.dcctAdcs.dcct1 i.faultParams.ovc2Thresh && !s.clearPulse)
    i.faultParams.ovc2Cntlim ⟨s.ovcFaultCnt2, s.faultReg.getLsbD 1⟩

/-- Over voltage. -/
def ovvCheck : Check 16 :=
  countedCheck (overThreshold i.monAdcs.voltage i.faultParams.ovvThresh && !s.clearPulse)
    i.faultParams.ovvCntlim ⟨s.ovvFaultCnt, s.faultReg.getLsbD 2⟩

/-- PI loop error: ignored in park and while the setpoint changes. -/
def err1Check : Check 16 :=
  if i.park then ⟨0, false⟩
  else if s.dacChangeFlag then ⟨0, false⟩
  else countedCheck (overThreshold i.monAdcs.psError i.faultParams.err1Thresh && !s.clearPulse)
    i.faultParams.err1Cntlim ⟨s.errFaultCnt1, s.faultReg.getLsbD 3⟩

/-- PI loop error glitch: triggers a snapshot only, never the interlock. -/
def err2Check : Check 16 :=
  if i.park then ⟨0, false⟩
  else if s.dacChangeFlag then ⟨0, false⟩
  else countedCheck (overThreshold i.monAdcs.psError i.faultParams.err2Thresh && !s.clearPulse)
    i.faultParams.err2Cntlim ⟨s.errFaultCnt2, s.faultReg.getLsbD 4⟩

/-- Ground current. -/
def igndCheck : Check 16 :=
  countedCheck (overThreshold i.monAdcs.ignd i.faultParams.igndThresh && !s.clearPulse)
    i.faultParams.igndCntlim ⟨s.igndFaultCnt, s.faultReg.getLsbD 5⟩

/-- DCCT status: the only input that is low when faulty. -/
def dcctCheck : Check 16 :=
  countedCheck (!i.dcctFault && !s.clearPulse)
    i.faultParams.dcctCntlim ⟨s.dcctFaultCnt, s.faultReg.getLsbD 6⟩

/-- Bipolar power supply fault. -/
def flt1Check : Check 16 :=
  countedCheck (i.fault1 && !s.clearPulse)
    i.faultParams.flt1Cntlim ⟨s.fault1Cnt, s.faultReg.getLsbD 7⟩

/-- Bipolar heartbeat fault. -/
def flt2Check : Check 16 :=
  countedCheck (i.fault2 && !s.clearPulse)
    i.faultParams.flt2Cntlim ⟨s.fault2Cnt, s.faultReg.getLsbD 8⟩

/-- External interlock. -/
def flt3Check : Check 16 :=
  countedCheck (i.fault3 && !s.clearPulse)
    i.faultParams.flt3Cntlim ⟨s.fault3Cnt, s.faultReg.getLsbD 9⟩

/-- The supply was told to turn on and does not acknowledge. The counter has 32 bits, so the
limit is compared at that width. -/
def onCheck : Check 32 :=
  countedCheck (i.acOnOut && !i.acOnIn && !s.clearPulse)
    (i.faultParams.onCntlim.setWidth 32) ⟨s.onFaultCnt, s.faultReg.getLsbD 10⟩

/-- The assignments of one tick. -/
def faultChecks : Main where
  ovcFaultCnt1 := (ovc1Check s i).cnt
  ovcFaultCnt2 := (ovc2Check s i).cnt
  ovvFaultCnt := (ovvCheck s i).cnt
  errFaultCnt1 := (err1Check s i).cnt
  errFaultCnt2 := (err2Check s i).cnt
  igndFaultCnt := (igndCheck s i).cnt
  dcctFaultCnt := (dcctCheck s i).cnt
  fault1Cnt := (flt1Check s i).cnt
  fault2Cnt := (flt2Check s i).cnt
  fault3Cnt := (flt3Check s i).cnt
  onFaultCnt := (onCheck s i).cnt
  faultReg :=
    let r := setBit s.faultReg 0 (ovc1Check s i).live
    let r := setBit r 1 (ovc2Check s i).live
    let r := setBit r 2 (ovvCheck s i).live
    let r := setBit r 3 (err1Check s i).live
    let r := setBit r 4 (err2Check s i).live
    let r := setBit r 5 (igndCheck s i).live
    let r := setBit r 6 (dcctCheck s i).live
    let r := setBit r 7 (flt1Check s i).live
    let r := setBit r 8 (flt2Check s i).live
    let r := setBit r 9 (flt3Check s i).live
    setBit r 10 (onCheck s i).live
  faultRegLat := s.faultRegLat

end Checks

/-! ## The processes -/

/-- `fault_reg_lat(k) <= …` for one turn of the latch loop. -/
def latchBit (clearPulse : Bool) (faultReg lat : BitVec 16) (k : ℕ) : BitVec 16 :=
  if clearPulse then setBit lat k false
  else if faultReg.getLsbD k then setBit lat k true
  else lat

/-- The loop `for i in 0 to 12`. -/
def faultLatches (clearPulse : Bool) (faultReg lat : BitVec 16) : BitVec 16 :=
  (List.range 13).foldl (latchBit clearPulse faultReg) lat

/-- Main Fault Logic. The reset branch leaves the counters of the digital checks alone. -/
def mainFaultLogic (s : State) (i : Input) : Main :=
  if i.reset then
    { s.toMain with
      faultReg := 0
      faultRegLat := 0
      ovcFaultCnt1 := 0
      ovcFaultCnt2 := 0
      ovvFaultCnt := 0
      errFaultCnt1 := 0
      errFaultCnt2 := 0
      igndFaultCnt := 0 }
  else
    let m := if s.tenKhzPulse then faultChecks s i else s.toMain
    { m with
      faultReg := setBit m.faultReg 12 i.evrFltIn
      faultRegLat := faultLatches s.clearPulse s.faultReg s.faultRegLat }

/-- The faults that open the interlock: all but the error glitch. -/
def faultMask : BitVec 16 := 0x1FEF#16

/-- The error glitch. -/
def errorMask : BitVec 16 := 0x0010#16

/-- One clock of the block. -/
def step (s : State) (i : Input) : State where
  toMain := mainFaultLogic s i
  faultRegLatMask := faultMask &&& s.faultRegLat &&& i.faultParams.enable
  errorRegMask := errorMask &&& s.faultReg &&& i.faultParams.enable
  dacSetpointRegNew :=
    if i.reset then 0 else if i.tenkhzTrig then i.dacSetpoint else s.dacSetpointRegNew
  dacSetpointRegOld :=
    if i.reset then 0 else if i.tenkhzTrig then s.dacSetpointRegNew else s.dacSetpointRegOld
  dff0 := if i.reset then false else i.tenkhzTrig
  dff1 := if i.reset then false else s.dff0
  tenKhzPulse := if i.reset then false else s.dff1
  re := i.faultParams.clear
  reReg := s.re
  clearPulse :=
    if !s.reReg && s.re then true else if s.tenKhzPulse then false else s.clearPulse
  dacChangeFlag :=
    if i.reset then false else decide (s.dacSetpointRegNew ≠ s.dacSetpointRegOld)

/-- The output ports. -/
def faultStat (s : State) : FaultStat where
  live := s.faultReg
  lat := s.faultRegLatMask
  fltTrig := decide (s.faultRegLatMask ≠ 0)
  errTrig := decide (s.errorRegMask ≠ 0)

/-! ## Latches -/

/-- One turn of the loop sets or clears its own bit only. -/
theorem latchBit_getLsbD (clearPulse : Bool) (faultReg lat : BitVec 16) {j : ℕ} (hj : j < 16)
    (k : ℕ) :
    (latchBit clearPulse faultReg lat j).getLsbD k =
      if j = k then (!clearPulse && (faultReg.getLsbD k || lat.getLsbD k))
      else lat.getLsbD k := by
  unfold latchBit
  by_cases hjk : j = k
  · subst hjk
    rw [if_pos rfl]
    cases clearPulse with
    | true => rw [if_pos rfl, getLsbD_setBit, if_pos ⟨rfl, hj⟩]; rfl
    | false =>
      cases h : faultReg.getLsbD j with
      | true => rw [if_neg (by simp), if_pos rfl, getLsbD_setBit, if_pos ⟨rfl, hj⟩]; rfl
      | false => rw [if_neg (by simp), if_neg (by simp)]; rfl
  · rw [if_neg hjk]
    split_ifs
    · rw [getLsbD_setBit, if_neg (fun h => hjk h.1)]
    · rw [getLsbD_setBit, if_neg (fun h => hjk h.1)]
    · rfl

/-- The first `n` turns of the loop: the bits below `n` follow their fault bits. -/
theorem latchLoop_getLsbD (clearPulse : Bool) (faultReg lat : BitVec 16) (k : ℕ) :
    ∀ n ≤ 16, ((List.range n).foldl (latchBit clearPulse faultReg) lat).getLsbD k =
      if k < n then (!clearPulse && (faultReg.getLsbD k || lat.getLsbD k))
      else lat.getLsbD k := by
  intro n
  induction n with
  | zero => intro _; rfl
  | succ n ih =>
    intro hn
    rw [List.range_succ, List.foldl_append, List.foldl_cons, List.foldl_nil,
      latchBit_getLsbD _ _ _ (by omega), ih (by omega)]
    by_cases hnk : n = k
    · subst hnk
      rw [if_pos rfl, if_neg (lt_irrefl n), if_pos (Nat.lt_succ_self n)]
    · rw [if_neg hnk]
      by_cases hk : k < n
      · rw [if_pos hk, if_pos (by omega)]
      · rw [if_neg hk, if_neg (by omega)]

theorem faultLatches_getLsbD (clearPulse : Bool) (faultReg lat : BitVec 16) {k : ℕ}
    (hk : k < 13) :
    (faultLatches clearPulse faultReg lat).getLsbD k =
      (!clearPulse && (faultReg.getLsbD k || lat.getLsbD k)) := by
  unfold faultLatches
  rw [latchLoop_getLsbD _ _ _ _ 13 (by omega), if_pos hk]

/-! ## Registers and inputs at rest -/

/-- All registers low. -/
def restState : State where
  ovcFaultCnt1 := 0
  ovcFaultCnt2 := 0
  ovvFaultCnt := 0
  errFaultCnt1 := 0
  errFaultCnt2 := 0
  igndFaultCnt := 0
  dcctFaultCnt := 0
  fault1Cnt := 0
  fault2Cnt := 0
  fault3Cnt := 0
  onFaultCnt := 0
  faultReg := 0
  faultRegLat := 0
  faultRegLatMask := 0
  errorRegMask := 0
  dacSetpointRegNew := 0
  dacSetpointRegOld := 0
  dff0 := false
  dff1 := false
  tenKhzPulse := false
  re := false
  reReg := false
  clearPulse := false
  dacChangeFlag := false

/-- Every fault enabled, every threshold at its largest, every limit `lim`. -/
def restParams (lim : BitVec 16) : FaultParams where
  clear := false
  enable := 0xFFFF
  ovc1Thresh := 0x7FFFF
  ovc2Thresh := 0x7FFFF
  ovvThresh := 0x7FFF
  err1Thresh := 0x7FFF
  err2Thresh := 0x7FFF
  igndThresh := 0x7FFF
  ovc1Cntlim := lim
  ovc2Cntlim := lim
  ovvCntlim := lim
  err1Cntlim := lim
  err2Cntlim := lim
  igndCntlim := lim
  dcctCntlim := lim
  flt1Cntlim := lim
  flt2Cntlim := lim
  flt3Cntlim := lim
  onCntlim := lim

/-- A healthy supply that is off, with the limits `lim`. -/
def restInput (lim : BitVec 16) : Input where
  reset := false
  tenkhzTrig := false
  faultParams := restParams lim
  dcctAdcs := ⟨0, 0⟩
  monAdcs := ⟨0, 0, 0, 0, 0, 0⟩
  fault1 := false
  fault2 := false
  fault3 := false
  dcctFault := true
  acOnIn := false
  acOnOut := false
  park := false
  dacSetpoint := 0
  evrFltIn := false

end Psc.FaultBlock
