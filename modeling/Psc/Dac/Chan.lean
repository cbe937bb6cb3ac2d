import Psc.Dac.GainOffset
import Psc.Dac.Ramp

/-!
# A DAC channel

`dac_chan.vhd`: the mode selects the source of the raw setpoint at each 10 kHz tick, and
`dac_gainoffset` calibrates it. What is output is fed back to `smooth_ramp` as the present
setpoint, where a new ramp starts.

1. So a ramp starts from a calibrated value (`oldSetpt_eq`), and its points are calibrated again on
   their way out.
2. `no_bump_iff`: the output does not jump at the start of a ramp exactly if the calibration maps
   the present output to itself, up to one count (`SameUnits`). Away from the ends of the range
   that asks for `s * (gain - 1) = offset * gain`, with the gain in units of 2^20, within one count
   (`sameUnits_iff_of_inRange`).
-/

namespace Psc.Chan

open NumericStd Clocked GainOffset SmoothRamp

/-- The input ports, and the setpoint that the ramp table plays. -/
structure Input where
  reset : Bool
  tenkhzTrig : Bool
  dacNumbitsSel : Bool
  rampDacSetpt : BitVec 20
  fofbDacSetpt : BitVec 20
  dacCntrl : DacCntrl

/-- The registers. -/
structure State where
  dacSetptRaw : BitVec 20
  smooth : Core
  gainoff : GainOffset.State

/-- The source of the raw setpoint: 0 smooth ramp, 1 ramp table, 2 FOFB, 3 jump mode. -/
def source (i : Input) (smoothDacSetpt : BitVec 20) : BitVec 20 :=
  if i.dacCntrl.mode = 0 then smoothDacSetpt
  else if i.dacCntrl.mode = 1 then i.rampDacSetpt
  else if i.dacCntrl.mode = 2 then i.fofbDacSetpt
  else i.dacCntrl.setpoint

/-- One clock of the channel. -/
def step (cosine : BitVec 24 → BitVec 24) (c : State) (i : Input) : State where
  dacSetptRaw :=
    if i.reset then 0
    else if i.tenkhzTrig then source i c.smooth.regs.rampout
    else c.dacSetptRaw
  smooth := clock cosine c.smooth
    { reset := i.reset
      tenkhzTrig := i.tenkhzTrig
      mode := i.dacCntrl.mode
      curSetpt := c.gainoff.dacSetpt
      newSetpt := i.dacCntrl.setpoint
      phaseInc := i.dacCntrl.smoothPhaseinc }
  gainoff := GainOffset.step c.gainoff
    { reset := i.reset
      tenkhzTrig := i.tenkhzTrig
      numbitsSel := i.dacNumbitsSel
      dacSetptRaw := c.dacSetptRaw
      dacCntrl := i.dacCntrl }

/-- A steady state in smooth mode: nothing runs, and the output is the calibrated ramp value. -/
structure Settled (c : State) (i : Input) : Prop where
  mode : i.dacCntrl.mode = 0
  smooth : c.smooth.regs.state = .idle
  raw : c.dacSetptRaw = c.smooth.regs.rampout
  gainoff : c.gainoff.state = .idle
  dacSetpt : c.gainoff.dacSetpt =
    calibrate i.dacNumbitsSel c.dacSetptRaw i.dacCntrl.offset i.dacCntrl.gain

/-- A ramp starts from the output of the calibration. -/
theorem oldSetpt_eq (cosine : BitVec 24 → BitVec 24) {c : State} {i : Input}
    (hidle : c.smooth.regs.state = .idle)
    (hstart : (step cosine c i).smooth.regs.state = .runRamp) :
    (step cosine c i).smooth.regs.oldSetpt = c.gainoff.dacSetpt :=
  (started_of_starts hidle hstart).2.2.1

/-! ## The start of a ramp -/

/-- The calibration maps `s` to itself, up to one count. With the difference `s - offset` wrapped
to 20 bits and `r` the 20 bits left of the result: `r`, read with the sign of the difference, is
within one of `s`, or the result saturates at a limit that `s` is next to. -/
def SameUnits (numbitsSel : Bool) (s offset gain : ℤ) : Prop :=
  let o := s - offset - borrow (s - offset) * 2 ^ 20
  let r := residue s offset gain
  if numbitsSel then
    (0 ≤ o ∧ ((r < 2 ^ 19 ∧ |r - s| ≤ 1) ∨ (2 ^ 19 ≤ r ∧ 2 ^ 19 - 2 ≤ s))) ∨
    (o < 0 ∧ ((2 ^ 19 ≤ r ∧ |r - 2 ^ 20 - s| ≤ 1) ∨ (r < 2 ^ 19 ∧ s ≤ -2 ^ 19 + 1)))
  else
    (r < 2 ^ 17 ∧ |r - s| ≤ 1) ∨ (2 ^ 17 ≤ r ∧ r < 2 ^ 19 ∧ 2 ^ 17 - 2 ≤ s) ∨
    (2 ^ 20 - 2 ^ 17 ≤ r ∧ |r - 2 ^ 20 - s| ≤ 1) ∨
    (2 ^ 19 ≤ r ∧ r < 2 ^ 20 - 2 ^ 17 ∧ s ≤ -2 ^ 17 + 1)

theorem toInt_calibrate_false_bounds (raw offset : BitVec 20) (gain : BitVec 24) :
    -2 ^ 17 ≤ (calibrate false raw offset gain).toInt ∧
      (calibrate false raw offset gain).toInt ≤ 2 ^ 17 - 1 := by
  rw [toInt_calibrate_false]
  unfold clamp
  omega

/-- `SameUnits` says when calibrating an output again leaves it where it is. -/
theorem calibrate_near_iff (numbitsSel : Bool) (s offset : BitVec 20) (gain : BitVec 24)
    (hs : numbitsSel = false → -2 ^ 17 ≤ s.toInt ∧ s.toInt ≤ 2 ^ 17 - 1) :
    |(calibrate numbitsSel s offset gain).toInt - s.toInt| ≤ 1 ↔
      SameUnits numbitsSel s.toInt offset.toInt gain.toInt := by
  have hr0 : 0 ≤ residue s.toInt offset.toInt gain.toInt := Int.emod_nonneg _ (by norm_num)
  have hr1 : residue s.toInt offset.toInt gain.toInt < 2 ^ 20 := Int.emod_lt_of_pos _ (by norm_num)
  have h1 := BitVec.le_toInt s
  have h2 := @BitVec.toInt_lt _ s
  norm_num at h1 h2
  cases numbitsSel with
  | true =>
    rw [toInt_calibrate_true, toInt_scaled, toInt_sub_eq]
    unfold SameUnits
    simp only [if_true, abs_le]
    generalize residue s.toInt offset.toInt gain.toInt = r at *
    generalize s.toInt - offset.toInt - borrow (s.toInt - offset.toInt) * 2 ^ 20 = o
    generalize s.toInt = s at *
    norm_num at *
    split_ifs <;> omega
  | false =>
    obtain ⟨hlo, hhi⟩ := hs rfl
    rw [toInt_calibrate_false, toInt_scaled]
    unfold SameUnits clamp
    simp only [Bool.false_eq_true, if_false, abs_le]
    generalize residue s.toInt offset.toInt gain.toInt = r at *
    generalize s.toInt = s at *
    norm_num at *
    split_ifs <;> omega

/-- Where neither the difference nor the result leaves the range and the gain is positive, the
calibration must move `s` by less than its rounding. -/
theorem sameUnits_iff_of_inRange {s offset gain : ℤ} (hg : 0 < gain)
    (hd : -2 ^ 19 ≤ s - offset ∧ s - offset < 2 ^ 19)
    (hx : -2 ^ 19 ≤ exactValue s offset gain ∧ exactValue s offset gain < 2 ^ 19) :
    SameUnits true s offset gain ↔
      -2 ^ 20 ≤ s * (gain - 2 ^ 20) - offset * gain ∧
        s * (gain - 2 ^ 20) - offset * gain < 2 ^ 21 := by
  have hborrow : borrow (s - offset) = 0 := by
    unfold borrow
    rw [if_neg (by omega), if_neg (by omega)]
  have hexp : s * (gain - 2 ^ 20) - offset * gain = (s - offset) * gain - s * 2 ^ 20 := by ring
  have hpos : 0 ≤ s - offset → 0 ≤ (s - offset) * gain := fun h => mul_nonneg h hg.le
  have hneg : s - offset < 0 → (s - offset) * gain < 0 := fun h => mul_neg_of_neg_of_pos h hg
  unfold SameUnits residue
  rw [hborrow, hexp]
  unfold exactValue at *
  generalize (s - offset) * gain = p at *
  simp only [if_true, abs_le, zero_mul, sub_zero]
  norm_num at *
  omega

/-- **No bump.** When a ramp starts in a steady state, the calibrated value of its starting point is
within one count of what is output exactly if the calibration maps that output to itself. -/
theorem no_bump_iff (cosine : BitVec 24 → BitVec 24) (c : State) (i : Input) (hc : Settled c i)
    (hstart : (step cosine c i).smooth.regs.state = .runRamp) (g : GainOffset.State)
    (inp : ℕ → GainOffset.Input) (hg : g.state = .idle)
    (hinp : Converts inp i.dacNumbitsSel (step cosine c i).smooth.regs.oldSetpt i.dacCntrl.offset
      i.dacCntrl.gain) :
    |(run GainOffset.step g inp 12).dacSetpt.toInt - c.gainoff.dacSetpt.toInt| ≤ 1 ↔
      SameUnits i.dacNumbitsSel c.gainoff.dacSetpt.toInt i.dacCntrl.offset.toInt
        i.dacCntrl.gain.toInt := by
  obtain ⟨-, -, -, hdac⟩ := conversion hg hinp
  rw [hdac, oldSetpt_eq cosine hc.smooth hstart]
  apply calibrate_near_iff
  intro hsel
  rw [hc.dacSetpt, hsel]
  exact toInt_calibrate_false_bounds _ _ _

/-- The registers of a channel before reset. -/
def restChan : State := ⟨0, restCore, restState⟩

/-- Reset at clock 0, one tick at clock 1, and the setpoint 5000 from clock 14 on. -/
def stepAfterReset (offset : BitVec 20) (gain : BitVec 24) (n : ℕ) : Input where
  reset := n == 0
  tenkhzTrig := n == 1
  dacNumbitsSel := true
  rampDacSetpt := 0
  fofbDacSetpt := 0
  dacCntrl :=
    { cntrlOf offset gain with setpoint := if n < 14 then 0 else 5000, smoothPhaseinc := 1 }

/-- The channel before clock 14. -/
def chan14 (offset : BitVec 20) (gain : BitVec 24) : State :=
  run (step coarseCosine) restChan (stepAfterReset offset gain) 14

/-- With gain 1 and offset 0 the calibration is the identity, and there is no bump. -/
theorem no_bump_at_identity :
    |(run GainOffset.step restState (convertRun true (step coarseCosine (chan14 0 1048576)
        (stepAfterReset 0 1048576 14)).smooth.regs.oldSetpt 0 1048576) 12).dacSetpt.toInt -
      (chan14 0 1048576).gainoff.dacSetpt.toInt| ≤ 1 := by
  have hc : Settled (chan14 0 1048576) (stepAfterReset 0 1048576 14) :=
    ⟨by decide, by decide, by decide, by decide, by decide⟩
  refine (no_bump_iff coarseCosine _ _ hc (by decide) restState _ rfl
    (converts_convertRun _ _ _ _)).mpr ?_
  have hzero : (chan14 0 1048576).gainoff.dacSetpt.toInt = 0 := by decide
  have hoff : (stepAfterReset 0 1048576 14).dacCntrl.offset.toInt = 0 := by decide
  have hgain : (stepAfterReset 0 1048576 14).dacCntrl.gain.toInt = 2 ^ 20 := by decide
  rw [hzero, hoff, hgain]
  exact (sameUnits_iff_of_inRange (by norm_num) (by norm_num) (by norm_num [exactValue])).mpr
    (by norm_num)

/-- With gain 1 and offset 1000 the output before the ramp is -1000, and so is the value that
`smooth_ramp` latches; calibrated again, the ramp starts at -2000. -/
theorem bump_at_offset_1000 :
    Settled (chan14 1000 1048576) (stepAfterReset 1000 1048576 14) ∧
      (step coarseCosine (chan14 1000 1048576)
        (stepAfterReset 1000 1048576 14)).smooth.regs.state = .runRamp ∧
      (chan14 1000 1048576).gainoff.dacSetpt.toInt = -1000 ∧
      (run GainOffset.step restState (convertRun true (step coarseCosine (chan14 1000 1048576)
        (stepAfterReset 1000 1048576 14)).smooth.regs.oldSetpt 1000 1048576) 12).dacSetpt.toInt =
        -2000 := by
  refine ⟨⟨by decide, by decide, by decide, by decide, by decide⟩, by decide, by decide, ?_⟩
  obtain ⟨-, -, -, hdac⟩ := conversion (s := restState) rfl (converts_convertRun true
    (step coarseCosine (chan14 1000 1048576)
      (stepAfterReset 1000 1048576 14)).smooth.regs.oldSetpt 1000 1048576)
  rw [hdac]
  decide

end Psc.Chan
