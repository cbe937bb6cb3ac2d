import Psc.Lib.NumericStd
import Psc.Lib.Clocked
import Psc.Records

/-!
# DAC calibration

`dac_gainoffset.vhd`: at each 10 kHz tick the raw setpoint is turned into
`(raw - offset) * gain / 2^20`, one operation per clock.

1. The difference is taken at 20 bits, so it wraps.
2. The 44-bit product is exact; the result is its bits 39 to 20, so it wraps again.
3. Saturation is inferred from what is left: in 20-bit mode from the signs of the wrapped
   difference and of the wrapped result, in 18-bit mode from the wrapped result alone.

`conversion`: a conversion takes twelve clocks and leaves `calibrate` in `dac_setpt`.
`dacSetpt_eq_clamp_iff`: for which inputs that is the saturated exact value.
-/

namespace Psc.GainOffset

open NumericStd Clocked

/-- `state_type`. -/
inductive Phase where
  | idle | applyOffsets | applyGains | scale | checkForSat | multDly
  deriving DecidableEq

/-- The input ports. -/
structure Input where
  reset : Bool
  tenkhzTrig : Bool
  numbitsSel : Bool
  dacSetptRaw : BitVec 20
  dacCntrl : DacCntrl

/-- The registers. -/
structure State where
  state : Phase
  multdlycnt : BitVec 4
  dacSetptOc : BitVec 20
  dacSetptFs : BitVec 44
  sat : Bool
  dacSetpt : BitVec 20
  done : Bool
  deriving DecidableEq

/-! ## The datapath -/

/-- SCALE: bits 39 to 20 of the product. -/
def scaled (fs : BitVec 44) : BitVec 20 := fs.extractLsb' 20 20

/-- CHECKFORSAT: the limit that replaces `dac_setpt`, if any. -/
def saturation (numbitsSel : Bool) (oc dac : BitVec 20) : Option (BitVec 20) :=
  if numbitsSel then
    if dac.msb && !oc.msb then some (BitVec.ofInt 20 (2 ^ 19 - 1))
    else if !dac.msb && oc.msb then some (BitVec.ofInt 20 (-2 ^ 19))
    else none
  else
    if (BitVec.ofInt 20 131071).slt dac then some (BitVec.ofInt 20 131071)
    else if dac.slt (BitVec.ofInt 20 (-131072)) then some (BitVec.ofInt 20 (-131072))
    else none

/-- What a conversion leaves in `dac_setpt`. -/
def calibrate (numbitsSel : Bool) (raw offset : BitVec 20) (gain : BitVec 24) : BitVec 20 :=
  let oc := raw - offset
  let dac := scaled (mulFull oc gain)
  (saturation numbitsSel oc dac).getD dac

/-! ## The state machine -/

/-- One clock. `reset` holds the machine where it is and only takes `done` down. -/
def step (s : State) (i : Input) : State :=
  if i.reset then { s with done := false }
  else
    match s.state with
    | .idle =>
      { s with
        done := false
        sat := false
        state := if i.tenkhzTrig then .applyOffsets else .idle }
    | .applyOffsets =>
      { s with dacSetptOc := i.dacSetptRaw - i.dacCntrl.offset, state := .applyGains }
    | .applyGains =>
      { s with
        dacSetptFs := mulFull s.dacSetptOc i.dacCntrl.gain
        state := .scale
        multdlycnt := 0 }
    | .scale => { s with dacSetpt := scaled s.dacSetptFs, state := .checkForSat }
    | .checkForSat =>
      let lim := saturation i.numbitsSel s.dacSetptOc s.dacSetpt
      { s with sat := lim.isSome || s.sat, dacSetpt := lim.getD s.dacSetpt, state := .multDly }
    | .multDly =>
      if s.multdlycnt = 6 then { s with state := .idle, done := true }
      else { s with multdlycnt := s.multdlycnt + 1 }

/-- The inputs of one conversion: a tick at clock `0`, then the four operands held while the
machine works, with `reset` low. -/
structure Converts (inp : ℕ → Input) (numbitsSel : Bool) (raw offset : BitVec 20)
    (gain : BitVec 24) : Prop where
  start : (inp 0).tenkhzTrig = true
  reset : ∀ n < 12, (inp n).reset = false
  raw : ∀ n < 12, 0 < n → (inp n).dacSetptRaw = raw
  offset : ∀ n < 12, 0 < n → (inp n).dacCntrl.offset = offset
  gain : ∀ n < 12, 0 < n → (inp n).dacCntrl.gain = gain
  sel : ∀ n < 12, 0 < n → (inp n).numbitsSel = numbitsSel

section Conversion

variable {inp : ℕ → Input} {numbitsSel : Bool} {raw offset : BitVec 20} {gain : BitVec 24}
  {s : State}

/-- After the five working clocks the result stands in `dac_setpt`, with `done` low so far. -/
theorem run_datapath (hs : s.state = .idle) (h : Converts inp numbitsSel raw offset gain) :
    (∀ n < 6, 0 < n → (run step s inp n).done = false) ∧
      (run step s inp 5).state = .multDly ∧ (run step s inp 5).multdlycnt = 0 ∧
      (run step s inp 5).dacSetpt = calibrate numbitsSel raw offset gain := by
  have hr := h.reset
  have h1 : run step s inp 1 = { s with done := false, sat := false, state := .applyOffsets } := by
    rw [run_succ, run_zero, step, if_neg (by simp [hr 0 (by omega)]), hs, h.start]; rfl
  have h2 : run step s inp 2 = { run step s inp 1 with
      dacSetptOc := raw - offset, state := .applyGains } := by
    rw [run_succ, step, if_neg (by simp [hr 1 (by omega)]), h1,
      h.raw 1 (by omega) (by omega), h.offset 1 (by omega) (by omega)]
  have h3 : run step s inp 3 = { run step s inp 2 with
      dacSetptFs := mulFull (raw - offset) gain, state := .scale, multdlycnt := 0 } := by
    rw [run_succ, step, if_neg (by simp [hr 2 (by omega)]), h2,
      h.gain 2 (by omega) (by omega)]
  have h4 : run step s inp 4 = { run step s inp 3 with
      dacSetpt := scaled (mulFull (raw - offset) gain), state := .checkForSat } := by
    rw [run_succ, step, if_neg (by simp [hr 3 (by omega)]), h3]
  have h5 : run step s inp 5 = { run step s inp 4 with
      sat := (saturation numbitsSel (raw - offset) (run step s inp 4).dacSetpt).isSome || false
      dacSetpt := calibrate numbitsSel raw offset gain, state := .multDly } := by
    rw [run_succ, step, if_neg (by simp [hr 4 (by omega)]), h4, h3, h2, h1,
      h.sel 4 (by omega) (by omega)]
    rfl
  refine ⟨?_, by rw [h5], by rw [h5, h4, h3], by rw [h5]⟩
  intro n hn hpos
  interval_cases n
  · rw [h1]
  · rw [h2, h1]
  · rw [h3, h2, h1]
  · rw [h4, h3, h2, h1]
  · rw [h5, h4, h3, h2, h1]

theorem run_delay (hr : ∀ n < 7, (inp n).reset = false) (hs : s.state = .multDly)
    (hcnt : s.multdlycnt = 0) :
    ∀ n ≤ 6, run step s inp n = { s with multdlycnt := BitVec.ofNat 4 n } := by
  intro n hn
  have hcounts : ∀ n < (6 : BitVec 4).toNat, ∀ c ≠ 6,
      step { s with multdlycnt := c } (inp n) = { s with multdlycnt := c + 1 } := by
    intro n hn c hc
    rw [step, if_neg (by simp [hr n (by simp at hn; omega)])]
    dsimp only
    rw [hs]
    exact if_neg hc
  have hzero : s = { s with multdlycnt := 0 } := by rw [← hcnt]
  conv_lhs => rw [hzero]
  exact run_counter _ _ (fun c => { s with multdlycnt := c }) 6 hcounts hn

/-- **A conversion.** `done` stays low for eleven clocks and is up at the twelfth, with
`calibrate` in `dac_setpt` and the machine idle again. -/
theorem conversion (hs : s.state = .idle) (h : Converts inp numbitsSel raw offset gain) :
    (∀ n < 12, 0 < n → (run step s inp n).done = false) ∧
      (run step s inp 12).done = true ∧ (run step s inp 12).state = .idle ∧
      (run step s inp 12).dacSetpt = calibrate numbitsSel raw offset gain := by
  obtain ⟨hlow, hphase, hcnt, hdac⟩ := run_datapath hs h
  have hr : ∀ n < 7, (inp (5 + n)).reset = false := fun n hn => h.reset _ (by omega)
  have hdelay := run_delay hr hphase hcnt
  have hend : run step s inp 12 =
      { run step s inp 5 with multdlycnt := 6, state := .idle, done := true } := by
    rw [show 12 = 5 + 6 + 1 from rfl, run_succ, run_add, hdelay 6 (by omega), step,
      if_neg (by simp [h.reset 11 (by omega)]), hphase]
    rfl
  refine ⟨?_, by rw [hend], by rw [hend], by rw [hend]; exact hdac⟩
  intro n hn hpos
  by_cases hn6 : n < 6
  · exact hlow n hn6 hpos
  · obtain ⟨m, rfl⟩ : ∃ m, n = 5 + m := ⟨n - 5, by omega⟩
    rw [run_add, hdelay m (by omega)]
    exact hlow 5 (by omega) (by omega)

end Conversion

/-! ## The exact value -/

/-- The calibrated value in unbounded integers. -/
def exactValue (raw offset gain : ℤ) : ℤ := (raw - offset) * gain / 2 ^ 20

/-- How often the 20-bit difference `d` wraps. -/
def borrow (d : ℤ) : ℤ := if 2 ^ 19 ≤ d then 1 else if d < -2 ^ 19 then -1 else 0

/-- The exact result with the gain of the wrapped part taken out, modulo 2^20: the 20 bits that
the two wraps leave. -/
def residue (raw offset gain : ℤ) : ℤ :=
  (exactValue raw offset gain - borrow (raw - offset) * gain) % 2 ^ 20

/-- The operands for which the 20 bits that are left still tell the exact result.

In 20-bit mode the wrapped difference must have the sign of the exact result `x`; then `x` is
output when it is what the residue says, and a result on or past a rail when the residue lies on
the rail or shows the other sign. In 18-bit mode `x` is output when it is inside the range and is
what the residue says, and a result on or past a limit when the residue is too. -/
def Saturates (numbitsSel : Bool) (raw offset gain : ℤ) : Prop :=
  let d := raw - offset
  let x := exactValue raw offset gain
  let r := residue raw offset gain
  if numbitsSel then
    (0 ≤ d - borrow d * 2 ^ 20 ∧ 0 ≤ x ∧ (r = x ∨ (2 ^ 19 - 1 ≤ x ∧ 2 ^ 19 - 1 ≤ r))) ∨
    (d - borrow d * 2 ^ 20 < 0 ∧ x < 0 ∧ (r = x + 2 ^ 20 ∨ (x ≤ -2 ^ 19 ∧ r ≤ 2 ^ 19)))
  else
    (-2 ^ 17 < x ∧ x < 2 ^ 17 - 1 ∧ r = x % 2 ^ 20) ∨
    (2 ^ 17 - 1 ≤ x ∧ 2 ^ 17 - 1 ≤ r ∧ r < 2 ^ 19) ∨
    (x ≤ -2 ^ 17 ∧ 2 ^ 19 ≤ r ∧ r ≤ 2 ^ 20 - 2 ^ 17)

theorem bmod_eq_ite (x : ℤ) :
    x.bmod (2 ^ 20) = if x % 2 ^ 20 < 2 ^ 19 then x % 2 ^ 20 else x % 2 ^ 20 - 2 ^ 20 := by
  rw [Int.bmod_def]; norm_num

section Exact

variable (raw offset : BitVec 20) (gain : BitVec 24)

theorem toInt_sub_eq : (raw - offset).toInt =
    raw.toInt - offset.toInt - borrow (raw.toInt - offset.toInt) * 2 ^ 20 := by
  have h1 := BitVec.le_toInt raw
  have h2 := @BitVec.toInt_lt _ raw
  have h3 := BitVec.le_toInt offset
  have h4 := @BitVec.toInt_lt _ offset
  rw [BitVec.toInt_sub, bmod_eq_ite]
  unfold borrow
  norm_num at *
  split_ifs <;> omega

theorem toInt_scaled : (scaled (mulFull (raw - offset) gain)).toInt =
    if residue raw.toInt offset.toInt gain.toInt < 2 ^ 19
    then residue raw.toInt offset.toInt gain.toInt
    else residue raw.toInt offset.toInt gain.toInt - 2 ^ 20 := by
  have hprod := toInt_mulFull (raw - offset) gain (by decide) (by decide)
  have hshift : (mulFull (raw - offset) gain).toInt / 2 ^ 20 =
      exactValue raw.toInt offset.toInt gain.toInt -
        borrow (raw.toInt - offset.toInt) * gain.toInt := by
    unfold exactValue
    rw [hprod, toInt_sub_eq, sub_mul, mul_right_comm _ (2 ^ 20 : ℤ),
      Int.sub_mul_ediv_right _ _ (by norm_num)]
  unfold scaled
  rw [toInt_extractLsb'_eq_bmod _ _ _ (by omega), hshift, bmod_eq_ite]
  rfl

theorem toInt_calibrate_true : (calibrate true raw offset gain).toInt =
    if (scaled (mulFull (raw - offset) gain)).toInt < 0 ∧ 0 ≤ (raw - offset).toInt then 2 ^ 19 - 1
    else if 0 ≤ (scaled (mulFull (raw - offset) gain)).toInt ∧ (raw - offset).toInt < 0
    then -2 ^ 19
    else (scaled (mulFull (raw - offset) gain)).toInt := by
  unfold calibrate saturation
  simp only [BitVec.msb_eq_toInt, if_true, Bool.and_eq_true, Bool.not_eq_true',
    decide_eq_true_eq, decide_eq_false_iff_not, not_lt]
  split_ifs <;> simp

theorem toInt_calibrate_false : (calibrate false raw offset gain).toInt =
    clamp 18 (scaled (mulFull (raw - offset) gain)).toInt := by
  unfold calibrate saturation clamp
  simp only [BitVec.slt_iff_toInt_lt, Bool.false_eq_true, if_false]
  have hhi : (BitVec.ofInt 20 131071).toInt = 131071 := by decide
  have hlo : (BitVec.ofInt 20 (-131072)).toInt = -131072 := by decide
  rw [hhi, hlo]
  split_ifs with h1 h2
  · rw [Option.getD_some, hhi]; omega
  · rw [Option.getD_some, hlo]; omega
  · rw [Option.getD_none]; omega

/-- `calibrate` is the saturated exact value exactly on `Saturates`. -/
theorem toInt_calibrate_eq_clamp_iff (numbitsSel : Bool) :
    (calibrate numbitsSel raw offset gain).toInt =
        clamp (if numbitsSel then 20 else 18) (exactValue raw.toInt offset.toInt gain.toInt) ↔
      Saturates numbitsSel raw.toInt offset.toInt gain.toInt := by
  have hr0 : 0 ≤ residue raw.toInt offset.toInt gain.toInt := Int.emod_nonneg _ (by norm_num)
  have hr1 : residue raw.toInt offset.toInt gain.toInt < 2 ^ 20 :=
    Int.emod_lt_of_pos _ (by norm_num)
  cases numbitsSel with
  | true =>
    rw [toInt_calibrate_true, toInt_scaled, toInt_sub_eq]
    unfold Saturates clamp
    simp only [if_true]
    generalize residue raw.toInt offset.toInt gain.toInt = r at *
    generalize exactValue raw.toInt offset.toInt gain.toInt = x
    generalize raw.toInt - offset.toInt - borrow (raw.toInt - offset.toInt) * 2 ^ 20 = o
    norm_num at *
    split_ifs <;> omega
  | false =>
    rw [toInt_calibrate_false, toInt_scaled]
    unfold Saturates clamp
    simp only [Bool.false_eq_true, if_false]
    generalize residue raw.toInt offset.toInt gain.toInt = r at *
    generalize exactValue raw.toInt offset.toInt gain.toInt = x
    norm_num at *
    split_ifs <;> omega

end Exact

/-- **Saturation.** A conversion asserts `done` at its twelfth clock, and `dac_setpt` then holds
the exact value limited to the range of the DAC exactly when the operands are in `Saturates`. -/
theorem dacSetpt_eq_clamp_iff (s : State) (inp : ℕ → Input) (numbitsSel : Bool)
    (raw offset : BitVec 20) (gain : BitVec 24) (hs : s.state = .idle)
    (h : Converts inp numbitsSel raw offset gain) :
    (∀ n < 12, 0 < n → (run step s inp n).done = false) ∧ (run step s inp 12).done = true ∧
      ((run step s inp 12).dacSetpt.toInt =
          clamp (if numbitsSel then 20 else 18) (exactValue raw.toInt offset.toInt gain.toInt) ↔
        Saturates numbitsSel raw.toInt offset.toInt gain.toInt) := by
  obtain ⟨hlow, hdone, -, hdac⟩ := conversion hs h
  rw [hdac]
  exact ⟨hlow, hdone, toInt_calibrate_eq_clamp_iff raw offset gain numbitsSel⟩

/-- The registers at configuration. -/
def restState : State := ⟨.idle, 0, 0, 0, false, 0, false⟩

/-- The control record with the calibration `offset` and `gain`. -/
def cntrlOf (offset : BitVec 20) (gain : BitVec 24) : DacCntrl :=
  ⟨0, false, 0, gain, offset, 0, 0, 0, 0, false, false, 0⟩

/-- A tick on every twelfth clock, with the operands held. -/
def convertRun (numbitsSel : Bool) (raw offset : BitVec 20) (gain : BitVec 24) (n : ℕ) : Input :=
  ⟨false, decide (n % 12 = 0), numbitsSel, raw, cntrlOf offset gain⟩

theorem converts_convertRun (numbitsSel : Bool) (raw offset : BitVec 20) (gain : BitVec 24) :
    Converts (convertRun numbitsSel raw offset gain) numbitsSel raw offset gain :=
  ⟨rfl, fun _ _ => rfl, fun _ _ _ => rfl, fun _ _ _ => rfl, fun _ _ _ => rfl, fun _ _ _ => rfl⟩

/-- Gain 1.5 at 500000 counts: the result is past the positive rail and saturates. -/
theorem dacSetpt_saturates_at_gain_1_5 :
    (run step restState (convertRun true 500000 0 1572864) 12).dacSetpt.toInt = 2 ^ 19 - 1 := by
  have h := (dacSetpt_eq_clamp_iff restState (convertRun true 500000 0 1572864) true 500000 0
    1572864 rfl (converts_convertRun _ _ _ _)).2.2
  refine (h.mpr ?_).trans (by decide)
  left
  decide

/-- Gain 2.5 at 500000 counts: the exact result 1250000 is past the positive rail, but bits 39 to
20 of the product show the positive number 201424, and that is output. -/
theorem dacSetpt_wraps_at_gain_2_5 :
    (run step restState (convertRun true 500000 0 2621440) 12).done = true ∧
      (run step restState (convertRun true 500000 0 2621440) 12).dacSetpt.toInt = 201424 ∧
      clamp 20 (exactValue (500000 : BitVec 20).toInt (0 : BitVec 20).toInt
        (2621440 : BitVec 24).toInt) = 524287 := by
  refine ⟨by decide, by decide, by decide⟩

end Psc.GainOffset
