import Psc.Dac.Ramp

/-!
# Setpoint commands

`control.c`: a setpoint in amps is limited, converted to DAC counts and, in smooth mode, turned
into two register writes, the phase increment and then the setpoint that starts the ramp. Floats
are read as exact rationals; a conversion to an integer type truncates and is defined only where
the result fits.

1. `num_samples` is the duration of the ramp at the configured rate, in ticks, rounded down.
2. The increment is the constant that the fabric counts through, divided by it and rounded down
   again. So a ramp shorter than one tick divides by zero, and one longer than that constant is
   given the increment zero, which never ends.

`slewHonoured_iff`: between the two, the ramp ends and has more ticks than the rate asks for.
-/

namespace Psc.Control

open Clocked SmoothRamp

/-- The registers of a channel that setpoint commands write. -/
inductive Reg where
  | dacSetpt | dacOpmode | smoothPhaseinc
  deriving DecidableEq

/-- `Xil_Out32`. -/
structure Write where
  reg : Reg
  data : BitVec 32
  deriving DecidableEq

/-- What has no result in C: a division by zero, and a float that does not fit the integer type. -/
inductive Trap where
  | divisionByZero | conversion
  deriving DecidableEq

/-- The fields of `scalefactors[chan-1]` that setpoint commands use. -/
structure ScaleFactors where
  ampspersec : ℚ
  dacDccts : ℚ

/-- `SAMPLERATE`. -/
def sampleRate : ℚ := 10000

/-- `CORDIC_INIT_PHASE`. -/
def cordicInitPhase : ℕ := 421657300

/-- `(u32) x`. -/
def toU32 (x : ℚ) : Except Trap ℕ :=
  if -1 < x ∧ x < 2 ^ 32 then .ok ⌊x⌋.toNat else .error .conversion

/-- `(s32) x`. -/
def toS32 (x : ℚ) : Except Trap (BitVec 32) :=
  if -2 ^ 31 - 1 < x ∧ x < 2 ^ 31 then .ok (BitVec.ofInt 32 (if 0 ≤ x then ⌊x⌋ else ⌈x⌉))
  else .error .conversion

/-- `ramp_rate`, in counts per second; `conv` is `CONVVOLTSTODACBITS`. -/
def rampRate (sf : ScaleFactors) (conv : ℚ) : ℚ := sf.ampspersec / sf.dacDccts * conv

/-- `abs(new_setpt - cur_setpt)`. -/
def distance (curSetpt newSetpt : BitVec 32) : ℕ := (newSetpt - curSetpt).toInt.natAbs

/-- `num_samples`. -/
def numSamples (sf : ScaleFactors) (conv : ℚ) (curSetpt newSetpt : BitVec 32) : Except Trap ℕ :=
  toU32 (distance curSetpt newSetpt / rampRate sf conv * sampleRate)

/-- `CORDIC_INIT_PHASE / num_samples`, in `u32`. -/
def phaseIncOf (numSamples : ℕ) : Except Trap ℕ :=
  if numSamples = 0 then .error .divisionByZero else .ok (cordicInitPhase / numSamples)

/-- `Calc_WriteSmooth`: the writes it makes, given the setpoint it reads back. -/
def calcWriteSmooth (sf : ScaleFactors) (conv : ℚ) (curSetpt newSetpt : BitVec 32) :
    Except Trap (List Write) := do
  let n ← numSamples sf conv curSetpt newSetpt
  let inc ← phaseIncOf n
  return [⟨.smoothPhaseinc, BitVec.ofNat 32 inc⟩, ⟨.dacSetpt, newSetpt⟩]

/-- `Set_dac`: the setpoint limited to the range of the DAC, then handled as the mode asks. -/
def setDac (sf : ScaleFactors) (conv : ℚ) (dacMode : BitVec 2) (curSetpt : BitVec 32)
    (newSetptAmps : ℚ) : Except Trap (List Write) := do
  let amps :=
    if 99999 / 10000 * sf.dacDccts < newSetptAmps then 99999 / 10000 * sf.dacDccts
    else if newSetptAmps < -10 * sf.dacDccts then -10 * sf.dacDccts
    else newSetptAmps
  let newSetpt ← toS32 (amps * conv / sf.dacDccts)
  if dacMode = 0 then calcWriteSmooth sf conv curSetpt newSetpt
  else if dacMode = 3 then return [⟨.dacSetpt, newSetpt⟩]
  else return []

theorem toInt_toS32 {x : ℚ} {v : BitVec 32} (h : toS32 x = .ok v) :
    v.toInt = if 0 ≤ x then ⌊x⌋ else ⌈x⌉ := by
  unfold toS32 at h
  split_ifs at h with hfit h0
  · obtain rfl := Except.ok.inj h
    have hnn : 0 ≤ ⌊x⌋ := Int.floor_nonneg.mpr h0
    have hlt : ⌊x⌋ < 2 ^ 31 := Int.floor_lt.mpr (by exact_mod_cast hfit.2)
    rw [if_pos h0, BitVec.toInt_ofInt, Int.bmod_eq_of_le_mul_two]
    · norm_num at *; omega
    · norm_num at *; omega
  · obtain rfl := Except.ok.inj h
    have hnp : ⌈x⌉ ≤ 0 := Int.ceil_nonpos.mpr (not_le.mp h0).le
    have hgt : -2 ^ 31 - 1 < ⌈x⌉ := Int.lt_ceil.mpr (by exact_mod_cast hfit.1)
    rw [if_neg h0, BitVec.toInt_ofInt, Int.bmod_eq_of_le_mul_two]
    · norm_num at *; omega
    · norm_num at *; omega

/-! ## The slew rate -/

theorem distance_signExtend (cur new : BitVec 20) :
    (distance (cur.signExtend 32) (new.signExtend 32) : ℤ) = |new.toInt - cur.toInt| := by
  have h1 := BitVec.le_toInt cur
  have h2 := @BitVec.toInt_lt _ cur
  have h3 := BitVec.le_toInt new
  have h4 := @BitVec.toInt_lt _ new
  unfold distance
  rw [Int.natCast_natAbs, BitVec.toInt_sub, BitVec.toInt_signExtend_of_le (by norm_num),
    BitVec.toInt_signExtend_of_le (by norm_num), Int.bmod_eq_of_le_mul_two]
  · norm_num at *; omega
  · norm_num at *; omega

/-- The rate is honoured: the command divides by nothing that is zero and writes an increment of
at least 1, and each ramp run with it ends, after `num_samples` ticks or more and with no more than
the configured counts per second. -/
def SlewHonoured (sf : ScaleFactors) (conv : ℚ) (cur new : BitVec 20) : Prop :=
  ∃ (n : ℕ) (inc : BitVec 32),
    numSamples sf conv (cur.signExtend 32) (new.signExtend 32) = .ok n ∧
    calcWriteSmooth sf conv (cur.signExtend 32) (new.signExtend 32) =
      .ok [⟨.smoothPhaseinc, inc⟩, ⟨.dacSetpt, new.signExtend 32⟩] ∧
    1 ≤ inc.toInt ∧
    ∀ cosine x₀ inp t, Ramp cosine x₀ inp t inc → (∀ m, ∃ v, m ≤ v ∧ trig inp v = true) →
      (∀ v, t < v → (inp v).reset = false) →
      ∃ e, RampTick (run (clock cosine) x₀ inp) inp t e ∧
        (run (clock cosine) x₀ inp (e + 1)).regs.state = .idle ∧
        n ≤ rampTicks inp t (e + 1) ∧
        (|new.toInt - cur.toInt| : ℚ) * sampleRate ≤ rampRate sf conv * rampTicks inp t (e + 1)

theorem le_wholeSteps {n : ℕ} (h0 : 0 < n) (hn : n ≤ cordicInitPhase) :
    1 ≤ (BitVec.ofNat 32 (cordicInitPhase / n)).toInt ∧
      n ≤ wholeSteps (BitVec.ofNat 32 (cordicInitPhase / n)) := by
  have hle : cordicInitPhase / n ≤ cordicInitPhase := Nat.div_le_self _ _
  have hpos : 0 < cordicInitPhase / n := Nat.div_pos hn h0
  have hint : (BitVec.ofNat 32 (cordicInitPhase / n)).toInt = (cordicInitPhase / n : ℕ) := by
    generalize cordicInitPhase / n = q at hle
    unfold cordicInitPhase at hle
    rw [BitVec.toInt_ofNat', Int.bmod_eq_of_le_mul_two]
    · push_cast; omega
    · push_cast; omega
  constructor
  · rw [hint]; omega
  · have hmul : n * (cordicInitPhase / n) ≤ cordicInitPhase := Nat.mul_div_le _ _
    have hdiv : n ≤ cordicInitPhase / (cordicInitPhase / n) := (Nat.le_div_iff_mul_le hpos).mpr hmul
    unfold wholeSteps
    rw [hint, show piWord = ((cordicInitPhase : ℕ) : ℤ) from rfl, ← Int.natCast_ediv,
      Int.toNat_natCast]
    exact hdiv

section Slew

variable {sf : ScaleFactors} {conv : ℚ} (cur new : BitVec 20)

theorem toU32_eq_ok_iff {x : ℚ} (hx : 0 ≤ x) {n : ℕ} :
    toU32 x = .ok n ↔ n ≤ x ∧ x < n + 1 ∧ n < 2 ^ 32 := by
  unfold toU32
  rw [Int.floor_toNat]
  split_ifs with h
  · rw [Except.ok.injEq, Nat.floor_eq_iff hx]
    constructor
    · rintro ⟨hlo, hhi⟩
      refine ⟨hlo, hhi, ?_⟩
      have : (n : ℚ) < 2 ^ 32 := hlo.trans_lt h.2
      exact_mod_cast this
    · rintro ⟨hlo, hhi, -⟩
      exact ⟨hlo, hhi⟩
  · constructor
    · intro hne
      exact absurd hne (by simp)
    · rintro ⟨hlo, hhi, hn⟩
      have hle : (n : ℚ) + 1 ≤ 2 ^ 32 := by exact_mod_cast hn
      exact absurd ⟨by linarith, by linarith⟩ h

theorem numSamples_eq_ok_iff (hrate : 0 < rampRate sf conv) {n : ℕ} :
    numSamples sf conv (cur.signExtend 32) (new.signExtend 32) = .ok n ↔
      n * rampRate sf conv ≤ |(new.toInt - cur.toInt : ℚ)| * sampleRate ∧
        |(new.toInt - cur.toInt : ℚ)| * sampleRate < (n + 1) * rampRate sf conv ∧ n < 2 ^ 32 := by
  have hdist : (distance (cur.signExtend 32) (new.signExtend 32) : ℚ) =
      |(new.toInt - cur.toInt : ℚ)| := by
    exact_mod_cast congrArg (Int.cast (R := ℚ)) (distance_signExtend cur new)
  unfold numSamples
  rw [hdist, div_mul_eq_mul_div, toU32_eq_ok_iff
    (div_nonneg (mul_nonneg (abs_nonneg _) (by norm_num [sampleRate])) hrate.le),
    le_div_iff₀ hrate, div_lt_iff₀ hrate]

theorem calcWriteSmooth_eq {n : ℕ}
    (h : numSamples sf conv (cur.signExtend 32) (new.signExtend 32) = .ok n) :
    calcWriteSmooth sf conv (cur.signExtend 32) (new.signExtend 32) =
      if n = 0 then .error .divisionByZero
      else .ok [⟨.smoothPhaseinc, BitVec.ofNat 32 (cordicInitPhase / n)⟩,
        ⟨.dacSetpt, new.signExtend 32⟩] := by
  unfold calcWriteSmooth phaseIncOf
  rw [h]
  split_ifs with h0
  · simp [h0, bind, Except.bind]
  · simp [h0, bind, Except.bind, pure, Except.pure]

theorem SlewHonoured.exists_samples (h : SlewHonoured sf conv cur new) :
    ∃ n, numSamples sf conv (cur.signExtend 32) (new.signExtend 32) = .ok n ∧ n ≠ 0 ∧
      n ≤ cordicInitPhase := by
  obtain ⟨n, inc, hn, hwrite, hinc, -⟩ := h
  rw [calcWriteSmooth_eq cur new hn] at hwrite
  have h0 : n ≠ 0 := by
    rintro rfl
    simp at hwrite
  rw [if_neg h0, Except.ok.injEq] at hwrite
  obtain rfl : BitVec.ofNat 32 (cordicInitPhase / n) = inc := by simpa using hwrite
  refine ⟨n, hn, h0, ?_⟩
  by_contra hgt
  rw [Nat.div_eq_of_lt (by omega)] at hinc
  simp at hinc

theorem slewHonoured_of_samples (hrate : 0 < rampRate sf conv) {n : ℕ}
    (hn : numSamples sf conv (cur.signExtend 32) (new.signExtend 32) = .ok n) (h0 : n ≠ 0)
    (hmax : n ≤ cordicInitPhase) : SlewHonoured sf conv cur new := by
  obtain ⟨-, hup, -⟩ := (numSamples_eq_ok_iff cur new hrate).mp hn
  obtain ⟨hinc, hsteps⟩ := le_wholeSteps (Nat.pos_of_ne_zero h0) hmax
  refine ⟨n, _, hn, ?_, hinc, ?_⟩
  · rw [calcWriteSmooth_eq cur new hn, if_neg h0]
  · intro cosine x₀ inp t h hlive hr
    obtain ⟨e, he, hidle⟩ := h.exists_last hinc hlive hr
    have hlast := h.rampTicks_last hinc he hidle
    refine ⟨e, he, hidle, by omega, hup.le.trans ?_⟩
    have hticks : (n : ℚ) + 1 ≤ rampTicks inp t (e + 1) := by
      rw [hlast]
      exact_mod_cast (by omega : n + 1 ≤ wholeSteps _ + 3)
    rw [mul_comm (rampRate sf conv)]
    exact mul_le_mul_of_nonneg_right hticks hrate.le

theorem exists_numSamples (hrate : 0 < rampRate sf conv)
    (hmax : |(new.toInt - cur.toInt : ℚ)| * sampleRate < (421657300 + 1) * rampRate sf conv) :
    ∃ n, numSamples sf conv (cur.signExtend 32) (new.signExtend 32) = .ok n ∧
      n ≤ cordicInitPhase := by
  have hnn : 0 ≤ |(new.toInt - cur.toInt : ℚ)| * sampleRate / rampRate sf conv :=
    div_nonneg (mul_nonneg (abs_nonneg _) (by norm_num [sampleRate])) hrate.le
  obtain ⟨hlow, hup⟩ := (Nat.floor_eq_iff hnn).mp rfl
  rw [le_div_iff₀ hrate] at hlow
  rw [div_lt_iff₀ hrate] at hup
  have hle : ⌊|(new.toInt - cur.toInt : ℚ)| * sampleRate / rampRate sf conv⌋₊ ≤
      cordicInitPhase := by
    have hlt := lt_of_mul_lt_mul_right (hlow.trans_lt hmax) hrate.le
    exact Nat.lt_succ_iff.mp (by exact_mod_cast hlt)
  refine ⟨_, (numSamples_eq_ok_iff cur new hrate).mpr ⟨hlow, hup, ?_⟩, hle⟩
  exact hle.trans_lt (by norm_num [cordicInitPhase])

end Slew

/-- **The slew rate.** A smooth setpoint command honours the configured rate exactly if the ramp
lasts for at least one tick and for no more ticks than there are phase counts. -/
theorem slewHonoured_iff (sf : ScaleFactors) (conv : ℚ) (cur new : BitVec 20)
    (hamps : 0 < sf.ampspersec) (hdccts : 0 < sf.dacDccts) (hconv : 0 < conv) :
    SlewHonoured sf conv cur new ↔
      rampRate sf conv ≤ |(new.toInt - cur.toInt : ℚ)| * sampleRate ∧
        |(new.toInt - cur.toInt : ℚ)| * sampleRate < (421657300 + 1) * rampRate sf conv := by
  have hrate : 0 < rampRate sf conv := mul_pos (div_pos hamps hdccts) hconv
  constructor
  · intro h
    obtain ⟨n, hn, h0, hmax⟩ := h.exists_samples
    obtain ⟨hlow, hup, -⟩ := (numSamples_eq_ok_iff cur new hrate).mp hn
    have hn1 : (1 : ℚ) ≤ n := by exact_mod_cast Nat.one_le_iff_ne_zero.mpr h0
    have hnP : (n : ℚ) ≤ 421657300 := by exact_mod_cast hmax
    refine ⟨le_trans ?_ hlow, hup.trans_le ?_⟩
    · nlinarith
    · nlinarith
  · rintro ⟨hlow, hup⟩
    obtain ⟨n, hn, hmax⟩ := exists_numSamples cur new hrate hup
    refine slewHonoured_of_samples cur new hrate hn ?_ hmax
    -- less than one tick is no sample
    rintro rfl
    have hless := ((numSamples_eq_ok_iff cur new hrate).mp hn).2.1
    rw [Nat.cast_zero, zero_add, one_mul] at hless
    exact absurd hless (not_lt.mpr hlow)

/-- A step of 100000 counts of a 20-bit DAC at 1 V/s. -/
theorem slew_honoured_at_one_volt :
    SlewHonoured ⟨1, 1⟩ (524288 / 10) 0 100000 := by
  refine (slewHonoured_iff ⟨1, 1⟩ (524288 / 10) 0 100000 (by norm_num) (by norm_num)
    (by norm_num)).mpr ?_
  have hcur : (0 : BitVec 20).toInt = 0 := by decide
  have hnew : (100000 : BitVec 20).toInt = 100000 := by decide
  rw [hcur, hnew]
  norm_num [rampRate, sampleRate]

/-- A setpoint equal to the present one has no samples, and the command divides by zero. -/
theorem same_setpt_divides_by_zero :
    calcWriteSmooth ⟨1, 1⟩ (524288 / 10) ((1000 : BitVec 20).signExtend 32)
        ((1000 : BitVec 20).signExtend 32) = .error .divisionByZero ∧
      ¬SlewHonoured ⟨1, 1⟩ (524288 / 10) 1000 1000 := by
  have hrate : 0 < rampRate ⟨1, 1⟩ (524288 / 10) := by norm_num [rampRate]
  have hzero : numSamples ⟨1, 1⟩ (524288 / 10) ((1000 : BitVec 20).signExtend 32)
      ((1000 : BitVec 20).signExtend 32) = .ok 0 := by
    rw [numSamples_eq_ok_iff _ _ hrate]
    norm_num [rampRate, sampleRate]
  have herr := calcWriteSmooth_eq 1000 1000 hzero
  rw [if_pos rfl] at herr
  refine ⟨herr, ?_⟩
  rintro ⟨n, inc, -, hok, -⟩
  rw [herr] at hok
  exact absurd hok (by simp)

end Psc.Control
