import Psc.Control.Flavor

/-!
# The limits of a setpoint

`Set_dac` limits the current to 9.9999 and -10 times the scale factor, and then divides by the scale
factor. With a positive factor that is a limit on the volts, from -10 to 9.9999. With a negative one
both comparisons point the other way: a request below the upper limit, in volts, is replaced by
that limit, and one above it by the lower limit (`limitAmps_div_of_neg`).

`setsClamped_iff`: for which requests the setpoint written is the clamped one.
-/

namespace Psc.Control

/-- `CONVVOLTSTODACBITS` at a resolution. -/
def dacConv (hs : Bool) : ℚ := if hs then convVoltsTo20Bits else convVoltsTo18Bits

/-- The range of the DAC in volts. -/
def limitVolts (volts : ℚ) : ℚ := max (-10) (min volts (99999 / 10000))

/-- The current as `Set_dac` limits it. -/
def limitAmps (dacDccts amps : ℚ) : ℚ :=
  if 99999 / 10000 * dacDccts < amps then 99999 / 10000 * dacDccts
  else if amps < -10 * dacDccts then -10 * dacDccts
  else amps

/-- The setpoint written in smooth and in jump mode is the truncation of the clamped request. It
fits the DAC, and a request in the range is not clamped. In jump mode the setpoint is always
written, in smooth mode if the samples of the ramp to it can be counted and give an increment. -/
def SetsClamped (hs : Bool) (sf : ScaleFactors) (amps : ℚ) : Prop :=
  ∃ v, toS32 (limitVolts (amps / sf.dacDccts) * dacConv hs) = .ok v ∧
    (∀ cur, setDac sf (dacConv hs) 3 cur amps = .ok [⟨.dacSetpt, v⟩]) ∧
    (∀ cur n inc, numSamples sf (dacConv hs) cur v = .ok n → phaseIncOf n = .ok inc →
      setDac sf (dacConv hs) 0 cur amps =
        .ok [⟨.smoothPhaseinc, BitVec.ofNat 32 inc⟩, ⟨.dacSetpt, v⟩]) ∧
    (∀ mode, mode = 0 ∨ mode = 3 → ∀ cur ws, setDac sf (dacConv hs) mode cur amps = .ok ws →
      ws.filter (·.reg = .dacSetpt) = [⟨.dacSetpt, v⟩]) ∧
    (if hs then -2 ^ 19 ≤ v.toInt ∧ v.toInt < 2 ^ 19 else -2 ^ 17 ≤ v.toInt ∧ v.toInt < 2 ^ 17) ∧
    (-10 ≤ amps / sf.dacDccts → amps / sf.dacDccts ≤ 99999 / 10000 →
      toS32 (amps / sf.dacDccts * dacConv hs) = .ok v)

/-! ## The volts -/

section Volts

variable {sf amps : ℚ}

theorem limitAmps_div_of_pos (h : 0 < sf) : limitAmps sf amps / sf = limitVolts (amps / sf) := by
  have hhi : 99999 / 10000 * sf < amps ↔ 99999 / 10000 < amps / sf := (lt_div_iff₀ h).symm
  have hlo : amps < -10 * sf ↔ amps / sf < -10 := (div_lt_iff₀ h).symm
  unfold limitAmps limitVolts
  simp only [hhi, hlo]
  split_ifs with h1 h2
  · rw [mul_div_cancel_right₀ _ h.ne', min_eq_right h1.le, max_eq_right (by norm_num)]
  · rw [mul_div_cancel_right₀ _ h.ne', min_eq_left (not_lt.mp h1), max_eq_left h2.le]
  · rw [min_eq_left (not_lt.mp h1), max_eq_right (not_lt.mp h2)]

/-- With a negative factor every request is replaced by a limit, the other one if it is high. -/
theorem limitAmps_div_of_neg (h : sf < 0) :
    limitAmps sf amps / sf = if amps / sf < 99999 / 10000 then 99999 / 10000 else -10 := by
  have hhi : 99999 / 10000 * sf < amps ↔ amps / sf < 99999 / 10000 := (div_lt_iff_of_neg h).symm
  have hlo : amps < -10 * sf ↔ -10 < amps / sf := (lt_div_iff_of_neg h).symm
  unfold limitAmps
  simp only [hhi, hlo]
  split_ifs with h1 h2
  · exact mul_div_cancel_right₀ _ h.ne
  · exact mul_div_cancel_right₀ _ h.ne
  · exact absurd ((by norm_num : (-10 : ℚ) < 99999 / 10000).trans_le (not_lt.mp h1)) h2

theorem limitVolts_bounds (volts : ℚ) :
    -10 ≤ limitVolts volts ∧ limitVolts volts ≤ 99999 / 10000 := by
  unfold limitVolts
  exact ⟨le_max_left _ _, max_le (by norm_num) (min_le_right _ _)⟩

theorem dacConv_bounds (hs : Bool) : 13107 < dacConv hs ∧ dacConv hs ≤ 524288 / 10 := by
  cases hs with
  | true => norm_num [dacConv, convVoltsTo20Bits]
  | false => norm_num [dacConv, convVoltsTo18Bits]

end Volts

/-! ## The setpoint -/

theorem exists_toS32 {x : ℚ} (hlo : -2 ^ 31 - 1 < x) (hhi : x < 2 ^ 31) : ∃ v, toS32 x = .ok v :=
  ⟨_, if_pos ⟨hlo, hhi⟩⟩

theorem exists_setpt (hs : Bool) {volts : ℚ} (hlo : -10 ≤ volts) (hhi : volts ≤ 99999 / 10000) :
    ∃ v, toS32 (volts * dacConv hs) = .ok v := by
  obtain ⟨hc0, hc1⟩ := dacConv_bounds hs
  have h1 : -10 * dacConv hs ≤ volts * dacConv hs := mul_le_mul_of_nonneg_right hlo (by linarith)
  have h2 : volts * dacConv hs ≤ 99999 / 10000 * dacConv hs :=
    mul_le_mul_of_nonneg_right hhi (by linarith)
  exact exists_toS32 (by linarith) (by linarith)

theorem toInt_mem_of_toS32 {x : ℚ} {v : BitVec 32} {lo hi : ℤ} (hv : toS32 x = .ok v)
    (h0 : 0 < hi) (hlo : (lo : ℚ) ≤ x) (hhi : x < hi) : lo ≤ v.toInt ∧ v.toInt < hi := by
  rw [toInt_toS32 hv]
  split_ifs with hx
  · exact ⟨Int.le_floor.mpr hlo, Int.floor_lt.mpr hhi⟩
  · refine ⟨?_, (Int.ceil_nonpos.mpr (not_le.mp hx).le).trans_lt h0⟩
    exact_mod_cast hlo.trans (Int.le_ceil x)

theorem setpt_fits (hs : Bool) {volts : ℚ} {v : BitVec 32} (hlo : -10 ≤ volts)
    (hhi : volts ≤ 99999 / 10000) (hv : toS32 (volts * dacConv hs) = .ok v) :
    if hs then -2 ^ 19 ≤ v.toInt ∧ v.toInt < 2 ^ 19 else -2 ^ 17 ≤ v.toInt ∧ v.toInt < 2 ^ 17 := by
  cases hs with
  | true =>
    refine toInt_mem_of_toS32 hv (by norm_num) ?_ ?_
    · norm_num [dacConv, convVoltsTo20Bits]; linarith
    · norm_num [dacConv, convVoltsTo20Bits]; linarith
  | false =>
    refine toInt_mem_of_toS32 hv (by norm_num) ?_ ?_
    · norm_num [dacConv, convVoltsTo18Bits]; linarith
    · norm_num [dacConv, convVoltsTo18Bits]; linarith

section Command

variable {sf : ScaleFactors} {conv amps : ℚ} {w : BitVec 32}

theorem setDac_eq (hw : toS32 (limitAmps sf.dacDccts amps / sf.dacDccts * conv) = .ok w)
    (mode : BitVec 2) (cur : BitVec 32) : setDac sf conv mode cur amps =
      if mode = 0 then calcWriteSmooth sf conv cur w
      else if mode = 3 then .ok [⟨.dacSetpt, w⟩] else .ok [] := by
  show (toS32 (limitAmps sf.dacDccts amps * conv / sf.dacDccts) >>= _) = _
  rw [mul_div_right_comm, hw]
  rfl

theorem setDac_smooth (hw : toS32 (limitAmps sf.dacDccts amps / sf.dacDccts * conv) = .ok w)
    {cur : BitVec 32} {n inc : ℕ} (hn : numSamples sf conv cur w = .ok n)
    (hinc : phaseIncOf n = .ok inc) : setDac sf conv 0 cur amps =
      .ok [⟨.smoothPhaseinc, BitVec.ofNat 32 inc⟩, ⟨.dacSetpt, w⟩] := by
  rw [setDac_eq hw, if_pos rfl, calcWriteSmooth, hn]
  show (phaseIncOf n >>= _) = _
  rw [hinc]
  rfl

/-- `Set_dac` writes one setpoint, that of the limited current. -/
theorem setDac_writes (hw : toS32 (limitAmps sf.dacDccts amps / sf.dacDccts * conv) = .ok w)
    {mode : BitVec 2} (hmode : mode = 0 ∨ mode = 3) {cur : BitVec 32} {ws : List Write}
    (hws : setDac sf conv mode cur amps = .ok ws) :
    ws.filter (·.reg = .dacSetpt) = [⟨.dacSetpt, w⟩] := by
  rw [setDac_eq hw] at hws
  rcases hmode with rfl | rfl
  · rw [if_pos rfl, calcWriteSmooth] at hws
    cases hn : numSamples sf conv cur w with
    | error e => rw [hn] at hws; cases hws
    | ok n =>
      rw [hn] at hws
      cases hinc : phaseIncOf n with
      | error e => simp [hinc, bind, Except.bind] at hws
      | ok inc =>
        simp only [hinc, bind, Except.bind, pure, Except.pure, Except.ok.injEq] at hws
        subst hws
        rfl
  · rw [if_neg (by decide), if_pos rfl, Except.ok.injEq] at hws
    subst hws
    rfl

end Command

/-- The upper limit has the setpoint of the volts `q` below it if the two differ by less than a
count. -/
theorem setpt_eq_upper_iff (hs : Bool) {q : ℚ} {v w : BitVec 32} (hq : q < 99999 / 10000)
    (hv : toS32 (limitVolts q * dacConv hs) = .ok v)
    (hw : toS32 (99999 / 10000 * dacConv hs) = .ok w) :
    w = v ↔ (⌊99999 / 10000 * dacConv hs⌋ : ℚ) ≤ q * dacConv hs := by
  obtain ⟨hc0, -⟩ := dacConv_bounds hs
  have hpos : (0 : ℚ) ≤ 99999 / 10000 * dacConv hs := by positivity
  have hfloor : (1 : ℤ) ≤ ⌊99999 / 10000 * dacConv hs⌋ := by
    rw [Int.le_floor]
    push_cast
    linarith
  have hlimit : limitVolts q = max (-10) q := by rw [limitVolts, min_eq_left hq.le]
  rw [← BitVec.toInt_inj, toInt_toS32 hw, toInt_toS32 hv, if_pos hpos, hlimit]
  constructor
  · intro heq
    split_ifs at heq with h0
    · have hmax : -10 < max (-10) q := by
        by_contra hle
        have : max (-10) q * dacConv hs ≤ -10 * dacConv hs :=
          mul_le_mul_of_nonneg_right (not_lt.mp hle) (by linarith)
        linarith
      rw [max_eq_right ((lt_max_iff.mp hmax).resolve_left (lt_irrefl _)).le] at heq
      rw [heq]
      exact Int.floor_le _
    · have hceil := Int.ceil_nonpos.mpr (not_le.mp h0).le
      omega
  · intro hle
    have h1 : (1 : ℚ) ≤ q * dacConv hs := le_trans (by exact_mod_cast hfloor) hle
    have hq0 : 0 < q := by
      by_contra hneg
      have := mul_nonpos_of_nonpos_of_nonneg (not_lt.mp hneg) (by linarith : 0 ≤ dacConv hs)
      linarith
    rw [max_eq_right (by linarith), if_pos (by linarith)]
    refine (Int.floor_eq_iff.mpr ⟨hle, ?_⟩).symm
    have hlt : q * dacConv hs < 99999 / 10000 * dacConv hs :=
      mul_lt_mul_of_pos_right hq (by linarith)
    exact hlt.trans (Int.lt_floor_add_one _)

theorem setsClamped_iff_eq {hs : Bool} {sf : ScaleFactors} {amps : ℚ} {v w : BitVec 32}
    (hv : toS32 (limitVolts (amps / sf.dacDccts) * dacConv hs) = .ok v)
    (hw : toS32 (limitAmps sf.dacDccts amps / sf.dacDccts * dacConv hs) = .ok w) :
    SetsClamped hs sf amps ↔ w = v := by
  constructor
  · rintro ⟨v', hv', hjump, -⟩
    obtain rfl : v = v' := Except.ok.inj (hv.symm.trans hv')
    have hwrite := Except.ok.inj ((setDac_eq hw 3 0).symm.trans (hjump 0))
    exact congrArg Write.data (List.cons.inj hwrite).1
  · rintro rfl
    obtain ⟨hlo, hhi⟩ := limitVolts_bounds (amps / sf.dacDccts)
    refine ⟨w, hv, setDac_eq hw 3, fun cur n inc => setDac_smooth hw,
      fun mode hmode cur ws => setDac_writes hw hmode, setpt_fits hs hlo hhi hv, ?_⟩
    intro h1 h2
    rwa [limitVolts, min_eq_left h2, max_eq_right h1] at hv

/-- **The clamp.** The setpoint that `Set_dac` writes is the clamped one exactly if the scale factor
is positive, or if it is negative and the request lies less than one count below the upper limit. -/
theorem setsClamped_iff (hs : Bool) (sf : ScaleFactors) (amps : ℚ) (h : sf.dacDccts ≠ 0) :
    SetsClamped hs sf amps ↔ 0 < sf.dacDccts ∨
      (amps / sf.dacDccts < 99999 / 10000 ∧
        (⌊99999 / 10000 * dacConv hs⌋ : ℚ) ≤ amps / sf.dacDccts * dacConv hs) := by
  obtain ⟨hlo, hhi⟩ := limitVolts_bounds (amps / sf.dacDccts)
  obtain ⟨v, hv⟩ := exists_setpt hs hlo hhi
  rcases h.lt_or_gt with hneg | hpos
  · rw [or_iff_right hneg.not_gt]
    have hdiv : limitAmps sf.dacDccts amps / sf.dacDccts =
        if amps / sf.dacDccts < 99999 / 10000 then 99999 / 10000 else -10 :=
      limitAmps_div_of_neg hneg
    split_ifs at hdiv with hq
    · obtain ⟨w, hw⟩ := exists_setpt hs (by norm_num : (-10 : ℚ) ≤ 99999 / 10000) le_rfl
      rw [setsClamped_iff_eq hv (by rwa [hdiv]), setpt_eq_upper_iff hs hq hv hw]
      exact (and_iff_right hq).symm
    · -- the lower limit in place of the upper one
      obtain ⟨w, hw⟩ := exists_setpt hs le_rfl (by norm_num : (-10 : ℚ) ≤ 99999 / 10000)
      rw [setsClamped_iff_eq hv (by rwa [hdiv])]
      refine iff_of_false ?_ fun hc => hq hc.1
      rintro rfl
      have hneg := toInt_toS32 hw
      have hpos := toInt_toS32 hv
      obtain ⟨hc0, -⟩ := dacConv_bounds hs
      rw [limitVolts, min_eq_right (not_lt.mp hq), max_eq_right (by norm_num),
        if_pos (by positivity)] at hpos
      rw [if_neg (by linarith)] at hneg
      have h1 : (0 : ℤ) < ⌊99999 / 10000 * dacConv hs⌋ := by
        rw [Int.floor_pos]
        linarith
      have h2 : ⌈-10 * dacConv hs⌉ ≤ 0 := Int.ceil_nonpos.mpr (by linarith)
      omega
  · rw [setsClamped_iff_eq hv (by rw [limitAmps_div_of_pos hpos]; exact hv)]
    exact iff_of_true rfl (Or.inl hpos)

/-- With a factor of 2 A/V, 30 A are limited to 9.9999 V and -30 A to -10 V. -/
theorem thirtyAmps_setsClamped :
    SetsClamped true ⟨1, 2⟩ 30 ∧ SetsClamped true ⟨1, 2⟩ (-30) ∧
      setDac ⟨1, 2⟩ (dacConv true) 3 0 30 = .ok [⟨.dacSetpt, 524282⟩] ∧
      setDac ⟨1, 2⟩ (dacConv true) 3 0 (-30) = .ok [⟨.dacSetpt, -524288⟩] :=
  ⟨(setsClamped_iff true ⟨1, 2⟩ 30 (by norm_num)).mpr (Or.inl (by norm_num)),
    (setsClamped_iff true ⟨1, 2⟩ (-30) (by norm_num)).mpr (Or.inl (by norm_num)),
    by decide +kernel, by decide +kernel⟩

/-- With a factor of -1 A/V, 1 A is written as 9.9999 V in place of -1 V. -/
theorem oneAmp_inverted :
    setDac ⟨1, -1⟩ (dacConv true) 3 0 1 = .ok [⟨.dacSetpt, 524282⟩] ∧
      toS32 (limitVolts (1 / -1) * dacConv true) = .ok (-52428) ∧
      ¬SetsClamped true ⟨1, -1⟩ 1 := by
  have hw : toS32 (limitAmps (-1) 1 / -1 * dacConv true) = .ok 524282 := by
    have hfloor : ⌊(99999 / 10000 * (524288 / 10) : ℚ)⌋ = 524282 := by
      rw [Int.floor_eq_iff]
      norm_num
    have hdiv : limitAmps (-1) 1 / -1 = 99999 / 10000 := by norm_num [limitAmps]
    rw [hdiv, show dacConv true = 524288 / 10 from rfl, toS32, if_pos (by norm_num),
      if_pos (by norm_num), hfloor]
    rfl
  have hv : toS32 (limitVolts (1 / -1) * dacConv true) = .ok (-52428) := by
    have hceil : ⌈(-1 * (524288 / 10) : ℚ)⌉ = -52428 := by
      rw [Int.ceil_eq_iff]
      norm_num
    have hvolts : limitVolts (1 / -1) = -1 := by norm_num [limitVolts]
    rw [hvolts, show dacConv true = 524288 / 10 from rfl, toS32, if_pos (by norm_num),
      if_neg (by norm_num), hceil]
    rfl
  refine ⟨@setDac_eq ⟨1, -1⟩ _ _ _ hw 3 0, hv, ?_⟩
  rw [@setsClamped_iff_eq true ⟨1, -1⟩ 1 _ _ hv hw]
  decide

end Psc.Control
