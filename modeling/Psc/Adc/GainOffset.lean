import Psc.Dac.GainOffset

/-!
# ADC calibration

`dcct_gainoffset.vhd` and `mon_gainoffset.vhd`: after a conversion each sample is turned into
`(raw - offset) * gain / 2^20`, for 20-bit and for 16-bit samples. The two are one machine
(`step`), at the width and over the inputs of each.

1. The difference is taken at the width of the sample, so it wraps.
2. `fixed_mul` takes a middle slice of the product, so it wraps again. Nothing saturates.

`conversion`: a conversion takes ten clocks. `toInt_calibrate_eq_clamp_iff`: for which operands the
two wraps leave the saturated exact value.
-/

namespace Psc.Adc

open NumericStd Clocked
open GainOffset (exactValue)

/-- `state_type`. -/
inductive Phase where
  | idle | applyOffsets | applyGains | multDly
  deriving DecidableEq

/-- The calibration of an input. -/
structure Params (w : ℕ) where
  offset : BitVec w
  gain : BitVec 24

/-- The input ports, for samples of `w` bits at the inputs `ι`. -/
structure Input (ι : Type) (w : ℕ) where
  reset : Bool
  convDone : Bool
  raw : ι → BitVec w
  params : ι → Params w

/-- The registers. -/
structure State (ι : Type) (w : ℕ) where
  state : Phase
  convDoneLast : Bool
  multdlycnt : BitVec 4
  oc : ι → BitVec w
  out : ι → BitVec w
  done : Bool

section Machine

variable {ι : Type} {w : ℕ}

/-- `fixed_mul`: `w` bits of the product, from `fraction_bits` below its highest. -/
def fixedMul (a : BitVec w) (b : BitVec 24) (fractionBits : ℕ) : BitVec w :=
  (mulFull a b).extractLsb' (w + 24 - 1 - fractionBits - (w - 1)) w

/-- One clock. A conversion is started by a rising edge of `conv_done`; `reset` holds the machine
where it is. -/
def step (s : State ι w) (i : Input ι w) : State ι w :=
  if i.reset then { s with done := false }
  else
    match s.state with
    | .idle =>
      { s with
        done := false
        convDoneLast := i.convDone
        state := if i.convDone && !s.convDoneLast then .applyOffsets else .idle }
    | .applyOffsets =>
      { s with oc := fun c => i.raw c - (i.params c).offset, state := .applyGains }
    | .applyGains =>
      { s with
        out := fun c => fixedMul (s.oc c) (i.params c).gain 4
        state := .multDly
        multdlycnt := 0 }
    | .multDly =>
      if s.multdlycnt = 6 then { s with state := .idle, done := true }
      else { s with multdlycnt := s.multdlycnt + 1 }

/-- What a conversion leaves of a sample. -/
def calibrate (raw : BitVec w) (p : Params w) : BitVec w := fixedMul (raw - p.offset) p.gain 4

end Machine

/-- The inputs of `dcct_gainoffset`. -/
inductive DcctInput where
  | dcct0 | dcct1
  deriving DecidableEq

/-- The inputs of `mon_gainoffset`. -/
inductive MonInput where
  | dacmon | voltage | ignd | spare | psReg | psError
  deriving DecidableEq

/-- `dcct_gainoffset.vhd`. -/
def dcctGainoffset : State DcctInput 20 → Input DcctInput 20 → State DcctInput 20 := step

/-- `mon_gainoffset.vhd`. -/
def monGainoffset : State MonInput 16 → Input MonInput 16 → State MonInput 16 := step

/-! ## A conversion -/

/-- A conversion from clock 0 on: a rising edge of `conv_done` in IDLE, then the samples and their
calibration held while the machine works, with `reset` low. -/
structure Converts {ι : Type} {w : ℕ} (s : State ι w) (inp : ℕ → Input ι w) (raw : ι → BitVec w)
    (params : ι → Params w) : Prop where
  idle : s.state = .idle
  last : s.convDoneLast = false
  start : (inp 0).convDone = true
  reset : ∀ n < 10, (inp n).reset = false
  raw : ∀ n < 10, 0 < n → (inp n).raw = raw
  params : ∀ n < 10, 0 < n → (inp n).params = params

section Conversion

variable {ι : Type} {w : ℕ} {s : State ι w} {inp : ℕ → Input ι w} {raw : ι → BitVec w}
  {params : ι → Params w}

/-- After the three working clocks the results stand in the outputs, with `done` low so far. -/
theorem run_datapath (h : Converts s inp raw params) :
    (∀ n < 4, 0 < n → (run step s inp n).done = false) ∧
      (run step s inp 3).state = .multDly ∧ (run step s inp 3).multdlycnt = 0 ∧
      (run step s inp 3).out = fun c => calibrate (raw c) (params c) := by
  have hr := h.reset
  have h1 : run step s inp 1 =
      { s with done := false, convDoneLast := true, state := .applyOffsets } := by
    rw [run_succ, run_zero, step, if_neg (by simp [hr 0 (by omega)]), h.idle, h.start, h.last]; rfl
  have h2 : run step s inp 2 = { run step s inp 1 with
      oc := fun c => raw c - (params c).offset, state := .applyGains } := by
    rw [run_succ, step, if_neg (by simp [hr 1 (by omega)]), h1, h.raw 1 (by omega) (by omega),
      h.params 1 (by omega) (by omega)]
  have h3 : run step s inp 3 = { run step s inp 2 with
      out := fun c => calibrate (raw c) (params c), state := .multDly, multdlycnt := 0 } := by
    rw [run_succ, step, if_neg (by simp [hr 2 (by omega)]), h2, h.params 2 (by omega) (by omega)]
    rfl
  refine ⟨?_, by rw [h3], by rw [h3], by rw [h3]⟩
  intro n hn hpos
  interval_cases n
  · rw [h1]
  · rw [h2, h1]
  · rw [h3, h2, h1]

theorem run_delay (hr : ∀ n < 7, (inp n).reset = false) (hs : s.state = .multDly)
    (hcnt : s.multdlycnt = 0) :
    ∀ n ≤ 6, run step s inp n = { s with multdlycnt := BitVec.ofNat 4 n } := by
  intro n hn
  have hcounts : ∀ n < (6 : BitVec 4).toNat, ∀ c ≠ 6,
      step { s with multdlycnt := c } (inp n) = { s with multdlycnt := c + 1 } := by
    intro n hn c hc
    rw [step, if_neg (by simp [hr n (by simp at hn; omega)])]
    dsimp only
    rw [hs]
    exact if_neg hc
  have hzero : s = { s with multdlycnt := 0 } := by rw [← hcnt]
  conv_lhs => rw [hzero]
  exact run_counter _ _ (fun c => { s with multdlycnt := c }) 6 hcounts hn

/-- **A conversion.** `done` stays low for nine clocks and is up at the tenth, with the calibrated
samples in the outputs. -/
theorem conversion (h : Converts s inp raw params) :
    (∀ n < 10, 0 < n → (run step s inp n).done = false) ∧ (run step s inp 10).done = true ∧
      (run step s inp 10).out = fun c => calibrate (raw c) (params c) := by
  obtain ⟨hlow, hphase, hcnt, hout⟩ := run_datapath h
  have hr : ∀ n < 7, (inp (3 + n)).reset = false := fun n hn => h.reset _ (by omega)
  have hdelay := run_delay hr hphase hcnt
  have hend : run step s inp 10 =
      { run step s inp 3 with multdlycnt := 6, state := .idle, done := true } := by
    rw [show 10 = 3 + 6 + 1 from rfl, run_succ, run_add, hdelay 6 (by omega), step,
      if_neg (by simp [h.reset 9 (by omega)]), hphase]
    rfl
  refine ⟨?_, by rw [hend], by rw [hend]; exact hout⟩
  intro n hn hpos
  by_cases hn4 : n < 4
  · exact hlow n hn4 hpos
  · obtain ⟨m, rfl⟩ : ∃ m, n = 3 + m := ⟨n - 3, by omega⟩
    rw [run_add, hdelay m (by omega)]
    exact hlow 3 (by omega) (by omega)

end Conversion

/-! ## Two wraps -/

section Wraps

variable {W P d g : ℤ}

/-- A difference past the upper end, less one turn, has the same result up to turns only if the gain
is zero, or minus one and the difference at the end. Otherwise the two results have different signs,
and a turn between them asks for a larger gain than the first leaves room for. -/
theorem wrapped_up_iff (hW : 0 < W) (hP : 0 < P) (hd : W ≤ d) (hd' : d < 2 * W)
    (hlo : -W ≤ d * g / P) (hhi : d * g / P < W) :
    (d - 2 * W) * g / P ≡ d * g / P [ZMOD 2 * W] ↔ g = 0 ∨ (d = W ∧ g = -P) := by
  constructor
  · intro hmod
    obtain ⟨k, hk⟩ := hmod.dvd
    have hx := Int.ediv_mul_le (d * g) hP.ne'
    have hx' := Int.lt_ediv_add_one_mul_self (d * g) hP
    have hy := Int.ediv_mul_le ((d - 2 * W) * g) hP.ne'
    have hy' := Int.lt_ediv_add_one_mul_self ((d - 2 * W) * g) hP
    generalize d * g / P = x at *
    generalize (d - 2 * W) * g / P = y at *
    rcases lt_trichotomy g 0 with hneg | hzero | hpos
    · right
      have hx0 : x < 0 := by
        have hdg : d * g < 0 := mul_neg_of_pos_of_neg (by omega) hneg
        exact neg_of_mul_neg_left (hx.trans_lt hdg) hP.le
      have hy0 : 0 < y + 1 := by
        have hdg : 0 ≤ (d - 2 * W) * g := mul_nonneg_of_nonpos_of_nonpos (by omega) hneg.le
        exact pos_of_mul_pos_left (hdg.trans_lt hy') hP.le
      have hk0 : k < 0 := neg_of_mul_neg_right (show 2 * W * k < 0 by omega) (by omega)
      have hyW : W ≤ y := by
        have hturn : 2 * W * k ≤ 2 * W * -1 := mul_le_mul_of_nonneg_left (by omega) (by omega)
        omega
      -- the two results are a turn apart, so both are at their ends, and so is the gain
      have h1 : P ≤ -g := by
        have hlow : W * P ≤ W * -g :=
          calc W * P ≤ y * P := mul_le_mul_of_nonneg_right hyW hP.le
            _ ≤ (d - 2 * W) * g := hy
            _ = (2 * W - d) * -g := by ring
            _ ≤ W * -g := mul_le_mul_of_nonneg_right (by omega) (by omega)
        exact le_of_mul_le_mul_left hlow hW
      have h2 : d * -g ≤ W * P :=
        calc d * -g = -(d * g) := by ring
          _ ≤ -x * P := by linarith
          _ ≤ W * P := mul_le_mul_of_nonneg_right (by omega) hP.le
      have h3 : -g ≤ P := by
        have hhigh : W * -g ≤ W * P := (mul_le_mul_of_nonneg_right hd (by omega)).trans h2
        exact le_of_mul_le_mul_left hhigh hW
      have hgP : g = -P := by omega
      refine ⟨?_, hgP⟩
      rw [hgP, neg_neg] at h2
      exact le_antisymm (le_of_mul_le_mul_right h2 hP) hd
    · exact Or.inl hzero
    · exfalso
      have hx0 : 0 < x + 1 := by
        have hdg : 0 ≤ d * g := mul_nonneg (by omega) hpos.le
        exact pos_of_mul_pos_left (hdg.trans_lt hx') hP.le
      have hy0 : y < 0 := by
        have hdg : (d - 2 * W) * g < 0 := mul_neg_of_neg_of_pos (by omega) hpos
        exact neg_of_mul_neg_left (hy.trans_lt hdg) hP.le
      have hk0 : 0 < k := pos_of_mul_pos_right (show 0 < 2 * W * k by omega) (by omega)
      have hyW : y + 1 ≤ -W := by
        have hturn : 2 * W * 1 ≤ 2 * W * k := mul_le_mul_of_nonneg_left (by omega) (by omega)
        omega
      have hlow : (d - 2 * W) * g < -W * P :=
        hy'.trans_le (mul_le_mul_of_nonneg_right hyW hP.le)
      have hhigh : -W * g ≤ (d - 2 * W) * g := mul_le_mul_of_nonneg_right (by omega) hpos.le
      have hgP : P < g := lt_of_mul_lt_mul_left (by linarith : W * P < W * g) hW.le
      have hxW : W * P < (x + 1) * P :=
        calc W * P < W * g := mul_lt_mul_of_pos_left hgP hW
          _ ≤ d * g := mul_le_mul_of_nonneg_right hd hpos.le
          _ < (x + 1) * P := hx'
      have := lt_of_mul_lt_mul_right hxW hP.le
      omega
  · rintro (rfl | ⟨rfl, rfl⟩)
    · simp
    · have h1 : (d - 2 * d) * -P / P = d := by
        rw [show (d - 2 * d) * -P = d * P by ring, Int.mul_ediv_cancel _ hP.ne']
      have h2 : d * -P / P = -d := by
        rw [show d * -P = -d * P by ring, Int.mul_ediv_cancel _ hP.ne']
      rw [h1, h2]
      exact (Int.modEq_iff_dvd.mpr ⟨-1, by ring⟩)

theorem wrapped_down_iff (hP : 0 < P) (hd : d < -W) (hd' : -2 * W < d)
    (hlo : -W ≤ d * g / P) (hhi : d * g / P < W) :
    (d + 2 * W) * g / P ≡ d * g / P [ZMOD 2 * W] ↔ g = 0 := by
  have hneg := @wrapped_up_iff W P (-d) (-g) (by omega) hP (by omega) (by omega)
    (by rwa [neg_mul_neg]) (by rwa [neg_mul_neg])
  rw [show (-d - 2 * W) * -g = (d + 2 * W) * g by ring, neg_mul_neg, neg_eq_zero] at hneg
  rw [hneg]
  exact or_iff_left fun h => by omega

end Wraps

/-! ## The exact value -/

/-- The operands for which the two wraps leave the saturated exact value. Where the exact value `x`
is in the range of the width, the difference must be in it too, or the gain be zero, or minus one
with the difference just past the upper end. Where `x` is not, the slice of the product of the
wrapped difference must happen to lie on the end that `x` is past. -/
def ReadsTrue (w : ℕ) (raw offset gain : ℤ) : Prop :=
  let d := raw - offset
  let x := exactValue raw offset gain
  let y := d.bmod (2 ^ w) * gain / 2 ^ 20
  (-2 ^ (w - 1) ≤ x ∧ x < 2 ^ (w - 1) ∧
    ((-2 ^ (w - 1) ≤ d ∧ d < 2 ^ (w - 1)) ∨ gain = 0 ∨ (d = 2 ^ (w - 1) ∧ gain = -2 ^ 20))) ∨
  (2 ^ (w - 1) ≤ x ∧ y % 2 ^ w = 2 ^ (w - 1) - 1) ∨
  (x < -2 ^ (w - 1) ∧ y % 2 ^ w = 2 ^ (w - 1))

section Exact

variable {w : ℕ}

theorem toInt_fixedMul (hw : 0 < w) (a : BitVec w) (b : BitVec 24) :
    (fixedMul a b 4).toInt = (a.toInt * b.toInt / 2 ^ 20).bmod (2 ^ w) := by
  unfold fixedMul
  rw [show w + 24 - 1 - 4 - (w - 1) = 20 by omega,
    toInt_extractLsb'_eq_bmod _ _ _ (by omega), toInt_mulFull _ _ hw (by norm_num)]

theorem toInt_calibrate (hw : 0 < w) (raw : BitVec w) (p : Params w) :
    (calibrate raw p).toInt =
      ((raw.toInt - p.offset.toInt).bmod (2 ^ w) * p.gain.toInt / 2 ^ 20).bmod (2 ^ w) := by
  unfold calibrate
  rw [toInt_fixedMul hw, BitVec.toInt_sub]

theorem two_pow_eq (hw : 0 < w) : (2 : ℤ) ^ w = 2 * 2 ^ (w - 1) := by
  rw [← pow_succ', Nat.sub_add_cancel hw]

theorem bmod_eq_iff_modEq (hw : 0 < w) {y z : ℤ} (hlo : -2 ^ (w - 1) ≤ z) (hhi : z < 2 ^ (w - 1)) :
    y.bmod (2 ^ w) = z ↔ y ≡ z [ZMOD 2 ^ w] := by
  have hturn := two_pow_eq hw
  have hcast : ((2 ^ w : ℕ) : ℤ) = 2 ^ w := by push_cast; rfl
  have hz : z.bmod (2 ^ w) = z := by
    apply Int.bmod_eq_of_le_mul_two
    · rw [hcast]; omega
    · rw [hcast]; omega
  unfold Int.ModEq
  constructor
  · rintro rfl
    have := @Int.bmod_emod y (2 ^ w)
    rw [hcast] at this
    exact this.symm
  · intro hmod
    rw [← hz, Int.bmod_def, Int.bmod_def, hcast, hmod]

theorem bmod_of_lt_two_pow (hw : 0 < w) {d : ℤ} (hlo : -2 ^ w < d) (hhi : d < 2 ^ w) :
    d.bmod (2 ^ w) = if 2 ^ (w - 1) ≤ d then d - 2 * 2 ^ (w - 1)
      else if d < -2 ^ (w - 1) then d + 2 * 2 ^ (w - 1) else d := by
  have hturn := two_pow_eq hw
  split_ifs with h1 h2
  · rw [bmod_eq_iff_modEq hw (by omega) (by omega), hturn]
    exact Int.modEq_iff_dvd.mpr ⟨-1, by ring⟩
  · rw [bmod_eq_iff_modEq hw (by omega) (by omega), hturn]
    exact Int.modEq_iff_dvd.mpr ⟨1, by ring⟩
  · rw [bmod_eq_iff_modEq hw (by omega) (by omega)]

/-- Where the exact value is in range: when the wrapped difference has the same result. -/
theorem modEq_exact_iff (hw : 0 < w) {d g : ℤ} (hd : -2 ^ w < d) (hd' : d < 2 ^ w)
    (hlo : -2 ^ (w - 1) ≤ d * g / 2 ^ 20) (hhi : d * g / 2 ^ 20 < 2 ^ (w - 1)) :
    d.bmod (2 ^ w) * g / 2 ^ 20 ≡ d * g / 2 ^ 20 [ZMOD 2 ^ w] ↔
      (-2 ^ (w - 1) ≤ d ∧ d < 2 ^ (w - 1)) ∨ g = 0 ∨ (d = 2 ^ (w - 1) ∧ g = -2 ^ 20) := by
  have hturn := two_pow_eq hw
  have hpos : (0 : ℤ) < 2 ^ (w - 1) := by positivity
  rw [bmod_of_lt_two_pow hw hd hd', hturn]
  generalize (2 : ℤ) ^ (w - 1) = W at *
  split_ifs with h1 h2
  · rw [wrapped_up_iff hpos (by norm_num) h1 (by omega) hlo hhi]
    exact (or_iff_right fun h => absurd h.2 (not_lt.mpr h1)).symm
  · rw [wrapped_down_iff (by norm_num) h2 (by omega) hlo hhi]
    constructor
    · exact fun h => Or.inr (Or.inl h)
    · rintro (h | h | h)
      · omega
      · exact h
      · omega
  · exact iff_of_true rfl (Or.inl ⟨by omega, by omega⟩)

/-- `calibrate` is the saturated exact value exactly on `ReadsTrue`. -/
theorem toInt_calibrate_eq_clamp_iff (hw : 0 < w) (raw : BitVec w) (p : Params w) :
    (calibrate raw p).toInt =
        clamp w (exactValue raw.toInt p.offset.toInt p.gain.toInt) ↔
      ReadsTrue w raw.toInt p.offset.toInt p.gain.toInt := by
  have h1 := BitVec.le_toInt raw
  have h2 := @BitVec.toInt_lt _ raw
  have h3 := BitVec.le_toInt p.offset
  have h4 := @BitVec.toInt_lt _ p.offset
  have hturn := two_pow_eq hw
  have hpos : (0 : ℤ) < 2 ^ (w - 1) := by positivity
  have hd : -2 ^ w < raw.toInt - p.offset.toInt := by omega
  have hd' : raw.toInt - p.offset.toInt < 2 ^ w := by omega
  rw [toInt_calibrate hw]
  unfold ReadsTrue exactValue
  dsimp only
  generalize raw.toInt - p.offset.toInt = d at *
  generalize p.gain.toInt = g at *
  rcases lt_or_ge (d * g / 2 ^ 20) (-2 ^ (w - 1)) with hlow | hlo
  · have hclamp : clamp w (d * g / 2 ^ 20) = -2 ^ (w - 1) := by unfold clamp; omega
    have hend : (-2 ^ (w - 1) : ℤ) % 2 ^ w = 2 ^ (w - 1) := by
      rw [← Int.add_emod_right, Int.emod_eq_of_lt (by omega) (by omega), hturn]
      ring
    rw [hclamp, bmod_eq_iff_modEq hw le_rfl (by omega), Int.ModEq, hend]
    constructor
    · exact fun h => Or.inr (Or.inr ⟨hlow, h⟩)
    · rintro (⟨h, -⟩ | ⟨h, -⟩ | ⟨-, h⟩)
      · omega
      · omega
      · exact h
  rcases lt_or_ge (d * g / 2 ^ 20) (2 ^ (w - 1)) with hhi | hhigh
  · have hclamp : clamp w (d * g / 2 ^ 20) = d * g / 2 ^ 20 := by unfold clamp; omega
    rw [hclamp, bmod_eq_iff_modEq hw hlo hhi, modEq_exact_iff hw hd hd' hlo hhi]
    constructor
    · exact fun h => Or.inl ⟨hlo, hhi, h⟩
    · rintro (⟨-, -, h⟩ | ⟨h, -⟩ | ⟨h, -⟩)
      · exact h
      · omega
      · omega
  · have hclamp : clamp w (d * g / 2 ^ 20) = 2 ^ (w - 1) - 1 := by unfold clamp; omega
    have hend : (2 ^ (w - 1) - 1 : ℤ) % 2 ^ w = 2 ^ (w - 1) - 1 :=
      Int.emod_eq_of_lt (by omega) (by omega)
    rw [hclamp, bmod_eq_iff_modEq hw (by omega) (by omega), Int.ModEq, hend]
    constructor
    · exact fun h => Or.inr (Or.inl ⟨hhigh, h⟩)
    · rintro (⟨-, h, -⟩ | ⟨-, h⟩ | ⟨h, -⟩)
      · omega
      · exact h
      · omega

end Exact

/-- **The readings.** When `done` comes up, a reading of either calibration is the exact value
limited to the range of its width exactly when its operands are in `ReadsTrue`. -/
theorem readings_eq_clamp_iff
    {s : State DcctInput 20} {inp : ℕ → Input DcctInput 20} {raw : DcctInput → BitVec 20}
    {params : DcctInput → Params 20} (h : Converts s inp raw params)
    {s' : State MonInput 16} {inp' : ℕ → Input MonInput 16} {raw' : MonInput → BitVec 16}
    {params' : MonInput → Params 16} (h' : Converts s' inp' raw' params') :
    ((run dcctGainoffset s inp 10).done = true ∧
      ∀ c, ((run dcctGainoffset s inp 10).out c).toInt = clamp 20
          (exactValue (raw c).toInt (params c).offset.toInt (params c).gain.toInt) ↔
        ReadsTrue 20 (raw c).toInt (params c).offset.toInt (params c).gain.toInt) ∧
    (run monGainoffset s' inp' 10).done = true ∧
      ∀ c, ((run monGainoffset s' inp' 10).out c).toInt = clamp 16
          (exactValue (raw' c).toInt (params' c).offset.toInt (params' c).gain.toInt) ↔
        ReadsTrue 16 (raw' c).toInt (params' c).offset.toInt (params' c).gain.toInt := by
  constructor
  · obtain ⟨-, hdone, hout⟩ := conversion h
    refine ⟨hdone, fun c => ?_⟩
    rw [show (run dcctGainoffset s inp 10).out = _ from hout]
    exact toInt_calibrate_eq_clamp_iff (by norm_num) (raw c) (params c)
  · obtain ⟨-, hdone, hout⟩ := conversion h'
    refine ⟨hdone, fun c => ?_⟩
    rw [show (run monGainoffset s' inp' 10).out = _ from hout]
    exact toInt_calibrate_eq_clamp_iff (by norm_num) (raw' c) (params' c)

/-- The registers at configuration. -/
def restState (ι : Type) (w : ℕ) : State ι w := ⟨.idle, false, 0, fun _ => 0, fun _ => 0, false⟩

/-- A conversion at clock 0, of the same sample at each input. -/
def convertRun (ι : Type) {w : ℕ} (raw : BitVec w) (p : Params w) (n : ℕ) : Input ι w :=
  ⟨false, n == 0, fun _ => raw, fun _ => p⟩

theorem converts_convertRun (ι : Type) {w : ℕ} (raw : BitVec w) (p : Params w) :
    Converts (restState ι w) (convertRun ι raw p) (fun _ => raw) fun _ => p :=
  ⟨rfl, rfl, rfl, fun _ _ => rfl, fun _ _ _ => rfl, fun _ _ _ => rfl⟩

/-- Half of full scale at gain 1.5, of both widths. -/
theorem reading_at_gain_1_5 :
    ((run dcctGainoffset (restState DcctInput 20)
      (convertRun DcctInput 262144 ⟨0, 1572864⟩) 10).out .dcct0).toInt = 393216 ∧
    ((run monGainoffset (restState MonInput 16)
      (convertRun MonInput 16384 ⟨0, 1572864⟩) 10).out .ignd).toInt = 24576 := by
  obtain ⟨⟨-, hdcct⟩, -, hmon⟩ := readings_eq_clamp_iff
    (converts_convertRun DcctInput (262144 : BitVec 20) ⟨0, 1572864⟩)
    (converts_convertRun MonInput (16384 : BitVec 16) ⟨0, 1572864⟩)
  constructor
  · refine ((hdcct .dcct0).mpr ?_).trans (by decide)
    left
    decide
  · refine ((hmon .ignd).mpr ?_).trans (by decide)
    left
    decide

/-- A reading of 400000 counts at gain 1.5 is past full scale, and appears as -448576; a monitor
reading of full scale with an offset of -1 as full scale of the other sign. -/
theorem readings_wrap :
    ((run dcctGainoffset (restState DcctInput 20)
      (convertRun DcctInput 400000 ⟨0, 1572864⟩) 10).out .dcct0).toInt = -448576 ∧
    clamp 20 (exactValue (400000 : BitVec 20).toInt (0 : BitVec 20).toInt
      (1572864 : BitVec 24).toInt) = 524287 ∧
    ((run monGainoffset (restState MonInput 16)
      (convertRun MonInput 32767 ⟨-1, 1048576⟩) 10).out .ignd).toInt = -32768 ∧
    clamp 16 (exactValue (32767 : BitVec 16).toInt (-1 : BitVec 16).toInt
      (1048576 : BitVec 24).toInt) = 32767 := by
  have hdcct := (conversion (converts_convertRun DcctInput (400000 : BitVec 20) ⟨0, 1572864⟩)).2.2
  have hmon := (conversion (converts_convertRun MonInput (32767 : BitVec 16) ⟨-1, 1048576⟩)).2.2
  refine ⟨?_, by decide, ?_, by decide⟩
  · rw [show (run dcctGainoffset _ _ 10).out = _ from hdcct]
    decide
  · rw [show (run monGainoffset _ _ 10).out = _ from hmon]
    decide

end Psc.Adc
