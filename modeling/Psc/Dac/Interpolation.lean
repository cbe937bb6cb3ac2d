import Psc.Dac.Ramp

/-!
# The raised-cosine interpolation

The datapath of `smooth_ramp.vhd` from a cosine with 20 fractional bits to a setpoint, one register
at each of four ticks (`rampout_four_ticks`).

`interpolation_exact`: for cosines from -1 to 1 no stage overflows, and as the cosine rises the
setpoint goes from the old to the new one and reaches both.
-/

namespace Psc.SmoothRamp

open NumericStd

/-- Four ticks in RUN_RAMP, the first of which reads `cos`, register the setpoint made of it. -/
theorem rampout_four_ticks (s : State) (cos : BitVec 24) (inc : ℕ → BitVec 32)
    (later : ℕ → BitVec 24) :
    (tickRamp (tickRamp (tickRamp (tickRamp s (inc 0) cos) (inc 1) (later 1)) (inc 2) (later 2))
      (inc 3) (later 3)).rampout = setptOf s.oldSetpt s.newSetptLat cos := by
  simp [setptOf]

/-- Each stage of the datapath holds the integer that it is to compute. -/
structure NoOverflow (old new : BitVec 20) (cos : BitVec 24) : Prop where
  raisedSum : (cos + BitVec.ofInt 24 (2 ^ 20)).toInt = cos.toInt + 2 ^ 20
  raisedCos : (raise cos).toInt = (cos.toInt + 2 ^ 20) / 2
  diffSetpt : (diff new old).toInt = new.toInt - old.toInt
  rampoutWdiff : (mulFull (diff new old) (raise cos)).toInt =
    (new.toInt - old.toInt) * ((cos.toInt + 2 ^ 20) / 2)
  slice : ((mulFull (diff new old) (raise cos)).extractLsb' 20 24).toInt =
    (new.toInt - old.toInt) * ((cos.toInt + 2 ^ 20) / 2) / 2 ^ 20
  rampoutFp : (interpolate old (mulFull (diff new old) (raise cos))).toInt =
    old.toInt + (new.toInt - old.toInt) * ((cos.toInt + 2 ^ 20) / 2) / 2 ^ 20
  rampout : (setptOf old new cos).toInt =
    (interpolate old (mulFull (diff new old) (raise cos))).toInt

section Value

variable (old new : BitVec 20) {cos : BitVec 24}

theorem noOverflow_of_unit (h : Unit cos) : NoOverflow old new cos where
  raisedSum := toInt_raisedSum h
  raisedCos := toInt_raise h
  diffSetpt := toInt_diff old new
  rampoutWdiff := toInt_product old new h
  slice := toInt_slice old new h
  rampoutFp := toInt_interpolate old new h
  rampout := (toInt_setptOf old new h).trans (toInt_interpolate old new h).symm

theorem setptOf_toward {cos' : BitVec 24} (h : Unit cos) (h' : Unit cos')
    (hle : cos.toInt ≤ cos'.toInt) :
    Toward old.toInt (setptOf old new cos).toInt (setptOf old new cos').toInt new.toInt := by
  rw [toInt_setptOf old new h, toInt_setptOf old new h']
  exact toward_of_weights _ _ (weight_bounds h).1 (weight_mono hle) (weight_bounds h').2

theorem setptOf_negOne (hcos : cos.toInt = -2 ^ 20) : setptOf old new cos = old := by
  apply BitVec.eq_of_toInt_eq
  rw [toInt_setptOf old new (by rw [Unit, hcos]; norm_num), hcos]
  simp [weight]

theorem setptOf_one (hcos : cos.toInt = 2 ^ 20) : setptOf old new cos = new := by
  apply BitVec.eq_of_toInt_eq
  have hweight : weight (2 ^ 20) = 2 ^ 20 := by decide
  rw [toInt_setptOf old new (by rw [Unit, hcos]; norm_num), hcos, hweight,
    Int.mul_ediv_cancel _ (by norm_num)]
  ring

end Value

/-- **The interpolation.** For a cosine from -1 to 1 the four ticks that make a setpoint of it
overflow nowhere; the setpoint lies between the old and the new one, a greater cosine gives one no
farther from the new, and the two ends are met. -/
theorem interpolation_exact (old new : BitVec 20) (cos : BitVec 24) (h : Unit cos) :
    (∀ (s : State) (inc : ℕ → BitVec 32) (later : ℕ → BitVec 24),
      s.oldSetpt = old → s.newSetptLat = new →
      (tickRamp (tickRamp (tickRamp (tickRamp s (inc 0) cos) (inc 1) (later 1)) (inc 2) (later 2))
        (inc 3) (later 3)).rampout = setptOf old new cos) ∧
    NoOverflow old new cos ∧
    (∀ cos', Unit cos' → cos.toInt ≤ cos'.toInt →
      Toward old.toInt (setptOf old new cos).toInt (setptOf old new cos').toInt new.toInt) ∧
    (cos.toInt = -2 ^ 20 → setptOf old new cos = old) ∧
    (cos.toInt = 2 ^ 20 → setptOf old new cos = new) := by
  refine ⟨?_, noOverflow_of_unit old new h, fun cos' h' hle => setptOf_toward old new h h' hle,
    setptOf_negOne old new, setptOf_one old new⟩
  rintro s inc later rfl rfl
  exact rampout_four_ticks s cos inc later

/-- A full-scale swing downwards, at its end. -/
theorem full_swing_exact :
    Unit 1048576#24 ∧ NoOverflow 524287#20 (BitVec.ofInt 20 (-524288)) 1048576#24 ∧
      setptOf 524287#20 (BitVec.ofInt 20 (-524288)) 1048576#24 = BitVec.ofInt 20 (-524288) := by
  have hunit : Unit 1048576#24 := by unfold Unit; decide
  obtain ⟨-, hfits, -, -, hend⟩ := interpolation_exact 524287#20 (BitVec.ofInt 20 (-524288)) _ hunit
  exact ⟨hunit, hfits, hend (by decide)⟩

end Psc.SmoothRamp
