import Psc.Net.RampMessage
import Psc.Dac.GainOffset

/-!
# Saturation of a ramp table

`write_ramptable` limits a point before it is sent, at 2^20 in high resolution and at 2^18 in
medium, and the register behind it keeps 20 bits. The limits are a factor of two away from the ends
of the DAC.

1. In high resolution the limits do not fit the register: what they let through past the range, and
   what they replace, wraps (`entry_high`).
2. In medium resolution the entry still fits, and `dac_gainoffset` limits it to 18 bits
   (`entry_medium`, `calibrate_unit`). But the most negative integer has no absolute value, and it
   is stored as zero; and the limit is only put in above 2^18, where it is smaller by one.

`tableSaturates_iff`: for which points a table is saturated.
-/

namespace Psc.Control

open NumericStd Clocked GainOffset Net

/-! ## The check -/

section Check

variable (v : BitVec 32)

/-- The check with limit `lim`, as integers: the most negative value passes. -/
theorem slt_abs_iff {lim : BitVec 32} (hlim : 0 < lim.toInt) :
    lim.slt v.abs = true ↔ lim.toInt < |v.toInt| ∧ v.toInt ≠ -2 ^ 31 := by
  have hint : (BitVec.intMin 32).toInt = -2 ^ 31 := by decide
  rw [BitVec.slt_iff_toInt_lt]
  by_cases hmin : v = BitVec.intMin 32
  · have habs : (BitVec.intMin 32).abs.toInt = -2 ^ 31 := toInt_abs_intMin (by norm_num)
    rw [hmin, habs, hint]
    constructor
    · intro h; omega
    · rintro ⟨-, h⟩; exact absurd rfl h
  · rw [toInt_abs_of_ne hmin]
    exact ⟨fun h => ⟨h, fun hv => hmin (BitVec.eq_of_toInt_eq (hv.trans hint.symm))⟩, fun h => h.1⟩

theorem zero_slt_iff : (0 : BitVec 32).slt v = true ↔ 0 < v.toInt := by
  rw [BitVec.slt_iff_toInt_lt]
  simp

theorem toInt_setWidth_twenty : (v.setWidth 20).toInt = v.toInt.bmod (2 ^ 20) := by
  rw [BitVec.setWidth_eq_extractLsb' (by norm_num), toInt_extractLsb'_eq_bmod _ _ _ (by norm_num)]
  simp

theorem toInt_rampClamp_high : (rampClamp 1 v).toInt =
    if 2 ^ 20 < |v.toInt| ∧ v.toInt ≠ -2 ^ 31
    then if 0 < v.toInt then 2 ^ 20 - 1 else -2 ^ 20 else v.toInt := by
  have hlim : (0x100000 : BitVec 32).slt v.abs = true ↔
      2 ^ 20 < |v.toInt| ∧ v.toInt ≠ -2 ^ 31 := slt_abs_iff v (by decide)
  simp only [rampClamp, hlim, zero_slt_iff]
  simp only [true_and, show ¬(1 : BitVec 32) = 0 by decide, false_and, if_false]
  split_ifs <;> rfl

theorem toInt_rampClamp_medium : (rampClamp 0 v).toInt =
    if 2 ^ 18 < |v.toInt| ∧ v.toInt ≠ -2 ^ 31
    then if 0 < v.toInt then 2 ^ 18 - 1 else -2 ^ 18 else v.toInt := by
  have hlim : (0x40000 : BitVec 32).slt v.abs = true ↔
      2 ^ 18 < |v.toInt| ∧ v.toInt ≠ -2 ^ 31 := slt_abs_iff v (by decide)
  simp only [rampClamp, hlim, zero_slt_iff]
  simp only [true_and, show ¬(0 : BitVec 32) = 1 by decide, false_and, if_false]
  split_ifs <;> rfl

/-- What the register keeps in high resolution. -/
theorem entry_high : ((rampClamp 1 v).setWidth 20).toInt =
    if 2 ^ 20 < v.toInt then -1
    else if v.toInt < -2 ^ 20 then 0
    else if 2 ^ 19 ≤ v.toInt then v.toInt - 2 ^ 20
    else if v.toInt < -2 ^ 19 then v.toInt + 2 ^ 20
    else v.toInt := by
  have hlo := BitVec.le_toInt v
  have hhi := @BitVec.toInt_lt _ v
  rw [toInt_setWidth_twenty, toInt_rampClamp_high]
  generalize v.toInt = x at *
  by_cases hup : 2 ^ 20 < x
  · rw [if_pos hup, if_pos ⟨hup.trans_le (le_abs_self x), by omega⟩, if_pos (by omega)]
    decide
  by_cases hdown : x < -2 ^ 20
  · rw [if_neg hup, if_pos hdown]
    split_ifs with hclamp hpos
    · omega
    · decide
    · -- the most negative value is let through, and is a multiple of 2^20 as well
      have habs : 2 ^ 20 < |x| := lt_of_lt_of_le (by omega) (neg_le_abs x)
      have hmin : x = -2 ^ 31 := by
        by_contra hne
        exact hclamp ⟨habs, hne⟩
      rw [hmin]
      decide
  · have hin : |x| ≤ 2 ^ 20 := abs_le.mpr ⟨by omega, by omega⟩
    rw [if_neg hup, if_neg hdown, if_neg fun h => absurd h.1 (not_lt.mpr hin), bmod_eq_ite]
    norm_num at *
    split_ifs <;> omega

/-- What the register keeps in medium resolution. -/
theorem entry_medium : ((rampClamp 0 v).setWidth 20).toInt =
    if 2 ^ 18 < v.toInt then 2 ^ 18 - 1
    else if v.toInt = -2 ^ 31 then 0
    else if v.toInt < -2 ^ 18 then -2 ^ 18
    else v.toInt := by
  have hlo := BitVec.le_toInt v
  have hhi := @BitVec.toInt_lt _ v
  rw [toInt_setWidth_twenty, toInt_rampClamp_medium]
  generalize v.toInt = x at *
  by_cases hup : 2 ^ 18 < x
  · rw [if_pos hup, if_pos ⟨hup.trans_le (le_abs_self x), by omega⟩, if_pos (by omega)]
    decide
  by_cases hmin : x = -2 ^ 31
  · rw [if_neg hup, if_pos hmin, if_neg fun h => h.2 hmin, hmin]
    decide
  by_cases hdown : x < -2 ^ 18
  · have habs : 2 ^ 18 < |x| := lt_of_lt_of_le (by omega) (neg_le_abs x)
    rw [if_neg hup, if_neg hmin, if_pos hdown, if_pos ⟨habs, hmin⟩, if_neg (by omega)]
    decide
  · have hin : |x| ≤ 2 ^ 18 := abs_le.mpr ⟨by omega, by omega⟩
    rw [if_neg hup, if_neg hmin, if_neg hdown, if_neg fun h => absurd h.1 (not_lt.mpr hin),
      bmod_eq_ite]
    norm_num at *
    split_ifs <;> omega

end Check

/-- With unit gain and no offset the calibration only limits the value to 18 bits. -/
theorem calibrate_unit (e : BitVec 20) :
    (calibrate false e 0 1048576).toInt = clamp 18 e.toInt := by
  have hlo := BitVec.le_toInt e
  have hhi := @BitVec.toInt_lt _ e
  have hgain : (1048576 : BitVec 24).toInt = 2 ^ 20 := by decide
  have hoff : (0 : BitVec 20).toInt = 0 := by decide
  have hborrow : borrow (e.toInt - 0) = 0 := by
    unfold borrow
    norm_num at hlo hhi
    rw [if_neg (by omega), if_neg (by omega)]
  have hres : residue e.toInt 0 (2 ^ 20) = e.toInt % 2 ^ 20 := by
    unfold residue exactValue
    rw [hborrow, sub_zero, zero_mul, sub_zero, Int.mul_ediv_cancel _ (by norm_num)]
  rw [toInt_calibrate_false, toInt_scaled, hgain, hoff, hres]
  congr 1
  norm_num at *
  split_ifs <;> omega

/-! ## A table -/

/-- The table is saturated: each entry is the point limited to the DAC, or is output as that in
medium resolution; it has the sign of the point; and larger points have larger entries. -/
structure TableSaturates (hs : Bool) (pts : ℕ → BitVec 32) (entry : ℕ → BitVec 20) (n : ℕ) :
    Prop where
  clamps : ∀ i < n, if hs then (entry i).toInt = clamp 20 (pts i).toInt
    else ∀ s inp, s.state = .idle → Converts inp false (entry i) 0 1048576 →
      (run GainOffset.step s inp 12).dacSetpt.toInt = clamp 18 (pts i).toInt
  sign : ∀ i < n, (entry i).toInt.sign = (pts i).toInt.sign
  mono : ∀ i < n, ∀ j < n, (pts i).toInt ≤ (pts j).toInt → (entry i).toInt ≤ (entry j).toInt

/-- The points that `write_ramptable` saturates. -/
def Saturable (hs : Bool) (pts : ℕ → BitVec 32) (n : ℕ) : Prop :=
  if hs then ∀ i < n, -2 ^ 19 ≤ (pts i).toInt ∧ (pts i).toInt < 2 ^ 19
  else (∀ i < n, (pts i).toInt ≠ -2 ^ 31) ∧
    ∀ i < n, ∀ j < n, (pts i).toInt = 2 ^ 18 → (pts j).toInt ≤ 2 ^ 18

section Saturation

variable {pts : ℕ → BitVec 32} {n : ℕ}

theorem output_eq_iff (e : BitVec 20) (x : ℤ) :
    (∀ s inp, s.state = .idle → Converts inp false e 0 1048576 →
      (run GainOffset.step s inp 12).dacSetpt.toInt = x) ↔ clamp 18 e.toInt = x := by
  rw [← calibrate_unit]
  constructor
  · intro h
    rw [← h restState _ rfl (converts_convertRun false e 0 1048576)]
    exact congrArg BitVec.toInt
      (conversion (s := restState) rfl (converts_convertRun false e 0 1048576)).2.2.2.symm
  · intro h s inp hs hinp
    rw [(conversion hs hinp).2.2.2, h]

theorem saturates_high_iff :
    TableSaturates true pts (fun i => (rampClamp 1 (pts i)).setWidth 20) n ↔
      Saturable true pts n := by
  unfold Saturable
  rw [if_pos rfl]
  constructor
  · intro h i hi
    have hclamp := h.clamps i hi
    simp only [if_true, entry_high, clamp] at hclamp
    split_ifs at hclamp <;> omega
  · intro h
    have hentry : ∀ i < n, ((rampClamp 1 (pts i)).setWidth 20).toInt = (pts i).toInt := by
      intro i hi
      have := h i hi
      rw [entry_high, if_neg (by omega), if_neg (by omega), if_neg (by omega), if_neg (by omega)]
    refine ⟨fun i hi => ?_, fun i hi => ?_, fun i hi j hj hij => ?_⟩
    · have := h i hi
      simp only [if_true, hentry i hi, clamp]
      omega
    · rw [hentry i hi]
    · rwa [hentry i hi, hentry j hj]

theorem saturates_medium_iff :
    TableSaturates false pts (fun i => (rampClamp 0 (pts i)).setWidth 20) n ↔
      Saturable false pts n := by
  unfold Saturable
  rw [if_neg (by simp)]
  constructor
  · intro h
    constructor
    · intro i hi hmin
      have hclamp := h.clamps i hi
      simp only [Bool.false_eq_true, if_false, output_eq_iff, entry_medium, hmin, clamp] at hclamp
      norm_num at hclamp
    · intro i hi j hj hlim
      have hmono := h.mono i hi j hj
      simp only [entry_medium, hlim] at hmono
      by_contra hgt
      rw [if_pos (not_le.mp hgt)] at hmono
      norm_num at hmono
      omega
  · rintro ⟨hmin, hlim⟩
    refine ⟨fun i hi => ?_, fun i hi => ?_, fun i hi j hj hij => ?_⟩
    · have := hmin i hi
      simp only [Bool.false_eq_true, if_false, output_eq_iff, entry_medium, clamp]
      split_ifs <;> omega
    · have := hmin i hi
      rw [entry_medium]
      rcases lt_trichotomy (pts i).toInt 0 with hneg | hzero | hpos
      · rw [Int.sign_eq_neg_one_of_neg hneg, Int.sign_eq_neg_one_of_neg]
        split_ifs <;> omega
      · rw [hzero]
        norm_num
      · rw [Int.sign_eq_one_of_pos hpos, Int.sign_eq_one_of_pos]
        split_ifs <;> omega
    · have h1 := hmin i hi
      have h2 := hmin j hj
      have h3 := hlim i hi j hj
      simp only [entry_medium]
      split_ifs <;> omega

theorem TableSaturates.congr {hs : Bool} {e e' : ℕ → BitVec 20} (h : ∀ i < n, e i = e' i)
    (ht : TableSaturates hs pts e n) : TableSaturates hs pts e' n := by
  refine ⟨fun i hi => ?_, fun i hi => ?_, fun i hi j hj => ?_⟩
  · rw [← h i hi]
    exact ht.clamps i hi
  · rw [← h i hi]
    exact ht.sign i hi
  · rw [← h i hi, ← h j hj]
    exact ht.mono i hi j hj

theorem saturates_congr_iff {hs : Bool} {e e' : ℕ → BitVec 20} (h : ∀ i < n, e i = e' i) :
    TableSaturates hs pts e n ↔ TableSaturates hs pts e' n :=
  ⟨.congr h, .congr fun i hi => (h i hi).symm⟩

end Saturation

/-! ## The requested current -/

theorem scaledVal_mono {x y conv sf : ℚ} {v w : BitVec 32} (hconv : 0 < conv) (hsf : 0 < sf)
    (hx : scaledVal x conv sf = .ok v) (hy : scaledVal y conv sf = .ok w) (hxy : x ≤ y) :
    v.toInt ≤ w.toInt := by
  rw [scaledVal, if_neg hsf.ne'] at hx hy
  have hle : x * conv / sf ≤ y * conv / sf := by gcongr
  rw [toInt_toS32 hx, toInt_toS32 hy]
  generalize x * conv / sf = a at *
  generalize y * conv / sf = b at *
  split_ifs with ha hb hb
  · exact Int.floor_le_floor hle
  · exact absurd (ha.trans hle) hb
  · exact (Int.ceil_nonpos.mpr (not_le.mp ha).le).trans (Int.floor_nonneg.mpr hb)
  · exact Int.ceil_le_ceil hle

/-! ## The upload -/

theorem writeRamptable_entries (fmt : FloatFormat) (msg : Bytes) (d : Device) (msglen : ℕ)
    (pts : ℕ → BitVec 32) (T : Table) (hlen : msglen / 4 ≤ 50000)
    (hpts : ∀ i < msglen / 4, scaledVal (fmt.value (msgWord msg i)) d.convVoltsToDacBits
      (d.sf 1).dacDccts = .ok (pts i)) :
    ∃ d', writeRamptable fmt d 1 msg msglen = .ok d' ∧
      ∀ i < msglen / 4, (d'.bus.foldl Table.write T).mem (BitVec.ofNat 16 i) =
        (rampClamp (d.regs GlobReg.resolution.addr) (pts i)).setWidth 20 := by
  obtain ⟨d', hok, hbus⟩ := writeRamptable_clamped fmt msg d pts msglen hlen hpts
  refine ⟨d', hok, ?_⟩
  rw [hbus, List.foldl_append]
  exact (foldl_tableWrites _ _ (by omega)).2

/-- **A ramp table is saturated** exactly if, in high resolution, each point is in the range of the
DAC; in medium resolution, if no point is the most negative integer, and none of 2^18 stands beside
a larger one. And the points are monotone in the requested currents. -/
theorem tableSaturates_iff (fmt : FloatFormat) (msg : Bytes) (d : Device) (msglen : ℕ)
    (pts : ℕ → BitVec 32) (hs : Bool) (T : Table) (hlen : msglen / 4 ≤ 50000)
    (hres : d.regs GlobReg.resolution.addr = if hs then 1 else 0)
    (hpts : ∀ i < msglen / 4, scaledVal (fmt.value (msgWord msg i)) d.convVoltsToDacBits
      (d.sf 1).dacDccts = .ok (pts i)) :
    (∃ d', writeRamptable fmt d 1 msg msglen = .ok d' ∧
      (TableSaturates hs pts
          (fun i => (d'.bus.foldl Table.write T).mem (BitVec.ofNat 16 i)) (msglen / 4) ↔
        Saturable hs pts (msglen / 4))) ∧
    (0 < d.convVoltsToDacBits → 0 < (d.sf 1).dacDccts → ∀ i < msglen / 4, ∀ j < msglen / 4,
      fmt.value (msgWord msg i) ≤ fmt.value (msgWord msg j) → (pts i).toInt ≤ (pts j).toInt) := by
  refine ⟨?_, fun hconv hsf i hi j hj => scaledVal_mono hconv hsf (hpts i hi) (hpts j hj)⟩
  obtain ⟨d', hok, hmem⟩ := writeRamptable_entries fmt msg d msglen pts T hlen hpts
  refine ⟨d', hok, ?_⟩
  rw [hres] at hmem
  rw [saturates_congr_iff hmem]
  cases hs with
  | true => exact saturates_high_iff
  | false => exact saturates_medium_iff

/-! ### Two tables -/

/-- A device in high resolution. -/
def highDevice : Device :=
  { blankDevice with regs := Function.update (fun _ => 0) GlobReg.resolution.addr 1 }

theorem highDevice_resolution : highDevice.regs GlobReg.resolution.addr = 1 := by
  simp [highDevice]

/-- One point of 10 A. -/
def tenAmps : Bytes := fill (fun _ => 0) [0x41, 0x20, 0, 0]

theorem scaledVal_tenAmps : scaledVal (readFloats.value (msgWord tenAmps 0))
    highDevice.convVoltsToDacBits (highDevice.sf 1).dacDccts = .ok 524288 := by
  have hword : msgWord tenAmps 0 = 0x41200000 := by decide
  have hten : readFloats.value 0x41200000 = 10 := by
    rw [readFloats_value (m := 2097152) (e := 130) (by decide) (by decide) (by decide)
      (by norm_num)]
    norm_num
  have hfloor : ⌊(10 : ℚ) * (524288 / 10) / 1⌋₊ = 524288 :=
    (Nat.floor_eq_iff (by norm_num)).mpr ⟨by norm_num, by norm_num⟩
  rw [hword, hten]
  show scaledVal 10 (524288 / 10) 1 = _
  rw [scaledVal_eq (by norm_num) (by norm_num) (by norm_num) (by norm_num), hfloor]
  rfl

/-- Points of 1 A, -2 A and 3 A. -/
def threePoints : Bytes := fill (fun _ => 0) [0x3F, 0x80, 0, 0, 0xC0, 0, 0, 0, 0x40, 0x40, 0, 0]

def threeValues : ℕ → BitVec 32
  | 0 => 52428
  | 1 => -104857
  | _ => 157286

/-- In medium resolution the third of these points is above the range, and is limited. -/
theorem threePoints_saturate :
    ∃ d', writeRamptable readFloats blankDevice 1 threePoints 12 = .ok d' ∧
      TableSaturates false threeValues
        (fun i => (d'.bus.foldl Table.write ⟨0, 0, fun _ => 0⟩).mem (BitVec.ofNat 16 i)) 3 := by
  obtain ⟨⟨d', hok, hiff⟩, -⟩ := tableSaturates_iff readFloats threePoints blankDevice 12
    threeValues false ⟨0, 0, fun _ => 0⟩ (by norm_num) rfl
    (fun i hi => by
      obtain rfl | rfl | rfl : i = 0 ∨ i = 1 ∨ i = 2 := by omega
      · decide +kernel
      · decide +kernel
      · decide +kernel)
  have hvalues : Saturable false threeValues 3 := by
    constructor
    · decide
    · decide
  exact ⟨d', hok, hiff.mpr hvalues⟩

/-- A point of 10 A in high resolution is stored as the largest negative current. -/
theorem tenAmps_changes_sign :
    ∃ d', writeRamptable readFloats highDevice 1 tenAmps 4 = .ok d' ∧
      ((d'.bus.foldl Table.write ⟨0, 0, fun _ => 0⟩).mem 0).toInt = -2 ^ 19 ∧
      ¬TableSaturates true (fun _ => 524288)
        (fun i => (d'.bus.foldl Table.write ⟨0, 0, fun _ => 0⟩).mem (BitVec.ofNat 16 i)) 1 := by
  obtain ⟨d', hok, hmem⟩ := writeRamptable_entries readFloats tenAmps highDevice 4
    (fun _ => 524288) ⟨0, 0, fun _ => 0⟩ (by norm_num) (fun i hi => by
      obtain rfl : i = 0 := by omega
      exact scaledVal_tenAmps)
  rw [highDevice_resolution] at hmem
  have hzero : (d'.bus.foldl Table.write ⟨0, 0, fun _ => 0⟩).mem 0 = 0x80000 := hmem 0 (by norm_num)
  refine ⟨d', hok, by rw [hzero]; decide, fun h => ?_⟩
  have hsign : ((d'.bus.foldl Table.write ⟨0, 0, fun _ => 0⟩).mem 0).toInt.sign = 1 :=
    h.sign 0 (by norm_num)
  rw [hzero] at hsign
  revert hsign
  decide

end Psc.Control
