import Psc.Control.Registers
import Psc.Lib.Rounding

/-!
# Single precision

A `float` is kept as the number it stands for and stored as a word. A format is lawful if the word
of what a word stands for stands for the same. `binary32` is the format of the processor, rounding
to the nearest, up to infinities and what is no number, which have no rational to stand for.

1. `binary32_lawful`: storing and loading a `float` does not change it.
2. `binary32_word_near`: storing a number that is neither too small nor too large changes it by at
most one part in `2 ^ 24`.
-/

namespace Psc.Control

open Rounding

/-- Storing and loading a `float` does not change it. -/
def FloatFormat.Lawful (fmt : FloatFormat) : Prop :=
  ∀ w, fmt.value (fmt.word (fmt.value w)) = fmt.value w

/-- The exponent of a magnitude in units of `2 ^ -149`: it has 24 digits before the point, if it has
as many at all. -/
def binary32Exponent (q : ℚ) : ℕ := ⌊q⌋₊.log2 - 23

/-- The exponent and the mantissa of a magnitude. A mantissa that is rounded up to the next power of
two carries into the exponent. -/
def binary32Fields (q : ℚ) : ℕ :=
  binary32Exponent q * 2 ^ 23 + (nearest (q / 2 ^ binary32Exponent q)).toNat

/-- The word of a number, rounded to the nearest, and to the even one of two. -/
def binary32Word (x : ℚ) : BitVec 32 :=
  BitVec.ofNat 32 (binary32Fields (|x| * 2 ^ 149) + if x < 0 then 2 ^ 31 else 0)

/-- Single precision. -/
def binary32 : FloatFormat := ⟨binary32Value, binary32Word, 0x7F800000⟩

/-- The magnitude with an exponent and a mantissa. -/
def binary32Magnitude (e m : ℕ) : ℕ := if e = 0 then m * 2 else (2 ^ 23 + m) * 2 ^ e

theorem binary32Fields_magnitude {e m : ℕ} (hm : m < 2 ^ 23) :
    binary32Fields ((binary32Magnitude e m : ℚ) / 2) = e * 2 ^ 23 + m := by
  by_cases he : e = 0
  · have hq : ((binary32Magnitude e m : ℕ) : ℚ) / 2 = m := by
      rw [binary32Magnitude, if_pos he]
      push_cast
      ring
    have hexp : binary32Exponent (m : ℚ) = 0 := by
      have hlog : m.log2 ≤ 23 := by
        rcases Nat.eq_zero_or_pos m with rfl | hpos
        · decide
        · exact ((Nat.log2_lt hpos.ne').mpr hm).le
      rw [binary32Exponent, Nat.floor_natCast]
      omega
    rw [hq, binary32Fields, hexp, pow_zero, div_one, nearest_natCast, he, Int.toNat_natCast]
  · obtain ⟨k, rfl⟩ : ∃ k, e = k + 1 := ⟨e - 1, by omega⟩
    have hq : ((binary32Magnitude (k + 1) m : ℕ) : ℚ) / 2 = ((2 ^ 23 + m) * 2 ^ k : ℕ) := by
      rw [binary32Magnitude, if_neg he]
      push_cast
      ring
    have hlow : 2 ^ (23 + k) ≤ (2 ^ 23 + m) * 2 ^ k := by
      rw [pow_add]
      exact Nat.mul_le_mul_right _ (by omega)
    have hhigh : (2 ^ 23 + m) * 2 ^ k < 2 ^ (23 + k + 1) := by
      rw [show 23 + k + 1 = 24 + k by omega, pow_add]
      exact Nat.mul_lt_mul_of_pos_right (by omega) (by positivity)
    have hlog : ((2 ^ 23 + m) * 2 ^ k).log2 = 23 + k :=
      (Nat.log2_eq_iff (by positivity)).mpr ⟨hlow, hhigh⟩
    have hexp : binary32Exponent (((2 ^ 23 + m) * 2 ^ k : ℕ) : ℚ) = k := by
      rw [binary32Exponent, Nat.floor_natCast, hlog, Nat.add_sub_cancel_left]
    have hdiv : (((2 ^ 23 + m) * 2 ^ k : ℕ) : ℚ) / 2 ^ k = (2 ^ 23 + m : ℕ) := by
      push_cast
      field_simp
    rw [hq, binary32Fields, hexp, hdiv, nearest_natCast, Int.toNat_natCast]
    omega

section Word

variable (w : BitVec 32)

/-- The magnitude of a word. -/
def magnitude32 : ℕ := binary32Magnitude (w.extractLsb' 23 8).toNat (w.extractLsb' 0 23).toNat

theorem binary32Value_eq :
    binary32Value w = (if w.msb then -1 else 1) * (magnitude32 w : ℚ) / 2 ^ 150 := rfl

theorem extract_toNat : (w.extractLsb' 0 23).toNat = w.toNat % 2 ^ 23 ∧
    (w.extractLsb' 23 8).toNat = w.toNat / 2 ^ 23 % 2 ^ 8 := by
  rw [BitVec.extractLsb'_toNat, BitVec.extractLsb'_toNat, Nat.shiftRight_zero,
    Nat.shiftRight_eq_div_pow]
  exact ⟨rfl, rfl⟩

theorem binary32Fields_magnitude32 :
    binary32Fields ((magnitude32 w : ℚ) / 2) = w.toNat % 2 ^ 31 := by
  obtain ⟨hm, he⟩ := extract_toNat w
  rw [magnitude32, binary32Fields_magnitude (by rw [hm]; exact Nat.mod_lt _ (by norm_num)), hm, he]
  omega

theorem magnitude32_value : |binary32Value w| * 2 ^ 149 = (magnitude32 w : ℚ) / 2 := by
  have habs : |binary32Value w| = magnitude32 w / 2 ^ 150 := by
    rw [binary32Value_eq]
    cases w.msb <;> simp [abs_div]
  rw [habs]
  ring

theorem binary32Value_neg_iff : binary32Value w < 0 ↔ w.msb ∧ magnitude32 w ≠ 0 := by
  have hnonneg : (0 : ℚ) ≤ magnitude32 w := Nat.cast_nonneg _
  rw [binary32Value_eq]
  cases w.msb with
  | false => simpa using div_nonneg hnonneg (by positivity : (0 : ℚ) ≤ 2 ^ 150)
  | true =>
    have hpos : (0 : ℚ) < magnitude32 w ↔ magnitude32 w ≠ 0 := by
      rw [Nat.cast_pos, Nat.pos_iff_ne_zero]
    simp only [if_true, neg_one_mul, neg_div, neg_lt_zero, true_and]
    rw [div_pos_iff_of_pos_right (by positivity), hpos]

theorem binary32Word_value (hw : magnitude32 w ≠ 0) : binary32Word (binary32Value w) = w := by
  refine BitVec.eq_of_toNat_eq ?_
  have hlt := w.isLt
  rw [binary32Word, magnitude32_value, binary32Fields_magnitude32, BitVec.toNat_ofNat]
  by_cases hmsb : w.msb
  · rw [if_pos ((binary32Value_neg_iff w).mpr ⟨hmsb, hw⟩)]
    rw [BitVec.msb_eq_true_iff_two_mul_ge] at hmsb
    omega
  · rw [if_neg fun h => hmsb ((binary32Value_neg_iff w).mp h).1]
    rw [BitVec.msb_eq_true_iff_two_mul_ge] at hmsb
    omega

/-- Single precision is lawful. -/
theorem binary32_lawful : binary32.Lawful := by
  intro w
  show binary32Value (binary32Word (binary32Value w)) = binary32Value w
  by_cases hw : magnitude32 w = 0
  · have hzero : binary32Value w = 0 := by rw [binary32Value_eq, hw]; simp
    rw [hzero]
    decide +kernel
  · rw [binary32Word_value w hw]

end Word

/-! ## Rounding -/

/-- An exponent and a mantissa of 24 digits, or the next power of two, stand for the number they
say. -/
theorem binary32Value_fields {k m : ℕ} (hk : k ≤ 252) (hlow : 2 ^ 23 ≤ m) (hhigh : m ≤ 2 ^ 24)
    (neg : Prop) [Decidable neg] :
    binary32Value (BitVec.ofNat 32 (k * 2 ^ 23 + m + if neg then 2 ^ 31 else 0)) =
      (if neg then -1 else 1) * (m * 2 ^ k / 2 ^ 149) := by
  generalize hw : BitVec.ofNat 32 (k * 2 ^ 23 + m + if neg then 2 ^ 31 else 0) = w
  have htoNat : w.toNat = k * 2 ^ 23 + m + if neg then 2 ^ 31 else 0 := by
    rw [← hw, BitVec.toNat_ofNat, Nat.mod_eq_of_lt]
    split_ifs <;> omega
  have hmsb : w.msb = decide neg := by
    rw [Bool.eq_iff_iff, BitVec.msb_eq_true_iff_two_mul_ge, decide_eq_true_iff, htoNat]
    split_ifs with h
    · exact iff_of_true (by omega) h
    · exact iff_of_false (by omega) h
  obtain ⟨hm, he⟩ := extract_toNat w
  have hmag : magnitude32 w = 2 * m * 2 ^ k := by
    rw [magnitude32, hm, he, htoNat, binary32Magnitude]
    rcases Nat.lt_or_eq_of_le hhigh with hlt | rfl
    · have hexp : (k * 2 ^ 23 + m + if neg then 2 ^ 31 else 0) / 2 ^ 23 % 2 ^ 8 = k + 1 := by
        split_ifs <;> omega
      have hmant : (k * 2 ^ 23 + m + if neg then 2 ^ 31 else 0) % 2 ^ 23 = m - 2 ^ 23 := by
        split_ifs <;> omega
      rw [hexp, hmant, if_neg (by omega), Nat.add_sub_cancel' hlow]
      ring
    · have hexp : (k * 2 ^ 23 + 2 ^ 24 + if neg then 2 ^ 31 else 0) / 2 ^ 23 % 2 ^ 8 = k + 2 := by
        split_ifs <;> omega
      have hmant : (k * 2 ^ 23 + 2 ^ 24 + if neg then 2 ^ 31 else 0) % 2 ^ 23 = 0 := by
        split_ifs <;> omega
      rw [hexp, hmant, if_neg (by omega)]
      ring
  rw [binary32Value_eq, hmag, hmsb]
  push_cast
  simp only [decide_eq_true_eq]
  ring

/-- A magnitude that is neither too small nor too large has 24 digits before the point. -/
theorem binary32Exponent_spec {q : ℚ} (hlow : 2 ^ 23 ≤ q) (hhigh : q < 2 ^ 249) :
    binary32Exponent q < 226 ∧ 2 ^ (23 + binary32Exponent q) ≤ q ∧
      q < 2 ^ (23 + binary32Exponent q + 1) := by
  have hq : 0 ≤ q := (by norm_num : (0 : ℚ) ≤ 2 ^ 23).trans hlow
  have hfloor : 2 ^ 23 ≤ ⌊q⌋₊ := Nat.le_floor (by exact_mod_cast hlow)
  have hfloor' : ⌊q⌋₊ < 2 ^ 249 := (Nat.floor_lt hq).mpr (by exact_mod_cast hhigh)
  obtain ⟨hle, hlt⟩ := (Nat.log2_eq_iff (by omega)).mp (rfl : ⌊q⌋₊.log2 = _)
  have h23 : 23 ≤ ⌊q⌋₊.log2 := (Nat.le_log2 (by omega)).mpr hfloor
  have h249 : ⌊q⌋₊.log2 < 249 := (Nat.log2_lt (by omega)).mpr hfloor'
  have hexp : 23 + binary32Exponent q = ⌊q⌋₊.log2 := Nat.add_sub_cancel' h23
  rw [← hexp] at hle hlt
  refine ⟨by omega, ?_, ?_⟩
  · exact_mod_cast (Nat.le_floor_iff hq).mp hle
  · exact_mod_cast (Nat.floor_lt hq).mp hlt

/-- Storing a number that is neither too small nor too large rounds it to 24 digits. -/
theorem binary32Value_word {x : ℚ} (hlow : 1 / 2 ^ 126 ≤ |x|) (hhigh : |x| < 2 ^ 100) :
    binary32Value (binary32Word x) = toBits 24 x := by
  have hq : (2 : ℚ) ^ 23 ≤ |x| * 2 ^ 149 := by
    calc (2 : ℚ) ^ 23 = 1 / 2 ^ 126 * 2 ^ 149 := by norm_num
      _ ≤ |x| * 2 ^ 149 := by gcongr
  have hq' : |x| * 2 ^ 149 < 2 ^ 249 := by
    rw [show 249 = 100 + 149 from rfl, pow_add]
    gcongr
  obtain ⟨hk, hge, hlt⟩ := binary32Exponent_spec hq hq'
  have hunit := unit_eq (p := 24) (by omega) hge hlt
  unfold binary32Word binary32Fields
  generalize binary32Exponent (|x| * 2 ^ 149) = k at *
  rw [show 23 + k + 1 - 24 = k by omega] at hunit
  have hquot : |x| / unit 24 x = |x| * 2 ^ 149 / 2 ^ k := by
    rw [hunit]
    field_simp
  have hmant : ((2 ^ 23 : ℕ) : ℚ) ≤ |x| * 2 ^ 149 / 2 ^ k ∧
      |x| * 2 ^ 149 / 2 ^ k < ((2 ^ 24 : ℕ) : ℚ) := by
    rw [Nat.cast_pow, Nat.cast_pow, Nat.cast_ofNat, le_div_iff₀ (by positivity),
      div_lt_iff₀ (by positivity), ← pow_add, ← pow_add]
    exact ⟨hge, by rwa [show 24 + k = 23 + k + 1 by omega]⟩
  obtain ⟨m, hm, hm23, hm24⟩ := exists_nearest_eq hmant.1 hmant.2
  rw [hm, Int.toNat_natCast, binary32Value_fields (by omega) hm23 hm24, toBits, hquot, hm, hunit,
    Int.cast_natCast, mul_div_assoc]

/-- Storing such a number changes it by at most one part in `2 ^ 24`. -/
theorem binary32_word_near {x : ℚ} (hlow : 1 / 2 ^ 126 ≤ x) (hhigh : x < 2 ^ 100) :
    |binary32.value (binary32.word x) - x| ≤ x / 2 ^ 24 := by
  have hpos : 0 < x := lt_of_lt_of_le (by norm_num) hlow
  have h := abs_toBits_sub_le 24 x
  rw [abs_of_pos hpos] at h
  rw [show binary32.value (binary32.word x) = toBits 24 x from
    binary32Value_word (by rwa [abs_of_pos hpos]) (by rwa [abs_of_pos hpos])]
  exact h

end Psc.Control
