import Mathlib.Tactic

/-!
# Two's-complement vectors

The operations of VHDL's `numeric_std` on `signed` vectors, over `BitVec`: assignment to one bit
(`setBit`), the full-width product (`mulFull`), slices and `abs`. Each has a lemma that says what
integer the result stands for; only `abs` does not do what its name says on the whole range
(`abs_sle_abs_eq_iff`).
-/

namespace NumericStd

variable {w m n : ℕ}

/-! ## Bits -/

/-- `v(i) <= b`. -/
def setBit (v : BitVec w) (i : ℕ) (b : Bool) : BitVec w :=
  if b then v ||| BitVec.twoPow w i else v &&& ~~~BitVec.twoPow w i

@[simp] theorem getLsbD_setBit (v : BitVec w) (i j : ℕ) (b : Bool) :
    (setBit v i b).getLsbD j = if i = j ∧ j < w then b else v.getLsbD j := by
  unfold setBit
  by_cases hj : j < w
  · by_cases hij : i = j
    · cases b <;> simp [hij, hj]
    · cases b <;> simp [hij, hj, Ne.symm hij]
  · have hi : i < w → i ≠ j := fun h => by omega
    cases b
    · simp [hj, BitVec.getLsbD_of_ge v j (by omega)]
    · simpa [hj, BitVec.getLsbD_of_ge v j (by omega)] using hi

/-! ## Products and slices -/

/-- `x * y`: the product of two signed vectors is as long as both together. -/
def mulFull (x : BitVec m) (y : BitVec n) : BitVec (m + n) :=
  x.signExtend (m + n) * y.signExtend (m + n)

theorem toInt_mulFull (x : BitVec m) (y : BitVec n) (hm : 0 < m) (hn : 0 < n) :
    (mulFull x y).toInt = x.toInt * y.toInt := by
  unfold mulFull
  rw [BitVec.toInt_mul, BitVec.toInt_signExtend_of_le (by omega),
    BitVec.toInt_signExtend_of_le (by omega)]
  have hx : |x.toInt| ≤ 2 ^ (m - 1) :=
    abs_le.mpr ⟨BitVec.le_toInt x, by have := @BitVec.toInt_lt m x; omega⟩
  have hy : |y.toInt| ≤ 2 ^ (n - 1) :=
    abs_le.mpr ⟨BitVec.le_toInt y, by have := @BitVec.toInt_lt n y; omega⟩
  have hxy : |x.toInt * y.toInt| ≤ 2 ^ (m - 1) * 2 ^ (n - 1) := by
    rw [abs_mul]
    exact mul_le_mul hx hy (abs_nonneg _) (by positivity)
  have hp : (2 : ℤ) ^ (m + n) = 4 * (2 ^ (m - 1) * 2 ^ (n - 1)) := by
    rw [← pow_add, show m + n = m - 1 + (n - 1) + 2 by omega, pow_add]; ring
  have hpos : (0 : ℤ) < 2 ^ (m - 1) * 2 ^ (n - 1) := by positivity
  obtain ⟨hlo, hhi⟩ := abs_le.mp hxy
  apply Int.bmod_eq_of_le_mul_two
  · push_cast; omega
  · push_cast; omega

theorem toInt_extractLsb'_eq_bmod (x : BitVec w) (lo len : ℕ) (h : lo + len ≤ w) :
    (x.extractLsb' lo len).toInt = (x.toInt / 2 ^ lo).bmod (2 ^ len) := by
  rw [BitVec.toInt_extractLsb', Nat.shiftRight_eq_div_pow]
  have hdvd : (2 : ℤ) ^ w = 2 ^ lo * (2 ^ len * 2 ^ (w - lo - len)) := by
    rw [← pow_add, ← pow_add]; congr 1; omega
  have hpos : (2 : ℤ) ^ lo ≠ 0 := by positivity
  rw [BitVec.toInt_eq_toNat_cond]
  split_ifs
  · push_cast; rfl
  · push_cast
    rw [hdvd, sub_eq_add_neg, ← mul_neg, Int.add_mul_ediv_left _ _ hpos, ← mul_neg]
    have := Int.add_mul_bmod_self_left ((x.toNat : ℤ) / 2 ^ lo) (2 ^ len) (-2 ^ (w - lo - len))
    push_cast at this
    exact this.symm

/-! ## Saturation and absolute value -/

/-- `x` limited to the signed range of `w` bits. -/
def clamp (w : ℕ) (x : ℤ) : ℤ := max (-2 ^ (w - 1)) (min x (2 ^ (w - 1) - 1))

theorem toInt_abs_intMin (hw : 0 < w) : (BitVec.intMin w).abs.toInt = -2 ^ (w - 1) := by
  rw [BitVec.toInt_abs_eq_natAbs, if_pos rfl, BitVec.toInt_intMin_of_pos hw]

theorem toInt_abs_of_ne {x : BitVec w} (hx : x ≠ BitVec.intMin w) : x.abs.toInt = |x.toInt| := by
  rw [BitVec.toInt_abs_eq_natAbs_of_ne_intMin hx, Int.natCast_natAbs]

theorem abs_toInt_lt {x : BitVec w} (hw : 0 < w) (hx : x ≠ BitVec.intMin w) :
    |x.toInt| < 2 ^ (w - 1) := by
  have hlo := BitVec.le_toInt x
  have hhi := @BitVec.toInt_lt w x
  have hne : x.toInt ≠ -2 ^ (w - 1) := by
    rw [← BitVec.toInt_intMin_of_pos hw]
    exact fun h => hx (BitVec.eq_of_toInt_eq h)
  exact abs_lt.mpr ⟨by omega, hhi⟩

theorem abs_toInt_intMin (hw : 0 < w) : |(BitVec.intMin w).toInt| = 2 ^ (w - 1) := by
  rw [BitVec.toInt_intMin_of_pos hw, abs_neg, abs_of_pos (by positivity)]

/-- `abs x >= abs y` on signed vectors compares the magnitudes exactly when both operands are at
negative full scale or neither is. -/
theorem abs_sle_abs_eq_iff (hw : 0 < w) (x y : BitVec w) :
    y.abs.sle x.abs = decide (|y.toInt| ≤ |x.toInt|) ↔
      (x = BitVec.intMin w ↔ y = BitVec.intMin w) := by
  have hpos : (0 : ℤ) < 2 ^ (w - 1) := by positivity
  rw [BitVec.sle_eq_decide, decide_eq_decide]
  by_cases hx : x = BitVec.intMin w
  · by_cases hy : y = BitVec.intMin w
    · subst hx hy; simp
    · have hlt := abs_toInt_lt hw hy
      have hnn := abs_nonneg y.toInt
      rw [hx, toInt_abs_intMin hw, toInt_abs_of_ne hy, abs_toInt_intMin hw]
      constructor
      · intro h; have := h.mpr hlt.le; omega
      · intro h; exact absurd (h.mp rfl) hy
  · by_cases hy : y = BitVec.intMin w
    · have hlt := abs_toInt_lt hw hx
      have hnn := abs_nonneg x.toInt
      rw [hy, toInt_abs_intMin hw, toInt_abs_of_ne hx, abs_toInt_intMin hw]
      constructor
      · intro h; have := h.mp (by omega); omega
      · intro h; exact absurd (h.mpr rfl) hx
    · rw [toInt_abs_of_ne hx, toInt_abs_of_ne hy]
      simp [hx, hy]

end NumericStd
