import Mathlib.Algebra.Order.Round
import Mathlib.Data.Int.Log
import Mathlib.Tactic.FieldSimp
import Mathlib.Tactic.Linarith
import Mathlib.Tactic.NormNum
import Mathlib.Tactic.Positivity
import Mathlib.Tactic.Ring

/-!
# Rounding to the nearest, ties to even

1. `nearest` is at most half away (`abs_nearest_sub_le`) and leaves integers as they are
(`nearest_intCast`).
2. `toBits`: a number with `p` binary digits, whatever its exponent. It is off by at most one part
in `2 ^ p` (`abs_toBits_sub_le`).
-/

namespace Rounding

variable {α : Type*} [Field α] [LinearOrder α] [FloorRing α]

/-- The nearest integer, and the even one of two. -/
def nearest (x : α) : ℤ :=
  if Int.fract x < 1 / 2 ∨ Int.fract x = 1 / 2 ∧ ⌊x⌋ % 2 = 0 then ⌊x⌋ else ⌊x⌋ + 1

theorem floor_le_nearest (x : α) : ⌊x⌋ ≤ nearest x := by
  unfold nearest
  split_ifs <;> omega

theorem nearest_le_floor_add_one (x : α) : nearest x ≤ ⌊x⌋ + 1 := by
  unfold nearest
  split_ifs <;> omega

theorem exists_nearest_eq {a b : ℕ} {x : α} (ha : (a : α) ≤ x) (hb : x < b) :
    ∃ m : ℕ, nearest x = m ∧ a ≤ m ∧ m ≤ b := by
  have hlow := floor_le_nearest x
  have hhigh := nearest_le_floor_add_one x
  have hfloor : (a : ℤ) ≤ ⌊x⌋ := Int.le_floor.mpr (by rwa [Int.cast_natCast])
  have hfloor' : ⌊x⌋ < (b : ℤ) := Int.floor_lt.mpr (by rwa [Int.cast_natCast])
  exact ⟨(nearest x).toNat, by omega, by omega, by omega⟩

variable [IsStrictOrderedRing α]

theorem nearest_intCast (n : ℤ) : nearest (n : α) = n := by
  unfold nearest
  rw [Int.fract_intCast, Int.floor_intCast, if_pos (Or.inl one_half_pos)]

theorem nearest_natCast (n : ℕ) : nearest (n : α) = n := by
  have h := nearest_intCast (α := α) n
  rwa [Int.cast_natCast] at h

theorem abs_nearest_sub_le (x : α) : |(nearest x : α) - x| ≤ 1 / 2 := by
  have hx := Int.floor_add_fract x
  have h0 := Int.fract_nonneg x
  have h1 := Int.fract_lt_one x
  unfold nearest
  split_ifs with h
  · have hle : Int.fract x ≤ 1 / 2 := h.elim le_of_lt fun h => h.1.le
    rw [abs_le]
    constructor <;> linarith
  · have hge : 1 / 2 ≤ Int.fract x := not_lt.mp fun hlt => h (Or.inl hlt)
    push_cast
    rw [abs_le]
    constructor <;> linarith

/-- The unit of the last of `p` binary digits. -/
def unit (p : ℕ) (x : α) : α := 2 ^ (Int.log 2 |x| + 1 - p)

/-- The unit of a number that has `e + 1` digits in units of `2 ^ -b`. -/
theorem unit_eq {p e b : ℕ} {x : α} (hp : p ≤ e + 1) (hlow : 2 ^ e ≤ |x| * 2 ^ b)
    (hhigh : |x| * 2 ^ b < 2 ^ (e + 1)) : unit p x = 2 ^ (e + 1 - p) / 2 ^ b := by
  have hpos : 0 < |x| := pos_of_mul_pos_left (lt_of_lt_of_le (by positivity) hlow) (by positivity)
  have hlog : Int.log 2 |x| = e - b := by
    refine le_antisymm (Int.lt_add_one_iff.mp ?_) ?_
    · refine (Int.lt_zpow_iff_log_lt (by norm_num) hpos).mp ?_
      rw [sub_add_eq_add_sub, Nat.cast_ofNat, zpow_sub₀ two_ne_zero, zpow_natCast,
        lt_div_iff₀ (by positivity)]
      exact_mod_cast hhigh
    · refine (Int.zpow_le_iff_le_log (by norm_num) hpos).mp ?_
      rw [Nat.cast_ofNat, zpow_sub₀ two_ne_zero, zpow_natCast, zpow_natCast,
        div_le_iff₀ (by positivity)]
      exact hlow
  have hexp : (e - b + 1 - p : ℤ) = ((e + 1 - p : ℕ) : ℤ) - (b : ℕ) := by omega
  rw [unit, hlog, hexp, zpow_sub₀ two_ne_zero, zpow_natCast, zpow_natCast]

theorem unit_pos (p : ℕ) (x : α) : 0 < unit p x := zpow_pos two_pos _

/-- The nearest number with `p` binary digits. -/
def toBits (p : ℕ) (x : α) : α :=
  (if x < 0 then -1 else 1) * (nearest (|x| / unit p x) * unit p x)

theorem unit_le (p : ℕ) {x : α} (hx : x ≠ 0) : unit p x ≤ 2 * |x| / 2 ^ p := by
  have hlog := Int.zpow_log_le_self (b := 2) (by norm_num) (abs_pos.mpr hx)
  rw [Nat.cast_ofNat] at hlog
  unfold unit
  rw [zpow_sub₀ two_ne_zero, zpow_add_one₀ two_ne_zero, zpow_natCast, mul_comm]
  gcongr

theorem abs_toBits_sub_le (p : ℕ) (x : α) : |toBits p x - x| ≤ |x| / 2 ^ p := by
  have hunit := unit_pos p x
  rcases eq_or_ne x 0 with rfl | hx
  · have hzero : nearest (0 : α) = 0 := by
      have h := nearest_intCast (α := α) 0
      rwa [Int.cast_zero] at h
    simp [toBits, hzero]
  · have hround : abs ((nearest (|x| / unit p x) : α) * unit p x - |x|) ≤ unit p x / 2 := by
      have h := mul_le_mul_of_nonneg_right (abs_nearest_sub_le (|x| / unit p x)) hunit.le
      rwa [← abs_of_pos hunit, ← abs_mul, abs_of_pos hunit, sub_mul, div_mul_cancel₀ _ hunit.ne',
        one_div, inv_mul_eq_div] at h
    have hsign : toBits p x - x = (if x < 0 then -1 else 1) *
        ((nearest (|x| / unit p x) : α) * unit p x - |x|) := by
      unfold toBits
      split_ifs with h
      · rw [abs_of_neg h]
        ring
      · rw [abs_of_nonneg (not_lt.mp h)]
        ring
    have hone : |(if x < 0 then -1 else 1 : α)| = 1 := by split_ifs <;> simp
    rw [hsign, abs_mul, hone, one_mul]
    refine hround.trans ?_
    have hle := unit_le p hx
    rw [mul_div_assoc] at hle
    linarith

end Rounding
