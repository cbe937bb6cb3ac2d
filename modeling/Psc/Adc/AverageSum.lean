import Psc.Adc.Average
import Psc.Control.Readback

/-!
# The average in one mode

The output of `average.vhd` while the mode stays as it is, as `ReadAccumSA` divides it.

The sum is over `N` of the last `N + 1` inputs (`ConstantMode.avgOut`). It is the sum of the last
`N` exactly if the input left out is equal to the one that stands in its place (`averages_iff`). In
mode 11 `ReadAccumSA` has no divisor.
-/

namespace Psc.Average

open Clocked RingLog Control

/-- A run in one mode: from the reset at clock `r` on the starts are more than `N + 4` clocks
apart, with `data_in` held for two clocks after each. -/
structure ConstantMode (m : BitVec 2) (inp : ℕ → Input) (r : ℕ) : Prop where
  sel : ∀ n, (inp n).sel = m
  reset : (inp r).reset = true
  running : ∀ n, r < n → (inp n).reset = false
  apart : ∀ t u, starts inp r t = true → starts inp r u = true → t < u → t + (limit m + 4) < u
  held : ∀ t, starts inp r t = true → ∀ k ≤ 2, (inp (t + k)).dataIn = (inp t).dataIn

/-- The inputs of the starts from the reset up to clock `n`, the latest first. -/
def inputs (inp : ℕ → Input) (r n : ℕ) : List ℤ :=
  (ticks (starts inp r) n).map fun u => (inp u).dataIn.toInt

/-- The inputs, and before them what the RAM holds at the reset. -/
def history (m : BitVec 2) (inp : ℕ → Input) (r n : ℕ) : List ℤ :=
  inputs inp r n ++ byAge (words (regs inp (r + 1)).ram) (limit m) (regs inp (r + 1)).ramCnt

/-- How many starts ago an input was left out. -/
def leftOut (m : BitVec 2) (inp : ℕ → Input) (r n : ℕ) : ℕ :=
  ((regs inp (r + 1)).ramCnt + (inputs inp r n).length) % (limit m + 1)

/-- The input `N` starts ago, which is still in the RAM, is equal to the one left out. -/
def MakesUp (m : BitVec 2) (inp : ℕ → Input) (r n : ℕ) : Prop :=
  (history m inp r n)[limit m]? = (history m inp r n)[leftOut m inp r n]?

instance (m : BitVec 2) (inp : ℕ → Input) (r n : ℕ) : Decidable (MakesUp m inp r n) :=
  inferInstanceAs (Decidable (_ = _))

section OneMode

variable {m : BitVec 2} {inp : ℕ → Input} {r n t : ℕ}

theorem ConstantMode.modeAt (h : ConstantMode m inp r) (u : ℕ) : modeAt inp u = m := h.sel _

theorem ConstantMode.paced (h : ConstantMode m inp r) : Paced inp r where
  reset := h.reset
  running := h.running
  apart t u ht hu htu := by
    have := h.apart t u ht hu htu
    rw [h.modeAt]
    unfold span
    split_ifs <;> omega

/-- In one mode the index never passes the limit, whatever the starts and resets. -/
theorem ramCnt_regs_le (hsel : ∀ n, (inp n).sel = m) (n : ℕ) :
    ((regs inp n).mode = none ∨ (regs inp n).mode = some m) ∧
      ((regs inp n).state = .writeToRam → (regs inp n).addrMax = limit m) ∧
      (regs inp n).ramCnt ≤ limit m := by
  induction n with
  | zero => exact ⟨Or.inl rfl, fun h => Phase.noConfusion h, Nat.zero_le _⟩
  | succ n ih =>
    obtain ⟨hmode, hmax, hle⟩ := ih
    rw [regs_succ]
    refine ⟨Or.inr (by rw [mode_step, hsel]), ?_⟩
    have hdoes := does_step (regs inp n) (inp n)
    generalize regs inp n = s at *
    generalize step s (inp n) = s' at *
    cases hdoes with
    | reset => exact ⟨fun h => Phase.noConfusion h, hle⟩
    | wait hstate => exact ⟨fun h => Phase.noConfusion (hstate.symm.trans h), hle⟩
    | raw => exact ⟨fun h => Phase.noConfusion h, hle⟩
    | begin m' hstate hstart hm' =>
      have hsome := hmode.resolve_left (by simp [hm'])
      rw [Option.some_inj.mp (hm'.symm.trans hsome)]
      exact ⟨fun _ => rfl, hle⟩
    | write hstate =>
      refine ⟨fun h => Phase.noConfusion h, ?_⟩
      dsimp only
      rw [ramCnt_write, hmax hstate]
      exact nextTurn_le hle
    | add hstate => exact ⟨fun h => Phase.noConfusion (hstate.symm.trans h), hle⟩
    | last => exact ⟨fun h => Phase.noConfusion h, hle⟩
    | finish => exact ⟨fun h => Phase.noConfusion h, hle⟩

theorem ConstantMode.samples_eq (h : ConstantMode m inp r) (n : ℕ) :
    samples inp (ticks (starts inp r) n) = inputs inp r n := by
  unfold samples inputs
  apply List.map_congr_left
  intro u hu
  rw [h.held u (tick_of_mem_ticks hu) 1 (by norm_num)]

/-- The output is the sum of the last `N + 1` inputs but the one left out. -/
theorem ConstantMode.avgOut (h : ConstantMode m inp r) (hm : m ≠ 0)
    (ht : starts inp r t = true) :
    (regs inp (t + (limit m + 4))).avgOut.toInt =
      (((history m inp r (t + 1)).take (limit m + 1)).eraseIdx (leftOut m inp r (t + 1))).sum := by
  have hmode := h.modeAt t
  have hout := (h.paced.average ht (by rwa [hmode])).2.1
  have hcnt : (regs inp (r + 1)).store.ramCnt ≤ limit m := (ramCnt_regs_le h.sel (r + 1)).2.2
  rw [hmode, sumTo_stored hm hcnt fun u _ => h.modeAt u, h.samples_eq] at hout
  rw [hout]
  unfold history leftOut inputs
  rw [List.length_map]
  rfl

theorem ConstantMode.avgOut_eq_iff (h : ConstantMode m inp r) (hm : m ≠ 0)
    (ht : starts inp r t = true) (hN : limit m ≤ (inputs inp r (t + 1)).length) :
    (regs inp (t + (limit m + 4))).avgOut.toInt = ((inputs inp r (t + 1)).take (limit m)).sum ↔
      MakesUp m inp r (t + 1) := by
  have hlast : (history m inp r (t + 1)).take (limit m) =
      (inputs inp r (t + 1)).take (limit m) := List.take_append_of_le_length hN
  have hlen : limit m < (history m inp r (t + 1)).length := by
    unfold history
    rw [List.length_append, length_byAge]
    omega
  rw [h.avgOut hm ht, ← hlast]
  exact sum_eraseIdx_take_iff (mod_succ_le _ _) hlen

theorem readAccumSa_eq_iff (hm : m ≠ 0) (x : BitVec 32) (sum : ℤ) :
    readAccumSa x (m.setWidth 32) = some ((sum : ℚ) / limit m) ↔ m ≠ 3 ∧ x.toInt = sum := by
  have hcases : m = 1 ∨ m = 2 ∨ m = 3 := by
    have := m.isLt
    bv_omega
  rcases hcases with rfl | rfl | rfl
  · rw [show readAccumSa x _ = some ((x.toInt : ℚ) / 167) from rfl, Option.some_inj,
      show limit 1 = 167 from rfl, Nat.cast_ofNat, div_left_inj' (by norm_num)]
    simp
  · rw [show readAccumSa x _ = some ((x.toInt : ℚ) / 500) from rfl, Option.some_inj,
      show limit 2 = 500 from rfl, Nat.cast_ofNat, div_left_inj' (by norm_num)]
    simp
  · rw [show readAccumSa x _ = none from rfl]
    simp

end OneMode

/-- **The moving average.** In a run in a mode that averages over `N` samples, `done` comes up
`N + 4` clocks after each start, and from the `N`th start on `avg_out` is then the sum of the last
`N` inputs exactly if the input left out is made up for, and `ReadAccumSA` their mean exactly if the
mode is not 11 besides. No sum overflows. -/
theorem averages_iff {m : BitVec 2} (hm : m ≠ 0) {inp : ℕ → Input} {r : ℕ}
    (h : ConstantMode m inp r) :
    (∀ t, starts inp r t = true → limit m ≤ (inputs inp r (t + 1)).length →
      let s := regs inp (t + (limit m + 4))
      let sum := ((inputs inp r (t + 1)).take (limit m)).sum
      (∀ n, t < n → n < t + (limit m + 4) → (regs inp n).done = false) ∧ s.done = true ∧
      (s.avgOut.toInt = sum ↔ MakesUp m inp r (t + 1)) ∧
      (s.avgOut.toInt = sum ∧ readAccumSa s.avgOut (m.setWidth 32) = some ((sum : ℚ) / limit m) ↔
        m ≠ 3 ∧ MakesUp m inp r (t + 1))) ∧
    ∀ n, r < n → NoOverflow (regs inp n) := by
  refine ⟨fun t ht hN => ?_, fun n hn => (h.paced.inv hn).noOverflow⟩
  have hmode := h.modeAt t
  obtain ⟨hdone, -, hlow⟩ := h.paced.average ht (by rwa [hmode])
  rw [hmode] at hdone hlow
  have hiff := h.avgOut_eq_iff hm ht hN
  refine ⟨hlow, hdone, hiff, ?_⟩
  rw [readAccumSa_eq_iff hm, hiff]
  constructor
  · rintro ⟨hmake, hm3, -⟩
    exact ⟨hm3, hmake⟩
  · rintro ⟨hm3, hmake⟩
    exact ⟨hmake, hm3, hmake⟩

/-- A run in mode 11, with a start every fifteen clocks. -/
def rampRun (x : ℕ → BitVec 20) (n : ℕ) : Input := ⟨n == 0, n % 15 == 1, x (n / 15), 3⟩

theorem constantMode_rampRun (x : ℕ → BitVec 20) : ConstantMode 3 (rampRun x) 0 where
  sel _ := rfl
  reset := rfl
  running n hn := by simp [rampRun, hn.ne']
  apart t u ht hu htu := by
    have ht' : t % 15 = 1 := by simpa [rampRun] using start_of_starts ht
    have hu' : u % 15 = 1 := by simpa [rampRun] using start_of_starts hu
    show t + (10 + 4) < u
    omega
  held t ht k hk := by
    have ht' : t % 15 = 1 := by simpa [rampRun] using start_of_starts ht
    show x ((t + k) / 15) = x (t / 15)
    rw [show (t + k) / 15 = t / 15 by omega]

/-- The first ten of the inputs 1, 2, 3, … are added up. -/
theorem first_ten_average :
    (regs (rampRun fun k => BitVec.ofNat 20 (k + 1)) (136 + (limit 3 + 4))).avgOut.toInt = 55 := by
  have h := (averages_iff (by decide) (constantMode_rampRun fun k => BitVec.ofNat 20 (k + 1))).1
    136 (by decide) (by decide)
  exact (h.2.2.1.mpr (by decide)).trans (by decide)

/-- The eleventh input is left out: where it is 1 and the others 0, the sum of the last ten is 1 and
the output 0. -/
theorem eleventh_left_out :
    let inp := rampRun fun k => if k = 10 then 1 else 0
    ConstantMode 3 inp 0 ∧ starts inp 0 151 = true ∧ (inputs inp 0 152).length = 11 ∧
      ((inputs inp 0 152).take (limit 3)).sum = 1 ∧
      (regs inp (151 + (limit 3 + 4))).avgOut.toInt = 0 := by
  have h := constantMode_rampRun fun k => if k = 10 then 1 else 0
  refine ⟨h, by decide, by decide, by decide, ?_⟩
  exact (h.avgOut (by decide) (by decide)).trans (by decide)

end Psc.Average
