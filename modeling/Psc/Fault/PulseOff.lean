import Psc.Fault.Digio

/-!
# Off means off

The output of `pulse_enable.vhd` in the long run. In pulsed mode it is a square wave with the phase
of the time since the enable command came (`phase_run`), and in static mode the square wave register
keeps the level it had (`chEnable_run_iff`): only the pulse counter is cleared.

So a switch back to pulsed mode shows that level for one clock, whatever the enable command is by
then. `offMeansOff_iff`: the output is never on without a command in the two clocks before if and
only if no such switch (`Resumes`) happens.
-/

namespace Psc.PulseEnable

open Clocked

/-- The registers after a reset. -/
def cleared : State := ⟨0, false, false, false⟩

theorem step_of_reset {s : State} {i : Input} (h : i.reset = true) : step s i = cleared := by
  simp [step, pulseGeneration, h, cleared]

/-- The pulse generator is neither running nor reset. -/
def Input.static (i : Input) : Bool := !i.en && !i.reset

section Run

variable (period : BitVec 32) (inp : ℕ → Input)

/-- The pulse generator runs at clock `n`: in pulsed mode, with the enable command of the clock
before. -/
def pulsing : ℕ → Bool
  | 0 => false
  | n + 1 => (!(inp n).reset && (inp n).enableIn) && (!(inp (n + 1)).reset && (inp (n + 1)).en)

/-- The number of clocks, up to clock `n`, that the pulse generator has run without a break. -/
def pulseTime (n : ℕ) : ℕ := streak (fun _ => true) (pulsing inp) n

/-- The clock leaves the square wave high: it is in the second half of the period. -/
def leavesHigh (n : ℕ) : Bool :=
  pulsing inp n && decide (period.toNat / 2 ≤ pulseTime inp n % (period.toNat + 1))

/-- At clock `n + 2` the mode goes back from static to pulsed, with no enable command for two
clocks, and the square wave was high when the pulsed mode was left. -/
def Resumes (n : ℕ) : Prop :=
  (inp (n + 2)).en = true ∧ (inp n).enableIn = false ∧ (inp (n + 1)).enableIn = false ∧
    ∃ m ≤ n, leavesHigh period inp m = true ∧ ∀ k, m < k → k < n + 2 → (inp k).static = true

/-- `en_out` at clock `n`. -/
def enOutAt (n : ℕ) : Bool := enOut (run step cleared inp n) (inp n).en

/-- The output is on only after an enable command in the two clocks before. -/
def OffMeansOff : Prop :=
  ∀ n, enOutAt inp n = true → ∃ k, k < n ∧ n ≤ k + 2 ∧ (inp k).enableIn = true

variable {period inp}

theorem pulseTime_succ_of_pulsing {n : ℕ} (h : pulsing inp n = true) :
    pulseTime inp (n + 1) = pulseTime inp n + 1 :=
  streak_succ_of_held rfl h

theorem pulseTime_succ_of_not_pulsing {n : ℕ} (h : pulsing inp n = false) :
    pulseTime inp (n + 1) = 0 :=
  streak_succ_of_not_held rfl h

theorem enableInReg_run_succ (n : ℕ) :
    (run step cleared inp (n + 1)).enableInReg = (!(inp n).reset && (inp n).enableIn) := by
  rw [run_succ]
  cases h : (inp n).reset <;> simp [step, h]

theorem exists_enableIn_of_pulsing {n : ℕ} (h : pulsing inp n = true) :
    ∃ k, n = k + 1 ∧ (inp k).enableIn = true := by
  cases n with
  | zero => cases h
  | succ k =>
    rw [pulsing, Bool.and_eq_true, Bool.and_eq_true] at h
    exact ⟨k, rfl, h.1.2⟩

theorem pulsing_eq (n : ℕ) : pulsing inp n =
    ((run step cleared inp n).pulseEnable && (!(inp n).reset && (inp n).en)) := by
  cases n with
  | zero => rfl
  | succ n =>
    rw [run_succ, pulsing]
    cases h : (inp n).reset <;> simp [step, h]

theorem succ_mod_succ (a : ℕ) {p : ℕ} (hp : 0 < p) :
    (a + 1) % (p + 1) = if a % (p + 1) = p then 0 else a % (p + 1) + 1 := by
  have hlt : a % (p + 1) < p + 1 := Nat.mod_lt a (by omega)
  rw [Nat.add_mod_eq_ite, Nat.mod_eq_of_lt (show 1 < p + 1 by omega)]
  split_ifs <;> omega

theorem pulseGeneration_of_not_pulsing {n : ℕ} (h : pulsing inp n = false) :
    pulseGeneration (run step cleared inp n) (inp n) =
      (0, (inp n).static && (run step cleared inp n).chEnable) := by
  rw [pulsing_eq] at h
  unfold pulseGeneration Input.static
  cases hr : (inp n).reset with
  | true => simp
  | false =>
    cases hen : (inp n).en with
    | true =>
      rw [hr, hen, Bool.not_false, Bool.and_true, Bool.and_true] at h
      simp [h]
    | false => simp

section Phase

variable (hper : ∀ n, (inp n).periodIn = period)

include hper

theorem pulseGeneration_of_pulsing {n : ℕ} (h : pulsing inp n = true) :
    pulseGeneration (run step cleared inp n) (inp n) =
      if (run step cleared inp n).pulseCounter = period
      then (0, (run step cleared inp n).chEnable)
      else ((run step cleared inp n).pulseCounter + 1,
        decide (period / 2 ≤ (run step cleared inp n).pulseCounter)) := by
  rw [pulsing_eq] at h
  simp only [Bool.and_eq_true, Bool.not_eq_true'] at h
  rw [pulseGeneration_of_enabled h.2.1 h.2.2 h.1, hper]

theorem phase_run (hp : 2 ≤ period.toNat) (n : ℕ) :
    (run step cleared inp n).pulseCounter.toNat = pulseTime inp n % (period.toNat + 1) ∧
      (0 < pulseTime inp n → (run step cleared inp n).chEnable =
        decide (period.toNat / 2 ≤ (pulseTime inp n - 1) % (period.toNat + 1))) := by
  induction n with
  | zero => exact ⟨rfl, fun h => absurd h (by simp [pulseTime])⟩
  | succ n ih =>
    obtain ⟨hcnt, hch⟩ := ih
    cases hpul : pulsing inp n with
    | false =>
      rw [pulseTime_succ_of_not_pulsing hpul]
      refine ⟨?_, fun h => absurd h (Nat.lt_irrefl 0)⟩
      show (pulseGeneration (run step cleared inp n) (inp n)).1.toNat = _
      rw [pulseGeneration_of_not_pulsing hpul]
      rfl
    | true =>
      rw [pulseTime_succ_of_pulsing hpul, succ_mod_succ _ (by omega), Nat.add_sub_cancel]
      show (pulseGeneration (run step cleared inp n) (inp n)).1.toNat = _ ∧
        (_ → (pulseGeneration (run step cleared inp n) (inp n)).2 = _)
      rw [pulseGeneration_of_pulsing hper hpul]
      by_cases hend : (run step cleared inp n).pulseCounter = period
      · rw [hend] at hcnt
        rw [if_pos hend, if_pos hcnt.symm]
        refine ⟨rfl, fun _ => ?_⟩
        -- the level of the clock before is kept, which was in the second half
        obtain ⟨b, hb⟩ : ∃ b, pulseTime inp n = b + 1 := by
          refine ⟨pulseTime inp n - 1, ?_⟩
          cases hzero : pulseTime inp n with
          | zero => rw [hzero, Nat.zero_mod] at hcnt; omega
          | succ b => rfl
        have hlevel := hch (by omega)
        rw [hb, succ_mod_succ b (by omega)] at hcnt
        rw [hb, Nat.add_sub_cancel] at hlevel
        rw [hb, succ_mod_succ b (by omega), hlevel, decide_eq_decide]
        split_ifs at hcnt ⊢ <;> omega
      · have hne : pulseTime inp n % (period.toNat + 1) ≠ period.toNat := by
          rw [← hcnt]
          exact fun h => hend (BitVec.eq_of_toNat_eq h)
        rw [if_neg hend, if_neg hne, ← hcnt]
        have hlt : pulseTime inp n % (period.toNat + 1) < period.toNat + 1 :=
          Nat.mod_lt _ (by omega)
        refine ⟨?_, fun _ => rfl⟩
        rw [BitVec.toNat_add]
        exact Nat.mod_eq_of_lt (by have := period.isLt; simp; omega)

theorem chEnable_run_succ (hp : 2 ≤ period.toNat) (n : ℕ) :
    (run step cleared inp (n + 1)).chEnable =
      (leavesHigh period inp n || ((inp n).static && (run step cleared inp n).chEnable)) := by
  unfold leavesHigh
  cases hpul : pulsing inp n with
  | true =>
    have hlevel := (phase_run hper hp (n + 1)).2
    rw [pulseTime_succ_of_pulsing hpul, Nat.add_sub_cancel] at hlevel
    rw [pulsing_eq, Bool.and_eq_true, Bool.and_eq_true] at hpul
    rw [hlevel (Nat.succ_pos _)]
    simp [Input.static, hpul.2.2]
  | false =>
    rw [Bool.false_and, Bool.false_or]
    show (pulseGeneration (run step cleared inp n) (inp n)).2 = _
    rw [pulseGeneration_of_not_pulsing hpul]

/-- **The square wave register** has the level at which the pulsed mode was left. -/
theorem chEnable_run_iff (hp : 2 ≤ period.toNat) (n : ℕ) :
    (run step cleared inp n).chEnable = true ↔ ∃ m < n, leavesHigh period inp m = true ∧
      ∀ k, m < k → k < n → (inp k).static = true := by
  induction n with
  | zero => simp [cleared]
  | succ n ih =>
    rw [chEnable_run_succ hper hp, Bool.or_eq_true, Bool.and_eq_true, ih]
    constructor
    · rintro (hhigh | ⟨hstatic, m, hm, hhigh, hkept⟩)
      · exact ⟨n, n.lt_succ_self, hhigh, fun k h1 h2 => by omega⟩
      · refine ⟨m, by omega, hhigh, fun k h1 h2 => ?_⟩
        rcases Nat.lt_succ_iff_lt_or_eq.mp h2 with h2 | rfl
        · exact hkept k h1 h2
        · exact hstatic
    · rintro ⟨m, hm, hhigh, hkept⟩
      rcases Nat.lt_succ_iff_lt_or_eq.mp hm with hm | rfl
      · exact .inr ⟨hkept n hm n.lt_succ_self, m, hm, hhigh, fun k h1 h2 => hkept k h1 (by omega)⟩
      · exact .inl hhigh

/-- **Off means off** if and only if the mode is never switched back to pulsed, without an enable
command, after it was left in the second half of a period. -/
theorem offMeansOff_iff (hp : 2 ≤ period.toNat) :
    OffMeansOff inp ↔ ∀ n, ¬Resumes period inp n := by
  constructor
  · rintro hoff n ⟨hen, hcmd, hcmd', m, hm, hhigh, hkept⟩
    have hout : enOutAt inp (n + 2) = true := by
      unfold enOutAt enOut
      rw [if_pos hen, chEnable_run_iff hper hp]
      exact ⟨m, by omega, hhigh, hkept⟩
    obtain ⟨k, hlt, hle, hon⟩ := hoff (n + 2) hout
    rcases (show k = n ∨ k = n + 1 by omega) with rfl | rfl
    · exact absurd hon (by simp [hcmd])
    · exact absurd hon (by simp [hcmd'])
  · intro hnone n hout
    unfold enOutAt enOut at hout
    by_cases hen : (inp n).en = true
    · rw [if_pos hen, chEnable_run_iff hper hp] at hout
      obtain ⟨m, hm, hhigh, hkept⟩ := hout
      rcases Nat.eq_or_lt_of_le hm with rfl | hlate
      · -- a pulse of the clock before needs the command of the one before that
        rw [leavesHigh, Bool.and_eq_true] at hhigh
        obtain ⟨k, rfl, hcmd⟩ := exists_enableIn_of_pulsing hhigh.1
        exact ⟨k, by omega, le_rfl, hcmd⟩
      · obtain ⟨k, rfl⟩ : ∃ k, n = k + 2 := ⟨n - 2, by omega⟩
        by_contra hcmd
        push Not at hcmd
        have hcmd0 := hcmd k (by omega) (by omega)
        have hcmd1 := hcmd (k + 1) (by omega) (by omega)
        exact hnone k ⟨hen, Bool.eq_false_iff.mpr hcmd0, Bool.eq_false_iff.mpr hcmd1, m, by omega,
          hhigh, hkept⟩
    · -- the static output is the command of the clock before
      rw [if_neg hen] at hout
      cases n with
      | zero => cases hout
      | succ k =>
        rw [enableInReg_run_succ, Bool.and_eq_true] at hout
        exact ⟨k, k.lt_succ_self, by omega, hout.2⟩

end Phase

end Run

/-! ## A switch in the second half -/

/-- Pulsed mode with the period 2 but from clock 3 on for `pause` clocks, and an enable command in
the first three clocks. -/
def paused (pause n : ℕ) : Input := ⟨false, n < 3 || pause + 3 ≤ n, n < 3, 2⟩

/-- Without a pause, off means off. -/
theorem unpaused_off : OffMeansOff (paused 0) := by
  rw [offMeansOff_iff (fun _ => rfl : ∀ n, (paused 0 n).periodIn = 2) (by simp)]
  rintro n ⟨-, -, -, m, hm, -, hstatic⟩
  have hlast := hstatic (n + 1) (by omega) (by omega)
  simp [paused, Input.static] at hlast
  omega

/-- After a pause of two clocks the output comes on again, without a command since clock 2. -/
theorem paused_not_off : ¬OffMeansOff (paused 2) := by
  intro hoff
  obtain ⟨k, hlt, hle, hon⟩ := hoff 5 rfl
  simp [paused] at hon
  omega

end Psc.PulseEnable
