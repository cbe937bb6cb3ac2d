import Mathlib.Algebra.Order.Floor.Div
import Psc.Lib.PhaseAcc

/-!
# The 10 kHz generator

`nco_srocgen.vhd`: a 32-bit phase accumulator, with a pulse where its top bit rises. The pulse is
the trigger of the snapshot writer. With the step that `main` sets a turn takes 10038.4 clocks, not
10000.

`tickCount_pulseOut`: the number of pulses is the phase three clocks before in turns, rounded.
`pulses_exact`: with a constant step, whatever is resynchronised, the pulses keep their distance,
and a window without resynchronisation has the pulses of its turns.
-/

namespace Psc.Nco

open Clocked PhaseAcc

/-- The input ports. -/
structure Input where
  reset : Bool
  stepSize : BitVec 32
  resyncPulse : Bool

/-- The registers. -/
structure State where
  acc : BitVec 32
  accMsb : Bool
  accMsbD : Bool
  outPulseInt : Bool

/-- The initial values, and those of a reset. -/
def cleared : State := ⟨0, false, false, false⟩

/-- One clock. -/
def step (s : State) (i : Input) : State :=
  if i.reset then cleared
  else
    { acc := if i.resyncPulse then 0 else s.acc + i.stepSize
      accMsb := s.acc.getLsbD 31
      accMsbD := s.accMsb
      outPulseInt := s.accMsb && !s.accMsbD }

/-- `pulse_out` at clock `n`. -/
def pulseOut (inp : ℕ → Input) (n : ℕ) : Bool := (run step cleared inp n).outPulseInt

theorem pulseOut_succ (inp : ℕ → Input) {n : ℕ} (h : pulseOut inp n = true) :
    pulseOut inp (n + 1) = false := by
  cases n with
  | zero => cases h
  | succ n =>
    unfold pulseOut at *
    rw [run_succ, step] at h ⊢
    by_cases hreset : (inp (n + 1)).reset = true
    · rw [if_pos hreset]
      rfl
    · rw [if_neg hreset]
      by_cases hreset' : (inp n).reset = true
      · rw [if_pos hreset'] at h
        cases h
      · rw [if_neg hreset', Bool.and_eq_true] at h
        have hmsbD : (run step cleared inp (n + 1)).accMsbD = true := by
          rw [run_succ, step, if_neg hreset']
          exact h.1
        simp [hmsbD]

/-- The step size that `main` writes to `NCO_STEPSIZE_REG`. -/
def stepSize10kHz : BitVec 32 := 427853

/-- What the clocks add to the phase. -/
def steps (inp : ℕ → Input) (n : ℕ) : Option ℕ :=
  if (inp n).resyncPulse then none else some (inp n).stepSize.toNat

/-- The phase before clock `n`. -/
def phaseAt (inp : ℕ → Input) (n : ℕ) : ℕ := phase (2 ^ 31) (steps inp) n

section Run

variable {inp : ℕ → Input} (hr : ∀ n, (inp n).reset = false)

include hr

theorem run_step_succ (n : ℕ) : run step cleared inp (n + 1) =
    { acc := if (inp n).resyncPulse then 0 else (run step cleared inp n).acc + (inp n).stepSize
      accMsb := (run step cleared inp n).acc.getLsbD 31
      accMsbD := (run step cleared inp n).accMsb
      outPulseInt := (run step cleared inp n).accMsb && !(run step cleared inp n).accMsbD } := by
  rw [run_succ]
  unfold step
  rw [if_neg (by simp [hr n])]

theorem toNat_acc_run (n : ℕ) :
    (run step cleared inp n).acc.toNat = phaseAt inp n % (2 * 2 ^ 31) := by
  induction n with
  | zero => rfl
  | succ n ih =>
    rw [run_step_succ hr]
    have hphase : phaseAt inp (n + 1) = if (inp n).resyncPulse
        then 2 * 2 ^ 31 * turns (2 ^ 31) (phaseAt inp n)
        else phaseAt inp n + (inp n).stepSize.toNat := by
      unfold phaseAt
      rw [phase, steps]
      split_ifs <;> rfl
    rw [hphase]
    split_ifs
    · simp
    · rw [BitVec.toNat_add, ih, ← Nat.pow_succ', Nat.mod_add_mod]

theorem msb_acc_run (n : ℕ) :
    (run step cleared inp n).acc.getLsbD 31 = upper (2 ^ 31) (phaseAt inp n) := by
  have hmsb := BitVec.msb_eq_decide (run step cleared inp n).acc
  rw [BitVec.msb_eq_getLsbD_last] at hmsb
  rw [hmsb, toNat_acc_run hr]
  rfl

theorem pulseOut_add_three (n : ℕ) :
    pulseOut inp (n + 3) = rises (2 ^ 31) (steps inp) n := by
  have hmsb : ∀ m, (run step cleared inp (m + 1)).accMsb = upper (2 ^ 31) (phaseAt inp m) := by
    intro m
    rw [run_step_succ hr, ← msb_acc_run hr]
  have hmsbD : (run step cleared inp (n + 2)).accMsbD = upper (2 ^ 31) (phaseAt inp n) := by
    rw [run_step_succ hr, ← hmsb]
  unfold pulseOut rises
  rw [run_step_succ hr]
  show ((run step cleared inp (n + 2)).accMsb && !(run step cleared inp (n + 2)).accMsbD) = _
  rw [hmsb, hmsbD]
  rfl

theorem pulseOut_of_lt {n : ℕ} (hn : n < 3) : pulseOut inp n = false := by
  unfold pulseOut
  match n with
  | 0 => rfl
  | 1 => rw [run_step_succ hr]; rfl
  | 2 =>
    have hmsb : (run step cleared inp 1).accMsb = false := by
      rw [run_step_succ hr]
      simp [cleared]
    rw [run_step_succ hr 1]
    simp [hmsb]

/-- **The number of pulses** is the phase in turns, rounded. -/
theorem tickCount_pulseOut (hs : ∀ n, (inp n).stepSize.toNat ≤ 2 ^ 31) (n : ℕ) :
    tickCount (pulseOut inp) n = turns (2 ^ 31) (phaseAt inp (n - 3)) := by
  have hcount := tickCount_delay (fun m hm => pulseOut_of_lt hr hm) (pulseOut_add_three hr) n
  rw [hcount]
  apply tickCount_rises (by norm_num)
  intro m d hd
  unfold steps at hd
  split_ifs at hd
  · simp at hd
  · rw [Option.mem_some] at hd
    exact hd ▸ hs m

theorem exists_rises_of_pulseOut {n : ℕ} (hn : pulseOut inp n = true) :
    ∃ m, n = m + 3 ∧ rises (2 ^ 31) (steps inp) m = true := by
  rcases Nat.lt_or_ge n 3 with hlt | hge
  · rw [pulseOut_of_lt hr hlt] at hn
    exact absurd hn Bool.false_ne_true
  · obtain ⟨m, rfl⟩ := Nat.exists_eq_add_of_le' hge
    rw [pulseOut_add_three hr] at hn
    exact ⟨m, rfl, hn⟩

end Run

/-! ## Without resynchronisation -/

/-- The inputs without a resynchronisation, with the step of `main`. -/
def freeRunning (_ : ℕ) : Input := ⟨false, stepSize10kHz, false⟩

theorem phaseAt_freeRunning (n : ℕ) : phaseAt freeRunning n = 427853 * n :=
  phase_const 427853 n

theorem tickCount_freeRunning (n : ℕ) :
    tickCount (pulseOut freeRunning) n = (427853 * (n - 3) + 2147483648) / 4294967296 := by
  have hstep : stepSize10kHz.toNat ≤ 2 ^ 31 := by decide
  rw [tickCount_pulseOut (fun _ => rfl) (fun _ => hstep), phaseAt_freeRunning]
  rfl

theorem pulseOut_freeRunning_spaced {n : ℕ} (hn : pulseOut freeRunning n = true) {j : ℕ}
    (hj : 0 < j) (hj' : j < 50) : pulseOut freeRunning (n + j) = false := by
  by_contra hp
  have hfirst := tickCount_succ_of_tick hn
  have hsecond := tickCount_succ_of_tick (by simpa using hp : pulseOut freeRunning (n + j) = true)
  have hmono : tickCount (pulseOut freeRunning) (n + 1) ≤
      tickCount (pulseOut freeRunning) (n + j) := tickCount_mono (by omega)
  simp only [tickCount_freeRunning] at hfirst hsecond hmono
  omega

/-! ## A constant step -/

/-- **The pulses of a constant step.** They are one clock long and at least the steps of half a turn
apart, and in `n` clocks without resynchronisation, from the accumulator `a` on, their number is
that of the turns; they come two clocks after the accumulator. -/
theorem pulses_exact {inp : ℕ → Input} {d : ℕ} (hr : ∀ n, (inp n).reset = false)
    (hs : ∀ n, (inp n).stepSize.toNat = d) (hpos : 1 ≤ d) (hd : d ≤ 2 ^ 31) :
    (∀ n, pulseOut inp n = true → pulseOut inp (n + 1) = false) ∧
    (∀ m n, m < n → pulseOut inp m = true → pulseOut inp n = true → 2 ^ 31 ⌈/⌉ d ≤ n - m) ∧
    ∀ t n a, (∀ k, t ≤ k → k < t + n → (inp k).resyncPulse = false) →
      a = (run step cleared inp t).acc.toNat →
      tickCount (pulseOut inp) (t + n + 3) - tickCount (pulseOut inp) (t + 3) =
        (a + n * d + 2 ^ 31) / 2 ^ 32 - (a + 2 ^ 31) / 2 ^ 32 := by
  have hsteps : ∀ n, ∀ e ∈ steps inp n, e = d := by
    intro n e he
    unfold steps at he
    split_ifs at he
    · simp at he
    · rw [Option.mem_some] at he
      exact he.symm.trans (hs n)
  refine ⟨fun n hn => pulseOut_succ inp hn, ?_, ?_⟩
  · intro m n hmn hm hn
    obtain ⟨m, rfl, hm'⟩ := exists_rises_of_pulseOut hr hm
    obtain ⟨n, rfl, hn'⟩ := exists_rises_of_pulseOut hr hn
    rw [ceilDiv_le_iff_le_mul (by omega), mul_comm, Nat.add_sub_add_right]
    exact le_mul_of_rises (by norm_num) hd hsteps hm' hn' (by omega)
  · rintro t n a hquiet rfl
    have hcount := tickCount_pulseOut hr fun k => (hs k).le.trans hd
    have hadd : phaseAt inp (t + n) = phaseAt inp t + n * d := by
      refine phase_add fun k hk hkn => ?_
      rw [steps, if_neg (by simp [hquiet k hk hkn]), hs]
    rw [hcount, hcount, Nat.add_sub_cancel, Nat.add_sub_cancel, hadd,
      turns_add_sub (by norm_num), toNat_acc_run hr]
    norm_num

/-- With the step of `main` the first 20000 clocks have two pulses. -/
theorem pulses_exact_freeRunning :
    tickCount (pulseOut freeRunning) 20003 - tickCount (pulseOut freeRunning) 3 = 2 := by
  obtain ⟨-, -, hcount⟩ := @pulses_exact freeRunning 427853 (fun _ => rfl) (fun _ => rfl)
    (by omega) (by omega)
  have hwindow := hcount 0 20000 0 (fun _ _ _ => rfl) rfl
  norm_num at hwindow
  exact hwindow

end Psc.Nco
