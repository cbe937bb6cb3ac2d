import Psc.Lib.Clocked

/-!
# Phase accumulators

A phase accumulator adds a step to its phase at each clock, and shows where in a turn of `2 * h` the
phase is. A pulse comes where the phase goes over to the second half of a turn (`rises`).

With steps of at most half a turn the number of pulses is the phase in turns, rounded to the nearest
(`tickCount_rises`). A clock may also put the phase to the beginning of a turn; if that is taken to
be the nearest one, the count stays right, whatever the half in which it happens.
-/

namespace PhaseAcc

open Clocked

variable (h : ℕ)

/-- The phase is in the second half of its turn. -/
def upper (φ : ℕ) : Bool := h ≤ φ % (2 * h)

/-- The phase in turns, rounded. -/
def turns (φ : ℕ) : ℕ := (φ + h) / (2 * h)

/-- The phase before clock `n`, with its turns. A clock adds a step or, with `none`, puts the phase
to the beginning of the nearest turn. -/
def phase (steps : ℕ → Option ℕ) : ℕ → ℕ
  | 0 => 0
  | n + 1 =>
    match steps n with
    | some d => phase steps n + d
    | none => 2 * h * turns h (phase steps n)

/-- The phase goes over to the second half of a turn at clock `n`. -/
def rises (steps : ℕ → Option ℕ) (n : ℕ) : Bool :=
  upper h (phase h steps (n + 1)) && !upper h (phase h steps n)

variable {h}

section Turns

variable (hh : 0 < h)

include hh

theorem turns_eq (φ : ℕ) : turns h φ = φ / (2 * h) + if upper h φ then 1 else 0 := by
  have hlt : φ % (2 * h) < 2 * h := Nat.mod_lt _ (by omega)
  have hh' : h % (2 * h) = h := Nat.mod_eq_of_lt (by omega)
  have hdiv : h / (2 * h) = 0 := Nat.div_eq_of_lt (by omega)
  unfold turns upper
  simp only [decide_eq_true_eq]
  split_ifs with hup
  · rw [Nat.add_div_eq_of_le_mod_add_mod (by omega) (by omega), hdiv, Nat.add_zero]
  · rw [Nat.add_div_eq_of_add_mod_lt (by omega), hdiv]

/-- A step of at most half a turn counts one more turn exactly if it comes to the second half. -/
theorem turns_add {d : ℕ} (hd : d ≤ h) (φ : ℕ) :
    turns h (φ + d) = turns h φ + if upper h (φ + d) && !upper h φ then 1 else 0 := by
  have hd' : d % (2 * h) = d := Nat.mod_eq_of_lt (by omega)
  have hdiv : d / (2 * h) = 0 := Nat.div_eq_of_lt (by omega)
  have hlt : φ % (2 * h) < 2 * h := Nat.mod_lt _ (by omega)
  rw [turns_eq hh, turns_eq hh]
  by_cases hwrap : 2 * h ≤ φ % (2 * h) + d
  · -- the step leads to the next turn, so it starts in a second half and ends in a first one
    have hle : 2 * h ≤ φ % (2 * h) + d % (2 * h) := by rwa [hd']
    have hquot := Nat.add_div_eq_of_le_mod_add_mod hle (by omega)
    have hrem := Nat.add_mod_add_of_le_add_mod hle
    have hstart : upper h φ = true := by
      unfold upper
      simp only [decide_eq_true_eq]
      omega
    have hend : upper h (φ + d) = false := by
      unfold upper
      simp only [decide_eq_false_iff_not]
      omega
    rw [hquot, hdiv, hstart, hend]
    simp
  · have hsame : φ % (2 * h) + d % (2 * h) < 2 * h := by omega
    have hquot := Nat.add_div_eq_of_add_mod_lt hsame
    have hrem := Nat.add_mod_of_add_mod_lt hsame
    have hkeep : upper h φ = true → upper h (φ + d) = true := by
      unfold upper
      simp only [decide_eq_true_eq]
      omega
    rw [hquot, hdiv]
    cases hstart : upper h φ with
    | true => rw [hkeep hstart]; simp
    | false => simp

theorem turns_mul (t : ℕ) : turns h (2 * h * t) = t ∧ upper h (2 * h * t) = false := by
  have hup : upper h (2 * h * t) = false := by
    unfold upper
    rw [Nat.mul_mod_right]
    simpa using hh.ne'
  refine ⟨?_, hup⟩
  rw [turns_eq hh, hup, Nat.mul_div_cancel_left _ (by omega)]
  simp

end Turns

/-- **Pulses are turns.** The number of pulses is the phase in turns, rounded. -/
theorem tickCount_rises (hh : 0 < h) {steps : ℕ → Option ℕ} (hsteps : ∀ n, ∀ d ∈ steps n, d ≤ h)
    (n : ℕ) : tickCount (rises h steps) n = turns h (phase h steps n) := by
  induction n with
  | zero =>
    have hzero := (turns_mul hh 0).1
    simpa [phase] using hzero.symm
  | succ n ih =>
    have hstep : turns h (phase h steps (n + 1)) =
        turns h (phase h steps n) + if rises h steps n then 1 else 0 := by
      unfold rises
      rw [phase]
      cases hs : steps n with
      | some d => exact turns_add hh (hsteps n d hs) _
      | none =>
        obtain ⟨hturns, hup⟩ := turns_mul hh (turns h (phase h steps n))
        simp only [hturns, hup]
        simp
    cases hr : rises h steps n with
    | true => rw [tickCount_succ_of_tick hr, ih, hstep, hr, if_pos rfl]
    | false => rw [tickCount_succ_of_not_tick hr, ih, hstep, hr]; simp

section Spacing

variable (hh : 0 < h) {steps : ℕ → Option ℕ} {d m n : ℕ} (hd : d ≤ h)
  (hsteps : ∀ n, ∀ e ∈ steps n, e = d)

include hh hd hsteps

/-- After a pulse the phase is in the second half of a turn, or no farther in the first than the
clocks since then have brought it. -/
theorem upper_or_mod_le (hm : rises h steps m = true) (j : ℕ) :
    upper h (phase h steps (m + 1 + j)) = true ∨
      phase h steps (m + 1 + j) % (2 * h) ≤ j * d := by
  induction j with
  | zero =>
    left
    unfold rises at hm
    rw [Bool.and_eq_true] at hm
    exact hm.1
  | succ j ih =>
    rw [← Nat.add_assoc, phase]
    cases hs : steps (m + 1 + j) with
    | none =>
      right
      dsimp only
      rw [Nat.mul_mod_right]
      exact Nat.zero_le _
    | some e =>
      obtain rfl := hsteps _ e hs
      generalize phase h steps (m + 1 + j) = φ at *
      have hlt : φ % (2 * h) < 2 * h := Nat.mod_lt _ (by omega)
      have he : e % (2 * h) = e := Nat.mod_eq_of_lt (by omega)
      unfold upper at *
      simp only [decide_eq_true_eq] at *
      rw [Nat.succ_mul j]
      by_cases hwrap : 2 * h ≤ φ % (2 * h) + e
      · have hrem := Nat.add_mod_add_of_le_add_mod (show 2 * h ≤ φ % (2 * h) + e % (2 * h) by
          rwa [he])
        omega
      · have hrem := Nat.add_mod_of_add_mod_lt (show φ % (2 * h) + e % (2 * h) < 2 * h by omega)
        omega

/-- **Pulses are apart.** Between two pulses there are the steps of half a turn. -/
theorem le_mul_of_rises (hm : rises h steps m = true) (hn : rises h steps n = true) (hmn : m < n) :
    h ≤ (n - m) * d := by
  obtain ⟨j, rfl⟩ := Nat.exists_eq_add_of_lt hmn
  have hlow := upper_or_mod_le hh hd hsteps hm j
  unfold rises at hn
  rw [show m + j + 1 = m + 1 + j by omega] at *
  rw [Bool.and_eq_true, phase] at hn
  obtain ⟨hup, hdown⟩ := hn
  cases hs : steps (m + 1 + j) with
  | none =>
    rw [hs] at hup
    rw [(turns_mul hh _).2] at hup
    exact absurd hup Bool.false_ne_true
  | some e =>
    obtain rfl := hsteps _ e hs
    rw [hs] at hup
    generalize phase h steps (m + 1 + j) = φ at *
    have he : e % (2 * h) = e := Nat.mod_eq_of_lt (by omega)
    have hle := Nat.add_mod φ e (2 * h)
    have hle' := Nat.mod_le (φ % (2 * h) + e % (2 * h)) (2 * h)
    unfold upper at *
    simp only [Bool.not_eq_true', decide_eq_true_eq, decide_eq_false_iff_not] at *
    rw [show m + 1 + j - m = j + 1 by omega, Nat.succ_mul j]
    omega

end Spacing

theorem phase_add {steps : ℕ → Option ℕ} {t n d : ℕ}
    (hsteps : ∀ k, t ≤ k → k < t + n → steps k = some d) :
    phase h steps (t + n) = phase h steps t + n * d := by
  induction n with
  | zero => simp
  | succ n ih =>
    rw [← Nat.add_assoc, phase, hsteps (t + n) (by omega) (by omega),
      ih fun k hk hkn => hsteps k hk (by omega), Nat.succ_mul n]
    exact Nat.add_assoc _ _ _

theorem some_of_rises (hh : 0 < h) {steps : ℕ → Option ℕ} {d m : ℕ}
    (hsteps : ∀ n, ∀ e ∈ steps n, e = d) (hm : rises h steps m = true) : steps m = some d := by
  unfold rises at hm
  rw [Bool.and_eq_true, phase] at hm
  cases hs : steps m with
  | some e => rw [hsteps m e hs]
  | none =>
    rw [hs] at hm
    dsimp only at hm
    rw [(turns_mul hh _).2] at hm
    exact absurd hm.1 Bool.false_ne_true

/-- **Pulses in sequence.** Without resynchronisation between two pulses in sequence there is one
turn between them, but for less than a step. -/
theorem turn_of_rises (hh : 0 < h) {steps : ℕ → Option ℕ} {d m n : ℕ} (hd : d ≤ h)
    (hsteps : ∀ n, ∀ e ∈ steps n, e = d) (hm : rises h steps m = true)
    (hn : rises h steps n = true) (hmn : m < n)
    (hnone : ∀ k, m < k → k < n → rises h steps k = false ∧ steps k ≠ none) :
    2 * h < (n - m + 1) * d ∧ (n - m) * d < 2 * h + d := by
  have hle : ∀ k, ∀ e ∈ steps k, e ≤ h := fun k e he => (hsteps k e he).le.trans hd
  obtain ⟨g, rfl⟩ := Nat.exists_eq_add_of_lt hmn
  have hwindow : phase h steps (m + 1 + g) = phase h steps (m + 1) + g * d := by
    refine phase_add fun k hmk hkn => ?_
    cases hs : steps k with
    | none => exact absurd hs (hnone k (by omega) (by omega)).2
    | some e => rw [hsteps k e hs]
  have hfirst : phase h steps (m + 1) = phase h steps m + d := by
    rw [phase, some_of_rises hh hsteps hm]
  have hlast : phase h steps (m + g + 1 + 1) = phase h steps (m + g + 1) + d := by
    rw [phase, some_of_rises hh hsteps hn]
  -- the pulses before each of the four clocks
  have hcount : tickCount (rises h steps) (m + g + 1) = tickCount (rises h steps) (m + 1) :=
    congrArg List.length (ticks_eq_of_none (by omega) fun k hmk hkn =>
      (hnone k (by omega) (by omega)).1)
  have hcount' := tickCount_succ_of_tick hm
  have hcount'' := tickCount_succ_of_tick hn
  simp only [tickCount_rises hh hle] at hcount hcount' hcount''
  rw [hlast] at hcount''
  rw [show m + g + 1 = m + 1 + g by omega, hwindow] at hcount hcount''
  rw [hfirst] at hcount hcount' hcount''
  generalize phase h steps m = φ at *
  unfold turns at *
  obtain ⟨T, hT⟩ : ∃ T, (φ + h) / (2 * h) = T := ⟨_, rfl⟩
  rw [hT] at hcount'
  have hlow := (Nat.div_lt_iff_lt_mul (show 0 < 2 * h by omega)).mp
    (show (φ + h) / (2 * h) < T + 1 by omega)
  have hmid := (Nat.le_div_iff_mul_le (show 0 < 2 * h by omega)).mp
    (show T + 1 ≤ (φ + d + h) / (2 * h) by omega)
  have hmid' := (Nat.div_lt_iff_lt_mul (show 0 < 2 * h by omega)).mp
    (show (φ + d + g * d + h) / (2 * h) < T + 2 by omega)
  have hhigh := (Nat.le_div_iff_mul_le (show 0 < 2 * h by omega)).mp
    (show T + 2 ≤ (φ + d + g * d + d + h) / (2 * h) by omega)
  rw [show m + g + 1 - m + 1 = g + 2 by omega, show m + g + 1 - m = g + 1 by omega, Nat.add_mul g 2,
    Nat.succ_mul g]
  rw [Nat.add_mul] at hlow hmid hmid' hhigh
  constructor <;> omega

theorem turns_add_sub (hh : 0 < h) (φ x : ℕ) :
    turns h (φ + x) - turns h φ =
      (φ % (2 * h) + x + h) / (2 * h) - (φ % (2 * h) + h) / (2 * h) := by
  unfold turns
  have hφ := Nat.mod_add_div φ (2 * h)
  generalize φ % (2 * h) = a at *
  generalize φ / (2 * h) = q at *
  subst hφ
  rw [show a + 2 * h * q + x + h = a + x + h + 2 * h * q by omega,
    show a + 2 * h * q + h = a + h + 2 * h * q by omega,
    Nat.add_mul_div_left _ _ (by omega : 0 < 2 * h), Nat.add_mul_div_left _ _ (by omega)]
  omega

theorem phase_const (d n : ℕ) : phase h (fun _ => some d) n = d * n := by
  induction n with
  | zero => rfl
  | succ n ih => rw [phase, ih, Nat.mul_succ]

end PhaseAcc
