import Psc.Dac.SmoothRamp

/-!
# One ramp in a run

A ramp starts at the clock that takes the machine from IDLE to RUN_RAMP and runs until the tick
that takes it back. Under the assumptions on the CORDIC core (`Cosine`) and with `phase_inc` held
while it runs (`Ramp`), each register is the one after as many beats as there were ticks
(`Ramp.view_eq`).

1. The first cosine that the pipeline of a ramp sees is not one of its own: it is the newest
   sample from before the ramp. The fourth tick registers the value made of it.
2. The ramp ends two ticks after the phase is past zero, with the pipeline four ticks deep.

`ramp_monotone_iff`: a ramp is monotone exactly if it has no fifth tick or the fourth
registers the starting point. `rampout_eq_target_iff`: for which ramps the value left at the end
is the target.
-/

namespace Psc.SmoothRamp

open NumericStd Clocked

/-- What the machine relies on in the CORDIC core: a cosine with 20 fractional bits, monotone from
-π to 0. -/
structure Cosine (cosine : BitVec 24 → BitVec 24) : Prop where
  unit : ∀ p, Unit (cosine p)
  mono : ∀ p q, (phaseWord negPi).toInt ≤ p.toInt → p.toInt ≤ q.toInt → q.toInt ≤ 0 →
    (cosine p).toInt ≤ (cosine q).toInt
  atNegPi : (cosine (phaseWord negPi)).toInt = -2 ^ 20
  atZero : (cosine 0).toInt = 2 ^ 20

/-! ## Ramps -/

section Ramps

variable (x : ℕ → Core) (inp : ℕ → Input)

/-- The ramp that starts at clock `t` runs at clock `u`. -/
structure Running (t u : ℕ) : Prop where
  starts : (x t).regs.state = .idle
  after : t < u
  runs : ∀ v, t < v → v ≤ u → (x v).regs.state = .runRamp
  noReset : ∀ v, t < v → v ≤ u → (inp v).reset = false

/-- Clock `u` is a tick of the ramp that starts at clock `t`. -/
structure RampTick (t u : ℕ) : Prop extends Running x inp t u where
  tick : trig inp u = true

/-- The number of ticks after clock `t` and before clock `u`. -/
def rampTicks (t u : ℕ) : ℕ := tickCount (fun k => trig inp (t + 1 + k)) (u - (t + 1))

/-- The starting point of the ramp that starts at clock `t`. -/
def oldOf (t : ℕ) : ℤ := (x (t + 1)).regs.oldSetpt.toInt

/-- The target of the ramp that starts at clock `t`. -/
def newOf (t : ℕ) : ℤ := (x (t + 1)).regs.newSetptLat.toInt

/-- The newest cosine when the ramp starts. -/
def staleCos (t : ℕ) : ℤ := (x (t + 1)).cordic.settled.toInt

end Ramps

/-- A run in which a ramp starts at clock `t`, with `phase_inc` at `inc` at each of its ticks and
the 10 kHz ticks further apart than the latency of the CORDIC core. -/
structure Ramp (cosine : BitVec 24 → BitVec 24) (x₀ : Core) (inp : ℕ → Input) (t : ℕ)
    (inc : BitVec 32) : Prop where
  spaced : x₀.cordic.Spaced (trig inp)
  idle : (run (clock cosine) x₀ inp t).regs.state = .idle
  starts : (run (clock cosine) x₀ inp (t + 1)).regs.state = .runRamp
  incHeld : ∀ u, RampTick (run (clock cosine) x₀ inp) inp t u → (inp u).phaseInc = inc

section Run

variable {cosine : BitVec 24 → BitVec 24} {x₀ : Core} {inp : ℕ → Input} {t u : ℕ}
  {inc : BitVec 32}

theorem unit_settled (hcos : Cosine cosine) (h₀ : Unit x₀.cordic.settled) (n : ℕ) :
    Unit (run (clock cosine) x₀ inp n).cordic.settled := by
  induction n with
  | zero => exact h₀
  | succ n ih =>
    rw [run_succ, settled_clock]
    split_ifs
    · exact hcos.unit _
    · exact ih

theorem Running.mono {x : ℕ → Core} {v : ℕ} (h : Running x inp t u) (htv : t < v) (hvu : v ≤ u) :
    Running x inp t v :=
  ⟨h.starts, htv, fun w hw hwv => h.runs w hw (by omega),
    fun w hw hwv => h.noReset w hw (by omega)⟩

theorem rampTicks_succ_of_tick (htu : t < u) (h : trig inp u = true) :
    rampTicks inp t (u + 1) = rampTicks inp t u + 1 := by
  unfold rampTicks
  rw [show u + 1 - (t + 1) = u - (t + 1) + 1 by omega, tickCount_succ_of_tick]
  rwa [show t + 1 + (u - (t + 1)) = u by omega]

theorem rampTicks_succ_of_not_tick (htu : t < u) (h : trig inp u = false) :
    rampTicks inp t (u + 1) = rampTicks inp t u := by
  unfold rampTicks
  rw [show u + 1 - (t + 1) = u - (t + 1) + 1 by omega, tickCount_succ_of_not_tick]
  rwa [show t + 1 + (u - (t + 1)) = u by omega]

theorem rampTicks_mono {v : ℕ} (huv : u ≤ v) : rampTicks inp t u ≤ rampTicks inp t v :=
  tickCount_mono (by omega)

namespace Ramp

variable (h : Ramp cosine x₀ inp t inc)

include h

theorem started : Started (run (clock cosine) x₀ inp (t + 1)).regs :=
  (started_of_starts h.idle h.starts).1

/-- **Registers during a ramp.** If the ramp ran at each clock before `u`, the registers at `u` and
the newest cosine are those after as many beats as there were ticks. -/
theorem view_eq (htu : t < u)
    (hrun : ∀ v, t < v → v < u → Running (run (clock cosine) x₀ inp) inp t v) :
    (run (clock cosine) x₀ inp u).view =
      beats cosine inc (run (clock cosine) x₀ inp (t + 1)).regs
        (run (clock cosine) x₀ inp (t + 1)).cordic.settled (rampTicks inp t u) := by
  obtain ⟨n, rfl⟩ : ∃ n, u = t + 1 + n := ⟨u - (t + 1), by omega⟩
  have hR : ∀ m < n, Running (run (clock cosine) x₀ inp) inp t (t + 1 + m) :=
    fun m hm => hrun _ (by omega) (by omega)
  rw [run_add]
  unfold rampTicks
  rw [Nat.add_sub_cancel_left]
  apply view_eq_beats inc (spaced_run h.spaced (t + 1)) n
  · intro m hm
    rw [← run_add]
    exact (hR m hm).runs _ (by omega) le_rfl
  · intro m hm
    exact (hR m hm).noReset _ (by omega) le_rfl
  · intro m hm ht
    exact h.incHeld _ ⟨hR m hm, ht⟩

theorem running (hinc : 1 ≤ inc.toInt) (htu : t < u)
    (hr : ∀ v, t < v → v ≤ u → (inp v).reset = false)
    (hticks : rampTicks inp t u ≤ wholeSteps inc + 2) :
    Running (run (clock cosine) x₀ inp) inp t u := by
  -- strong induction: the clocks before have no more ticks behind them
  induction u using Nat.strong_induction_on with
  | _ u ih =>
    have hrun : ∀ v, t < v → v < u → Running (run (clock cosine) x₀ inp) inp t v :=
      fun v htv hvu => ih v hvu htv (fun w hw hwv => hr w hw (by omega))
        ((rampTicks_mono (by omega)).trans hticks)
    have hview := h.view_eq htu hrun
    have hstate : (run (clock cosine) x₀ inp u).regs.state = .runRamp := by
      have := congrArg (fun y => y.1.state) hview
      exact this.trans (state_beats h.started hinc _ hticks)
    refine ⟨h.idle, htu, ?_, hr⟩
    intro v htv hvu
    rcases Nat.lt_or_eq_of_le hvu with hlt | rfl
    · exact (hrun v htv hlt).runs v htv le_rfl
    · exact hstate

/-- A running ramp has no more than `wholeSteps + 2` ticks behind it. -/
theorem rampTicks_le (hinc : 1 ≤ inc.toInt) (hrun : Running (run (clock cosine) x₀ inp) inp t u) :
    rampTicks inp t u ≤ wholeSteps inc + 2 := by
  obtain ⟨n, rfl⟩ : ∃ n, u = t + 1 + n := ⟨u - (t + 1), by have := hrun.after; omega⟩
  induction n with
  | zero => simp [rampTicks]
  | succ n ih =>
    have hn := ih (hrun.mono (by omega) (by omega))
    cases ht : trig inp (t + 1 + n) with
    | false => rwa [← Nat.add_assoc, rampTicks_succ_of_not_tick (by omega) ht]
    | true =>
      rw [← Nat.add_assoc, rampTicks_succ_of_tick (by omega) ht]
      by_contra hgt
      have hlast : rampTicks inp t (t + 1 + (n + 1)) = wholeSteps inc + 3 := by
        rw [← Nat.add_assoc, rampTicks_succ_of_tick (by omega) ht]; omega
      have hview := h.view_eq (u := t + 1 + (n + 1)) (by omega)
        (fun v htv hvu => hrun.mono htv hvu.le)
      rw [hlast] at hview
      have hidle := congrArg (fun y => y.1.state) hview
      have hruns := hrun.runs _ hrun.after le_rfl
      have := hruns.symm.trans (hidle.trans (state_beats_last h.started hinc))
      exact absurd this (by simp)

theorem rampout_eq (hu : RampTick (run (clock cosine) x₀ inp) inp t u) :
    (run (clock cosine) x₀ inp (u + 1)).regs.rampout =
      (beats cosine inc (run (clock cosine) x₀ inp (t + 1)).regs
        (run (clock cosine) x₀ inp (t + 1)).cordic.settled (rampTicks inp t (u + 1))).1.rampout := by
  have hview := h.view_eq (u := u + 1) (by have := hu.after; omega)
    (fun v htv hvu => hu.toRunning.mono htv (by omega))
  exact congrArg (fun y => y.1.rampout) hview

theorem exists_rampTick (hinc : 1 ≤ inc.toInt) (hlive : ∀ n, ∃ v, n ≤ v ∧ trig inp v = true)
    (hr : ∀ v, t < v → (inp v).reset = false) (k : ℕ) (hk : k ≤ wholeSteps inc + 2) :
    ∃ v, RampTick (run (clock cosine) x₀ inp) inp t v ∧ rampTicks inp t (v + 1) = k + 1 := by
  have hlive' : ∀ n, ∃ v, n ≤ v ∧ trig inp (t + 1 + v) = true := by
    intro n
    obtain ⟨v, hv, htick⟩ := hlive (t + 1 + n)
    exact ⟨v - (t + 1), by omega, by rwa [show t + 1 + (v - (t + 1)) = v by omega]⟩
  obtain ⟨n, hn, htick⟩ := exists_tickCount_eq hlive' k
  have hcount : rampTicks inp t (t + 1 + n) = k := by
    unfold rampTicks; rwa [Nat.add_sub_cancel_left]
  refine ⟨t + 1 + n, ⟨h.running hinc (by omega) (fun v hv _ => hr v hv) (by omega), htick⟩, ?_⟩
  rw [rampTicks_succ_of_tick (by omega) htick, hcount]

end Ramp

end Run

/-! ## The trajectory of a ramp -/

section Trajectory

variable {cosine : BitVec 24 → BitVec 24} {inc : BitVec 32} {s : State} {c : BitVec 24}

theorem toInt_phaseWord (p : BitVec 32) : (phaseWord p).toInt = p.toInt / 2 ^ 8 := by
  have h1 := BitVec.le_toInt p
  have h2 := @BitVec.toInt_lt _ p
  unfold phaseWord
  rw [toInt_extractLsb'_eq_bmod _ _ _ (by norm_num), Int.bmod_eq_of_le_mul_two]
  · norm_num at *; omega
  · norm_num at *; omega

/-- The phase word after `k` beats of a ramp in steps of `inc`. -/
def wordAt (inc : ℤ) (k : ℕ) : ℤ := (-piWord + (k - 1 : ℕ) * inc) / 2 ^ 8

variable (cosine c) in
theorem toInt_phaseOut_beats (hs : Started s) (hinc : 1 ≤ inc.toInt) (k : ℕ)
    (hk : k ≤ wholeSteps inc + 1) :
    (beats cosine inc s c k).1.phaseOut.toInt = wordAt inc.toInt k := by
  cases k with
  | zero =>
    show s.phaseOut.toInt = _
    rw [hs.phaseOut, toInt_phaseWord, toInt_negPi]
    simp [wordAt]
  | succ k =>
    rw [phaseOut_beats_succ hs hinc k (by omega), toInt_phaseWord,
      (phase_beats cosine c hs hinc k (by omega)).1]
    rfl

theorem wordAt_bounds (hinc : 1 ≤ inc.toInt) {j k : ℕ} (hjk : j ≤ k)
    (hk : k ≤ wholeSteps inc + 1) :
    (phaseWord negPi).toInt ≤ wordAt inc.toInt j ∧ wordAt inc.toInt j ≤ wordAt inc.toInt k ∧
      wordAt inc.toInt k ≤ 0 := by
  obtain ⟨hle, -⟩ := wholeSteps_spec hinc
  have hj : (0 : ℤ) ≤ (j - 1 : ℕ) * inc.toInt := by positivity
  have hjk' : ((j - 1 : ℕ) : ℤ) * inc.toInt ≤ (k - 1 : ℕ) * inc.toInt :=
    mul_le_mul_of_nonneg_right (by omega) (by omega)
  have hkK : ((k - 1 : ℕ) : ℤ) * inc.toInt ≤ wholeSteps inc * inc.toInt :=
    mul_le_mul_of_nonneg_right (by omega) (by omega)
  rw [toInt_phaseWord, toInt_negPi]
  unfold wordAt
  refine ⟨Int.ediv_le_ediv (by norm_num) (by omega), Int.ediv_le_ediv (by norm_num) (by omega), ?_⟩
  omega

theorem cos_beats_mono (hcos : Cosine cosine) (hs : Started s) (hinc : 1 ≤ inc.toInt) {j k : ℕ}
    (hj : 1 ≤ j) (hjk : j ≤ k) (hk : k ≤ wholeSteps inc + 2) :
    (beats cosine inc s c j).2.toInt ≤ (beats cosine inc s c k).2.toInt := by
  obtain ⟨j, rfl⟩ := Nat.exists_eq_add_of_le' hj
  obtain ⟨k, rfl⟩ := Nat.exists_eq_add_of_le' (hj.trans hjk)
  obtain ⟨hlo, hmid, hhi⟩ := wordAt_bounds hinc (show j ≤ k by omega) (by omega)
  rw [cos_beats_succ, cos_beats_succ]
  apply hcos.mono
  · rwa [toInt_phaseOut_beats cosine c hs hinc j (by omega)]
  · rwa [toInt_phaseOut_beats cosine c hs hinc j (by omega),
      toInt_phaseOut_beats cosine c hs hinc k (by omega)]
  · rwa [toInt_phaseOut_beats cosine c hs hinc k (by omega)]

theorem cos_beats_one (hcos : Cosine cosine) (hs : Started s) :
    (beats cosine inc s c 1).2.toInt = -2 ^ 20 := by
  rw [cos_beats_succ]
  show (cosine s.phaseOut).toInt = _
  rw [hs.phaseOut, hcos.atNegPi]

theorem unit_beats (hcos : Cosine cosine) (hc : Unit c) (k : ℕ) :
    Unit (beats cosine inc s c k).2 := by
  cases k with
  | zero => exact hc
  | succ k => rw [cos_beats_succ]; exact hcos.unit _

variable (inc s) in
theorem toInt_rampout_beats (hcos : Cosine cosine) (hc : Unit c) (k : ℕ) :
    (beats cosine inc s c (k + 4)).1.rampout.toInt = s.oldSetpt.toInt +
      (s.newSetptLat.toInt - s.oldSetpt.toInt) * weight (beats cosine inc s c k).2.toInt /
        2 ^ 20 := by
  rw [rampout_beats_add_four, toInt_setptOf _ _ (unit_beats hcos hc k)]

end Trajectory

/-! ## Monotonicity -/

/-- From `a` by way of `p` and then `q` towards `b`, never turning back and never leaving the
interval between `a` and `b`. -/
def Toward (a p q b : ℤ) : Prop := (a ≤ p ∧ p ≤ q ∧ q ≤ b) ∨ (b ≤ q ∧ q ≤ p ∧ p ≤ a)

/-- The values that the ramp from clock `t` registers, from its second tick on (the first that is
computed from its own starting point), move towards its target. -/
def RampsMonotonically (x : ℕ → Core) (inp : ℕ → Input) (t : ℕ) : Prop :=
  ∀ u v, u ≤ v → RampTick x inp t u → RampTick x inp t v → 2 ≤ rampTicks inp t (u + 1) →
    Toward (oldOf x t) (x (u + 1)).regs.rampout.toInt (x (v + 1)).regs.rampout.toInt (newOf x t)

/-- The cosine from before the ramp makes no difference: the ramp is over before a fifth tick, or
the value made of it is the starting point. -/
def Undisturbed (inc old new stale : ℤ) : Prop :=
  piWord < 2 * inc ∨ (0 ≤ (new - old) * weight stale ∧ (new - old) * weight stale < 2 ^ 20)

theorem toward_of_weights (a b : ℤ) {w w' : ℤ} (h0 : 0 ≤ w) (hw : w ≤ w') (h1 : w' ≤ 2 ^ 20) :
    Toward a (a + (b - a) * w / 2 ^ 20) (a + (b - a) * w' / 2 ^ 20) b := by
  obtain ⟨hup, hdown⟩ := weighted_between (b - a) w h0 (hw.trans h1)
  obtain ⟨hup', hdown'⟩ := weighted_between (b - a) w' (h0.trans hw) h1
  rcases le_total a b with hab | hab
  · have hmono : (b - a) * w / 2 ^ 20 ≤ (b - a) * w' / 2 ^ 20 :=
      Int.ediv_le_ediv (by norm_num) (mul_le_mul_of_nonneg_left hw (by omega))
    obtain ⟨hlo, -⟩ := hup (by omega)
    obtain ⟨-, hhi⟩ := hup' (by omega)
    left; omega
  · have hmono : (b - a) * w' / 2 ^ 20 ≤ (b - a) * w / 2 ^ 20 :=
      Int.ediv_le_ediv (by norm_num) (mul_le_mul_of_nonpos_left hw (by omega))
    obtain ⟨-, hhi⟩ := hdown (by omega)
    obtain ⟨hlo, -⟩ := hdown' (by omega)
    right; omega

section Monotone

variable {cosine : BitVec 24 → BitVec 24} {inc : BitVec 32} {s : State} {c : BitVec 24}

/-- The weight with which a beat of an undisturbed ramp registers its value. -/
def weightAt (cosine : BitVec 24 → BitVec 24) (inc : BitVec 32) (s : State) (c : BitVec 24)
    (k : ℕ) : ℤ :=
  if k ≤ 3 then 0
  else if k = 4 ∧ 2 * inc.toInt ≤ piWord then 0
  else weight (beats cosine inc s c (k - 4)).2.toInt

theorem weight_mono {p q : ℤ} (h : p ≤ q) : weight p ≤ weight q :=
  Int.ediv_le_ediv (by norm_num) (by omega)

theorem wholeSteps_le_one_iff (hinc : 1 ≤ inc.toInt) :
    wholeSteps inc ≤ 1 ↔ piWord < 2 * inc.toInt := by
  obtain ⟨hle, hgt⟩ := wholeSteps_spec hinc
  constructor
  · intro h
    have : ((wholeSteps inc : ℤ) + 1) * inc.toInt ≤ 2 * inc.toInt :=
      mul_le_mul_of_nonneg_right (by omega) (by omega)
    omega
  · intro h
    by_contra hgt2
    have : 2 * inc.toInt ≤ (wholeSteps inc : ℤ) * inc.toInt :=
      mul_le_mul_of_nonneg_right (by omega) (by omega)
    omega

theorem weightAt_mono (hcos : Cosine cosine) (hc : Unit c) (hs : Started s)
    (hinc : 1 ≤ inc.toInt) {j k : ℕ} (hjk : j ≤ k) (hk : k ≤ wholeSteps inc + 3) :
    0 ≤ weightAt cosine inc s c j ∧ weightAt cosine inc s c j ≤ weightAt cosine inc s c k ∧
      weightAt cosine inc s c k ≤ 2 ^ 20 := by
  have hshort := wholeSteps_le_one_iff hinc
  have hb : ∀ n, 0 ≤ weight (beats cosine inc s c n).2.toInt ∧
      weight (beats cosine inc s c n).2.toInt ≤ 2 ^ 20 :=
    fun n => weight_bounds (unit_beats hcos hc n)
  unfold weightAt
  split_ifs with h1 h2 h3 h4 h5 h6
  all_goals try omega
  · exact ⟨le_rfl, (hb _).1, (hb _).2⟩
  · exact ⟨le_rfl, (hb _).1, (hb _).2⟩
  · -- both are cosines; the first beat of all counts only when it is the last
    refine ⟨(hb _).1, ?_, (hb _).2⟩
    by_cases hj : j = 4
    · have : k = 4 := by omega
      rw [hj, this]
    · exact weight_mono (cos_beats_mono hcos hs hinc (by omega) (by omega) (by omega))

theorem toInt_rampout_weightAt (hcos : Cosine cosine) (hc : Unit c) (hs : Started s)
    (hund : Undisturbed inc.toInt s.oldSetpt.toInt s.newSetptLat.toInt c.toInt) {k : ℕ}
    (hk : 2 ≤ k) : (beats cosine inc s c k).1.rampout.toInt = s.oldSetpt.toInt +
      (s.newSetptLat.toInt - s.oldSetpt.toInt) * weightAt cosine inc s c k / 2 ^ 20 := by
  obtain ⟨htwo, hthree⟩ := rampout_beats_start cosine inc c hs
  unfold weightAt
  split_ifs with h1 h2
  · obtain rfl | rfl : k = 2 ∨ k = 3 := by omega
    · rw [htwo]; simp
    · rw [hthree]; simp
  · obtain ⟨rfl, hinc⟩ := h2
    have h4 := toInt_rampout_beats inc s hcos hc 0
    have hc0 : (beats cosine inc s c 0).2 = c := rfl
    rcases hund with hlt | ⟨hlo, hhi⟩
    · omega
    · rw [h4, hc0]; omega
  · obtain ⟨k, rfl⟩ := Nat.exists_eq_add_of_le' (show 4 ≤ k by omega)
    rw [toInt_rampout_beats _ _ hcos hc, Nat.add_sub_cancel]

end Monotone

section MonotoneRun

variable {cosine : BitVec 24 → BitVec 24} {x₀ : Core} {inp : ℕ → Input} {t : ℕ}
  {inc : BitVec 32}

theorem rampsMonotonically_of_undisturbed (hcos : Cosine cosine) (h₀ : Unit x₀.cordic.settled)
    (h : Ramp cosine x₀ inp t inc) (hinc : 1 ≤ inc.toInt)
    (hund : Undisturbed inc.toInt (oldOf (run (clock cosine) x₀ inp) t)
      (newOf (run (clock cosine) x₀ inp) t) (staleCos (run (clock cosine) x₀ inp) t)) :
    RampsMonotonically (run (clock cosine) x₀ inp) inp t := by
  intro u v huv hu hv htwo
  have hc : Unit (run (clock cosine) x₀ inp (t + 1)).cordic.settled := unit_settled hcos h₀ _
  have hjk : rampTicks inp t (u + 1) ≤ rampTicks inp t (v + 1) := rampTicks_mono (by omega)
  have hlast : rampTicks inp t (v + 1) ≤ wholeSteps inc + 3 := by
    rw [rampTicks_succ_of_tick hv.after hv.tick]
    have := h.rampTicks_le hinc hv.toRunning
    omega
  obtain ⟨hlo, hmid, hhi⟩ := weightAt_mono hcos hc h.started hinc hjk hlast
  rw [h.rampout_eq hu, h.rampout_eq hv, toInt_rampout_weightAt hcos hc h.started hund htwo,
    toInt_rampout_weightAt hcos hc h.started hund (htwo.trans hjk)]
  exact toward_of_weights _ _ hlo hmid hhi

/-- A monotone ramp that has all its ticks is undisturbed: its fifth tick registers the starting
point again, so its fourth must have registered it too. -/
theorem undisturbed_of_rampsMonotonically (hcos : Cosine cosine) (h₀ : Unit x₀.cordic.settled)
    (h : Ramp cosine x₀ inp t inc) (hinc : 1 ≤ inc.toInt)
    (hlive : ∀ n, ∃ v, n ≤ v ∧ trig inp v = true) (hr : ∀ v, t < v → (inp v).reset = false)
    (hmono : RampsMonotonically (run (clock cosine) x₀ inp) inp t) :
    Undisturbed inc.toInt (oldOf (run (clock cosine) x₀ inp) t)
      (newOf (run (clock cosine) x₀ inp) t) (staleCos (run (clock cosine) x₀ inp) t) := by
  by_cases hshort : piWord < 2 * inc.toInt
  · exact Or.inl hshort
  have hc : Unit (run (clock cosine) x₀ inp (t + 1)).cordic.settled := unit_settled hcos h₀ _
  have hsteps : 2 ≤ wholeSteps inc := by
    have := wholeSteps_le_one_iff hinc
    omega
  obtain ⟨u, hu, hu4⟩ := h.exists_rampTick hinc hlive hr 3 (by omega)
  obtain ⟨v, hv, hv5⟩ := h.exists_rampTick hinc hlive hr 4 (by omega)
  have huv : u ≤ v := by
    by_contra hgt
    have : rampTicks inp t (v + 1) ≤ rampTicks inp t (u + 1) := rampTicks_mono (by omega)
    omega
  have hfour : (run (clock cosine) x₀ inp (u + 1)).regs.rampout.toInt =
      oldOf (run (clock cosine) x₀ inp) t + (newOf (run (clock cosine) x₀ inp) t -
        oldOf (run (clock cosine) x₀ inp) t) *
          weight (staleCos (run (clock cosine) x₀ inp) t) / 2 ^ 20 := by
    rw [h.rampout_eq hu, hu4, toInt_rampout_beats _ _ hcos hc 0]
    rfl
  have hfive : (run (clock cosine) x₀ inp (v + 1)).regs.rampout.toInt =
      oldOf (run (clock cosine) x₀ inp) t := by
    rw [h.rampout_eq hv, hv5, toInt_rampout_beats _ _ hcos hc 1, cos_beats_one hcos h.started]
    simp [weight, oldOf]
  have hback := hmono u v huv hu hv (by omega)
  rw [hfour, hfive] at hback
  unfold Toward at hback
  right
  omega

/-- **Monotone ramps.** In any run, a ramp with constant `phase_inc ≥ 1` moves monotonically from
its starting point to its target if it is `Undisturbed` by the cosine from before it; and, if it
has all its ticks, only then. -/
theorem ramp_monotone_iff (cosine : BitVec 24 → BitVec 24) (hcos : Cosine cosine) (x₀ : Core)
    (h₀ : Unit x₀.cordic.settled) (inp : ℕ → Input) (t : ℕ) (inc : BitVec 32)
    (h : Ramp cosine x₀ inp t inc) (hinc : 1 ≤ inc.toInt) :
    (Undisturbed inc.toInt (oldOf (run (clock cosine) x₀ inp) t)
        (newOf (run (clock cosine) x₀ inp) t) (staleCos (run (clock cosine) x₀ inp) t) →
      RampsMonotonically (run (clock cosine) x₀ inp) inp t) ∧
    ((∀ n, ∃ v, n ≤ v ∧ trig inp v = true) → (∀ v, t < v → (inp v).reset = false) →
      RampsMonotonically (run (clock cosine) x₀ inp) inp t →
      Undisturbed inc.toInt (oldOf (run (clock cosine) x₀ inp) t)
        (newOf (run (clock cosine) x₀ inp) t) (staleCos (run (clock cosine) x₀ inp) t)) :=
  ⟨rampsMonotonically_of_undisturbed hcos h₀ h hinc,
    undisturbed_of_rampsMonotonically hcos h₀ h hinc⟩

end MonotoneRun

/-! ### Two ramps -/

/-- A core that is exact at -π, -π/2 and 0, the phases that the runs below sample. -/
def coarseCosine (p : BitVec 24) : BitVec 24 :=
  if p.toInt < -823550 then BitVec.ofInt 24 (-2 ^ 20)
  else if p.toInt < 0 then BitVec.ofInt 24 (-1)
  else BitVec.ofInt 24 (2 ^ 20)

/-- The registers and a CORDIC core of latency two, before reset. -/
def restCore : Core := ⟨⟨.idle, 0, 0, 0, 0, 0, 0, 0, false, false, 0, 0, 0, 0⟩, ⟨[none], 0⟩⟩

/-- Reset at clock 0, a tick on every third clock, and two setpoints: 1000 at clock 2 in steps of
`inc₁`, and 2000 at clock 17 in steps of `inc₂`. -/
def twoRamps (inc₁ inc₂ : BitVec 32) (n : ℕ) : Input where
  reset := n == 0
  tenkhzTrig := n % 3 == 1
  mode := 0
  curSetpt := 0
  newSetpt := if n < 2 then 0 else if n < 17 then 1000 else 2000
  phaseInc := if n < 17 then inc₁ else inc₂

theorem cosine_coarseCosine : Cosine coarseCosine where
  unit p := by unfold Unit coarseCosine; split_ifs <;> decide
  mono p q _ hpq _ := by
    have h1 : (BitVec.ofInt 24 (-2 ^ 20)).toInt = -2 ^ 20 := by decide
    have h2 : (BitVec.ofInt 24 (-1)).toInt = -1 := by decide
    have h3 : (BitVec.ofInt 24 (2 ^ 20)).toInt = 2 ^ 20 := by decide
    unfold coarseCosine
    split_ifs <;> omega
  atNegPi := by decide
  atZero := by decide

theorem unit_restCore : Unit restCore.cordic.settled := by unfold Unit; decide

theorem spaced_twoRamps (inc₁ inc₂ : BitVec 32) :
    restCore.cordic.Spaced (trig (twoRamps inc₁ inc₂)) where
  ahead t u htu ht hu := by
    simp only [trig, twoRamps, beq_iff_eq] at ht hu
    show t + 1 < u
    omega
  underWay i a hi := by cases i <;> simp [restCore] at hi

theorem twoRamps_live (inc₁ inc₂ : BitVec 32) (n : ℕ) :
    ∃ v, n ≤ v ∧ trig (twoRamps inc₁ inc₂) v = true :=
  ⟨3 * n + 1, by omega, by simp [trig, twoRamps, Nat.add_mod]⟩

theorem twoRamps_reset (inc₁ inc₂ : BitVec 32) {n : ℕ} (hn : 0 < n) :
    (twoRamps inc₁ inc₂ n).reset = false := by
  show (n == 0) = false
  simp [hn.ne']

theorem ramp_second (inc₁ inc₂ : BitVec 32)
    (hidle : (run (clock coarseCosine) restCore (twoRamps inc₁ inc₂) 17).regs.state = .idle)
    (hrun : (run (clock coarseCosine) restCore (twoRamps inc₁ inc₂) 18).regs.state = .runRamp) :
    Ramp coarseCosine restCore (twoRamps inc₁ inc₂) 17 inc₂ where
  spaced := spaced_twoRamps inc₁ inc₂
  idle := hidle
  starts := hrun
  incHeld u hu := if_neg (by have := hu.after; omega)

/-- After reset the newest cosine is that of -π, and the slowest of ramps is monotone. -/
theorem slow_first_ramp_monotone :
    RampsMonotonically (run (clock coarseCosine) restCore (twoRamps 1 1)) (twoRamps 1 1) 2 := by
  have h : Ramp coarseCosine restCore (twoRamps 1 1) 2 1 :=
    ⟨spaced_twoRamps 1 1, by decide, by decide, fun u _ => ite_self _⟩
  refine (ramp_monotone_iff coarseCosine cosine_coarseCosine restCore unit_restCore _ 2 1 h
    (by decide)).1 (Or.inr ?_)
  decide

/-- After a ramp the phase word stays at zero, and the next tick samples it. The fourth tick of a
second ramp then registers its target, and the fifth its starting point again. -/
theorem second_ramp_not_monotone :
    Cosine coarseCosine ∧ Unit restCore.cordic.settled ∧
      Ramp coarseCosine restCore (twoRamps 421657300 210828650) 17 210828650 ∧
      ¬RampsMonotonically (run (clock coarseCosine) restCore (twoRamps 421657300 210828650))
        (twoRamps 421657300 210828650) 17 := by
  have h := ramp_second 421657300 210828650 (by decide) (by decide)
  refine ⟨cosine_coarseCosine, unit_restCore, h, fun hmono => ?_⟩
  have hund := undisturbed_of_rampsMonotonically cosine_coarseCosine unit_restCore h (by decide)
    (twoRamps_live _ _) (fun v hv => twoRamps_reset _ _ (by omega)) hmono
  revert hund
  unfold Undisturbed
  decide

/-! ## The value left at the end -/

/-- The cosine that the last tick of a ramp registers: the one from before it if the ramp has one
whole step, otherwise that of the phase three steps before the last. -/
def finalCos (cosine : BitVec 24 → BitVec 24) (inc : BitVec 32) (stale : BitVec 24) : BitVec 24 :=
  if wholeSteps inc = 1 then stale
  else cosine (BitVec.ofInt 24 (wordAt inc.toInt (wholeSteps inc - 2)))

/-- The setpoint made of the cosine `cos` is the target. Upwards only the cosine of zero reaches
it; downwards the rounding does once less than one count is missing. -/
def Lands (old new cos : ℤ) : Prop :=
  new = old ∨ (old < new ∧ cos = 2 ^ 20) ∨
    (new < old ∧ (old - new) * (2 ^ 20 - weight cos) < 2 ^ 20)

theorem setptOf_eq_target_iff (old new : BitVec 20) {cos : BitVec 24} (h : Unit cos) :
    setptOf old new cos = new ↔ Lands old.toInt new.toInt cos.toInt := by
  obtain ⟨hw0, hw1⟩ := weight_bounds h
  have hcos : weight cos.toInt = 2 ^ 20 ↔ cos.toInt = 2 ^ 20 := by
    obtain ⟨hlo, hhi⟩ := h
    unfold weight
    omega
  rw [← BitVec.toInt_inj, toInt_setptOf _ _ h]
  unfold Lands
  rw [← hcos]
  generalize weight cos.toInt = w at *
  generalize old.toInt = a
  generalize new.toInt = b
  have hsub : (b - a) * w = (b - a) * 2 ^ 20 - (b - a) * (2 ^ 20 - w) := by ring
  have hneg : (a - b) * (2 ^ 20 - w) = -((b - a) * (2 ^ 20 - w)) := by ring
  rcases lt_trichotomy a b with hab | rfl | hab
  · have hpos : w < 2 ^ 20 → 0 < (b - a) * (2 ^ 20 - w) :=
      fun hw => mul_pos (by omega) (by omega)
    constructor
    · intro heq
      right; left
      refine ⟨hab, ?_⟩
      by_contra hne
      have := hpos (by omega)
      omega
    · rintro (heq | ⟨-, rfl⟩ | ⟨hlt, -⟩) <;> omega
  · simp
  · have hnn : (b - a) * (2 ^ 20 - w) ≤ 0 :=
      mul_nonpos_of_nonpos_of_nonneg (by omega) (by omega)
    constructor
    · intro heq
      right; right
      exact ⟨hab, by omega⟩
    · rintro (heq | ⟨hlt, -⟩ | ⟨-, hlt⟩) <;> omega

section Final

variable {cosine : BitVec 24 → BitVec 24} {x₀ : Core} {inp : ℕ → Input} {t e : ℕ}
  {inc : BitVec 32}

theorem cos_beats_final {s : State} {c : BitVec 24} (hs : Started s) (hinc : 1 ≤ inc.toInt)
    (hsteps : 1 ≤ wholeSteps inc) :
    (beats cosine inc s c (wholeSteps inc - 1)).2 = finalCos cosine inc c := by
  unfold finalCos
  split_ifs with h1
  · rw [h1]; rfl
  · obtain ⟨k, hk⟩ : ∃ k, wholeSteps inc = k + 2 := ⟨wholeSteps inc - 2, by omega⟩
    have hword := toInt_phaseOut_beats cosine c hs hinc k (by omega)
    rw [hk, show k + 2 - 1 = k + 1 by omega, cos_beats_succ, Nat.add_sub_cancel, ← hword,
      BitVec.ofInt_toInt]

theorem rampout_held (v : ℕ) (hev : e ≤ v)
    (hidle : ∀ w, e ≤ w → w < v → (run (clock cosine) x₀ inp w).regs.state = .idle)
    (hr : ∀ w, e ≤ w → w < v → (inp w).reset = false) :
    (run (clock cosine) x₀ inp v).regs.rampout = (run (clock cosine) x₀ inp e).regs.rampout := by
  induction v, hev using Nat.le_induction with
  | base => rfl
  | succ v hev ih =>
    have hv := ih (fun w h1 h2 => hidle w h1 (by omega)) (fun w h1 h2 => hr w h1 (by omega))
    rw [← hv, run_succ, clock, step, if_neg (by simp [hr v hev (by omega)]),
      hidle v hev (by omega)]
    show (idleClock _ _).rampout = _
    unfold idleClock
    split_ifs <;> rfl

theorem Ramp.rampTicks_last (h : Ramp cosine x₀ inp t inc) (hinc : 1 ≤ inc.toInt)
    (he : RampTick (run (clock cosine) x₀ inp) inp t e)
    (hidle : (run (clock cosine) x₀ inp (e + 1)).regs.state = .idle) :
    rampTicks inp t (e + 1) = wholeSteps inc + 3 := by
  have hle := h.rampTicks_le hinc he.toRunning
  have hsucc := rampTicks_succ_of_tick he.after he.tick
  by_contra hne
  have hview := h.view_eq (u := e + 1) (by have := he.after; omega)
    (fun v htv hvu => he.toRunning.mono htv (by omega))
  have hruns := congrArg (fun y => y.1.state) hview
  have := hidle.symm.trans
    (hruns.trans (state_beats h.started hinc (rampTicks inp t (e + 1)) (by omega)))
  exact absurd this (by simp)

/-- Where ticks keep coming and nothing resets the machine, the ramp ends, with tick number
`wholeSteps + 3`. -/
theorem Ramp.exists_last (h : Ramp cosine x₀ inp t inc) (hinc : 1 ≤ inc.toInt)
    (hlive : ∀ n, ∃ v, n ≤ v ∧ trig inp v = true) (hr : ∀ v, t < v → (inp v).reset = false) :
    ∃ e, RampTick (run (clock cosine) x₀ inp) inp t e ∧
      (run (clock cosine) x₀ inp (e + 1)).regs.state = .idle := by
  obtain ⟨e, he, hlast⟩ := h.exists_rampTick hinc hlive hr (wholeSteps inc + 2) le_rfl
  refine ⟨e, he, ?_⟩
  have hview := h.view_eq (u := e + 1) (by have := he.after; omega)
    (fun v htv hvu => he.toRunning.mono htv (by omega))
  rw [hlast] at hview
  exact (congrArg (fun y => y.1.state) hview).trans (state_beats_last h.started hinc)

theorem Ramp.rampout_last (h : Ramp cosine x₀ inp t inc) (hinc : 1 ≤ inc.toInt)
    (hmax : inc.toInt ≤ piWord) (he : RampTick (run (clock cosine) x₀ inp) inp t e)
    (hidle : (run (clock cosine) x₀ inp (e + 1)).regs.state = .idle) :
    (run (clock cosine) x₀ inp (e + 1)).regs.rampout =
      setptOf (run (clock cosine) x₀ inp (t + 1)).regs.oldSetpt
        (run (clock cosine) x₀ inp (t + 1)).regs.newSetptLat
        (finalCos cosine inc (run (clock cosine) x₀ inp (t + 1)).cordic.settled) := by
  have hsteps : 1 ≤ wholeSteps inc := by
    obtain ⟨-, hgt⟩ := wholeSteps_spec hinc
    by_contra hlt
    have : wholeSteps inc = 0 := by omega
    rw [this] at hgt
    omega
  rw [h.rampout_eq he, h.rampTicks_last hinc he hidle,
    show wholeSteps inc + 3 = wholeSteps inc - 1 + 4 by omega, rampout_beats_add_four,
    cos_beats_final h.started hinc hsteps]

end Final

/-- **The end of a ramp.** A ramp with constant `phase_inc` between 1 and π ends, given its ticks,
and the value held in IDLE afterwards is its target exactly if it `Lands` with the cosine that its
last tick registers. -/
theorem rampout_eq_target_iff (cosine : BitVec 24 → BitVec 24) (hcos : Cosine cosine) (x₀ : Core)
    (h₀ : Unit x₀.cordic.settled) (inp : ℕ → Input) (t : ℕ) (inc : BitVec 32)
    (h : Ramp cosine x₀ inp t inc) (hinc : 1 ≤ inc.toInt) (hmax : inc.toInt ≤ piWord) :
    ((∀ n, ∃ v, n ≤ v ∧ trig inp v = true) → (∀ v, t < v → (inp v).reset = false) →
      ∃ e, RampTick (run (clock cosine) x₀ inp) inp t e ∧
        (run (clock cosine) x₀ inp (e + 1)).regs.state = .idle) ∧
    ∀ e v, RampTick (run (clock cosine) x₀ inp) inp t e → e < v →
      (∀ w, e < w → w ≤ v → (run (clock cosine) x₀ inp w).regs.state = .idle) →
      (∀ w, e < w → w < v → (inp w).reset = false) →
      ((run (clock cosine) x₀ inp v).regs.rampout =
          (run (clock cosine) x₀ inp (t + 1)).regs.newSetptLat ↔
        Lands (oldOf (run (clock cosine) x₀ inp) t) (newOf (run (clock cosine) x₀ inp) t)
          (finalCos cosine inc (run (clock cosine) x₀ inp (t + 1)).cordic.settled).toInt) := by
  constructor
  · exact h.exists_last hinc
  · intro e v he hev hidle hr
    have hunit : Unit (finalCos cosine inc (run (clock cosine) x₀ inp (t + 1)).cordic.settled) := by
      unfold finalCos
      split_ifs
      · exact unit_settled hcos h₀ _
      · exact hcos.unit _
    rw [rampout_held (e := e + 1) v hev (fun w h1 h2 => hidle w h1 h2.le)
      (fun w h1 h2 => hr w h1 h2), h.rampout_last hinc hmax he (hidle _ (by omega) hev),
      setptOf_eq_target_iff _ _ hunit]
    rfl

/-- A second ramp in one step of π has only the cosine from before it, which is that of zero: it
lands. -/
theorem second_ramp_lands :
    (run (clock coarseCosine) restCore (twoRamps 421657300 421657300) 29).regs.rampout = 2000 := by
  have h := ramp_second 421657300 421657300 (by decide) (by decide)
  have he : RampTick (run (clock coarseCosine) restCore (twoRamps 421657300 421657300))
      (twoRamps 421657300 421657300) 17 28 := by
    refine ⟨h.running (by decide) (by decide) (fun v hv _ => twoRamps_reset _ _ (by omega)) ?_, ?_⟩
    · decide
    · decide
  have hland := (rampout_eq_target_iff coarseCosine cosine_coarseCosine restCore unit_restCore _ 17
    421657300 h (by decide) (by decide)).2 28 29 he (by decide)
    (fun w h1 h2 => by obtain rfl : w = 29 := by omega
                       decide)
    (fun w h1 h2 => by omega)
  refine (hland.mpr (Or.inr (Or.inl ?_))).trans (by decide)
  decide

/-- The first ramp after reset in one step of π has only the cosine from before it, which is that
of -π: it ends where it started, at 0 in place of 1000, and stays there. -/
theorem first_ramp_ends_at_start :
    Cosine coarseCosine ∧ Unit restCore.cordic.settled ∧
      Ramp coarseCosine restCore (twoRamps 421657300 421657300) 2 421657300 ∧
      RampTick (run (clock coarseCosine) restCore (twoRamps 421657300 421657300))
        (twoRamps 421657300 421657300) 2 13 ∧
      (∀ w, 13 < w → w ≤ 17 → (run (clock coarseCosine) restCore
        (twoRamps 421657300 421657300) w).regs.state = .idle) ∧
      (run (clock coarseCosine) restCore (twoRamps 421657300 421657300) 3).regs.newSetptLat = 1000 ∧
      (run (clock coarseCosine) restCore (twoRamps 421657300 421657300) 17).regs.rampout = 0 := by
  have h : Ramp coarseCosine restCore (twoRamps 421657300 421657300) 2 421657300 :=
    ⟨spaced_twoRamps _ _, by decide, by decide, fun u _ => ite_self _⟩
  refine ⟨cosine_coarseCosine, unit_restCore, h, ⟨h.running (by decide) (by decide)
    (fun v hv _ => twoRamps_reset _ _ (by omega)) (by decide), by decide⟩, ?_, by decide, by decide⟩
  intro w h1 h2
  interval_cases w <;> decide

end Psc.SmoothRamp
