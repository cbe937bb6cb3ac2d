import Psc.Control.Isolation

/-!
# The duration of a ramp

How many ticks `smooth_ramp` takes from the clock that enters RUN_RAMP to the tick that leaves it,
with `phase_inc` at `inc` in between. The CORDIC core has no part in it: a run here is one of the
registers alone, whatever cosine is shown in each clock.

1. `control_regsAt`: the registers that decide how the ramp goes on are those after as many beats as
there were ticks.
2. Of these there are `π / inc + 3`, the last two with the phase past zero.
3. `phase_bounds`, `toInt_phaseOut_beats`: no sum of the phase wraps on the way, and the phase words
rise from -π to no more than zero.
-/

namespace Psc.Control

open NumericStd Clocked SmoothRamp

/-- The registers before clock `n`, when the core shows `cos` in each clock. -/
def regsAt (s₀ : State) (inp : ℕ → Input) (cos : ℕ → BitVec 24) : ℕ → State :=
  run (fun s i => step s i.1 i.2) s₀ fun n => (inp n, cos n)

/-- The ramp that starts at clock `t` runs up to clock `u`. -/
def RunsTo (x : ℕ → State) (t u : ℕ) : Prop := ∀ v, t < v → v ≤ u → (x v).state = .runRamp

/-- A run in which a ramp starts at clock `t`, with `phase_inc` at `inc` at each of its ticks. -/
structure RampAt (s₀ : State) (inp : ℕ → Input) (cos : ℕ → BitVec 24) (t : ℕ) (inc : BitVec 32) :
    Prop where
  idle : (regsAt s₀ inp cos t).state = .idle
  starts : (regsAt s₀ inp cos (t + 1)).state = .runRamp
  incHeld : ∀ u, t < u → RunsTo (regsAt s₀ inp cos) t u → trig inp u = true →
    (inp u).phaseInc = inc

/-- The ramp that started at clock `t` is on its way at clock `u`: the next sum of the phase does
not overflow, and the phase word lies between those of -π and 0 and is none less than any before. -/
structure OnTheWay (x : ℕ → State) (t u : ℕ) (inc : BitVec 32) : Prop where
  runs : (x u).state = .runRamp
  noOverflow : ((x u).phase + inc).toInt = (x u).phase.toInt + inc.toInt
  lower : -piWord / 2 ^ 8 ≤ (x u).phaseOut.toInt
  upper : (x u).phaseOut.toInt ≤ 0
  rises : ∀ v, t < v → v ≤ u → (x v).phaseOut.toInt ≤ (x u).phaseOut.toInt

/-! ## The phase -/

section Beats

variable {cosine : BitVec 24 → BitVec 24} {inc : BitVec 32} {s : State} {c : BitVec 24}

theorem beats_pastZero (hs : Started s) (hinc : 1 ≤ inc.toInt) :
    (beats cosine inc s c (wholeSteps inc + 2)).1.phase = 0 ∧
      (beats cosine inc s c (wholeSteps inc + 2)).1.phaseOut =
        (beats cosine inc s c (wholeSteps inc + 1)).1.phaseOut := by
  obtain ⟨-, hgt⟩ := wholeSteps_spec hinc
  have hphase := (phase_beats cosine c hs hinc (wholeSteps inc + 1) le_rfl).1
  have hpos : 0 < (beats cosine inc s c (wholeSteps inc + 1)).1.phase.toInt := by
    rw [hphase]; push_cast; omega
  obtain ⟨hp, -, hout⟩ :=
    tickRamp_of_phase_pos _ inc (beats cosine inc s c (wholeSteps inc + 1)).2 hpos
  rw [beats_succ]
  exact ⟨hp, hout⟩

/-- The phase goes no further than one increment past zero. -/
theorem phase_bounds (hs : Started s) (hinc : 1 ≤ inc.toInt) {k : ℕ} (hk : k ≤ wholeSteps inc + 2) :
    -piWord ≤ (beats cosine inc s c k).1.phase.toInt ∧
      (beats cosine inc s c k).1.phase.toInt ≤ inc.toInt := by
  obtain ⟨hle, -⟩ := wholeSteps_spec hinc
  rcases Nat.lt_or_eq_of_le hk with hlt | rfl
  · rw [(phase_beats cosine c hs hinc k (by omega)).1]
    have hknn : 0 ≤ (k : ℤ) * inc.toInt := by positivity
    have hprod : (k : ℤ) * inc.toInt ≤ (wholeSteps inc + 1 : ℕ) * inc.toInt :=
      mul_le_mul_of_nonneg_right (by omega) (by omega)
    push_cast at hprod
    rw [add_mul, one_mul] at hprod
    omega
  · rw [(beats_pastZero hs hinc).1]
    simp [piWord]
    omega

theorem toInt_phaseOut_beats_of_le (hs : Started s) (hinc : 1 ≤ inc.toInt) {k : ℕ}
    (hk : k ≤ wholeSteps inc + 2) : (beats cosine inc s c k).1.phaseOut.toInt =
      wordAt inc.toInt (min k (wholeSteps inc + 1)) := by
  rcases Nat.lt_or_eq_of_le hk with hlt | rfl
  · rw [toInt_phaseOut_beats cosine c hs hinc k (by omega), min_eq_left (by omega)]
  · rw [(beats_pastZero hs hinc).2, toInt_phaseOut_beats cosine c hs hinc _ le_rfl,
      min_eq_right (by omega)]

end Beats

/-! ## The ticks of a ramp -/

section Run

variable {s₀ : State} {inp : ℕ → Input} {cos : ℕ → BitVec 24} {t u : ℕ} {inc : BitVec 32}

theorem regsAt_succ (n : ℕ) :
    regsAt s₀ inp cos (n + 1) = step (regsAt s₀ inp cos n) (inp n) (cos n) := rfl

theorem RampAt.started (h : RampAt s₀ inp cos t inc) : Started (regsAt s₀ inp cos (t + 1)) :=
  (started_step h.idle h.starts).1

/-- The registers after `k` beats of the ramp, as far as they do not depend on cosines. -/
abbrev RampAt.after (_ : RampAt s₀ inp cos t inc) (k : ℕ) : State :=
  (beats (fun _ => 0) inc (regsAt s₀ inp cos (t + 1)) 0 k).1

theorem RampAt.control_succ (h : RampAt s₀ inp cos t inc) (htu : t < u)
    (hruns : RunsTo (regsAt s₀ inp cos) t u) (hr : (inp u).reset = false)
    (hctl : control (regsAt s₀ inp cos u) = control (h.after (rampTicks inp t u))) :
    control (regsAt s₀ inp cos (u + 1)) = control (h.after (rampTicks inp t (u + 1))) := by
  have hrun := hruns u htu le_rfl
  cases htick : trig inp u with
  | true =>
    have hstep : regsAt s₀ inp cos (u + 1) = tickRamp (regsAt s₀ inp cos u) inc (cos u) := by
      rw [regsAt_succ, step, if_neg (by simp [hr]), hrun, ← h.incHeld u htu hruns htick]
      exact if_pos htick
    rw [hstep, rampTicks_succ_of_tick htu htick, RampAt.after, beats_succ]
    exact control_tickRamp hctl inc _ _
  | false =>
    have hstep : regsAt s₀ inp cos (u + 1) = regsAt s₀ inp cos u := by
      rw [regsAt_succ, step, if_neg (by simp [hr]), hrun]
      exact if_neg (by simpa using htick)
    rw [hstep, hctl, rampTicks_succ_of_not_tick htu htick]

/-- **Control of a ramp.** Up to `wholeSteps + 2` ticks, with no reset, the ramp runs and its
control is that after as many beats. -/
theorem RampAt.control_regsAt (h : RampAt s₀ inp cos t inc) (hinc : 1 ≤ inc.toInt) (htu : t < u)
    (hr : ∀ v, t < v → v < u → (inp v).reset = false)
    (hticks : rampTicks inp t u ≤ wholeSteps inc + 2) :
    RunsTo (regsAt s₀ inp cos) t u ∧
      control (regsAt s₀ inp cos u) = control (h.after (rampTicks inp t u)) := by
  obtain ⟨n, rfl⟩ : ∃ n, u = t + 1 + n := ⟨u - (t + 1), by omega⟩
  induction n with
  | zero =>
    refine ⟨fun v htv hvu => ?_, ?_⟩
    · obtain rfl : v = t + 1 := by omega
      exact h.starts
    · rw [Nat.add_zero, show rampTicks inp t (t + 1) = 0 by simp [rampTicks]]
      rfl
  | succ n ih =>
    have hle : rampTicks inp t (t + 1 + n) ≤ rampTicks inp t (t + 1 + (n + 1)) :=
      rampTicks_mono (by omega)
    obtain ⟨hruns, hctl⟩ := ih (by omega) (fun v htv hvu => hr v htv (by omega)) (by omega)
    have hnext := h.control_succ (by omega) hruns (hr _ (by omega) (by omega)) hctl
    refine ⟨fun v htv hvu => ?_, hnext⟩
    rcases Nat.lt_or_eq_of_le hvu with hlt | rfl
    · exact hruns v htv (by omega)
    · exact (congrArg Prod.fst hnext).trans (state_beats h.started hinc _ hticks)

theorem RampAt.onTheWay (h : RampAt s₀ inp cos t inc) (hinc : 1 ≤ inc.toInt)
    (hmax : inc.toInt ≤ piWord) (htu : t < u) (hr : ∀ v, t < v → v < u → (inp v).reset = false)
    (hticks : rampTicks inp t u ≤ wholeSteps inc + 2) :
    OnTheWay (regsAt s₀ inp cos) t u inc := by
  have hword : ∀ v, t < v → v ≤ u → (regsAt s₀ inp cos v).phaseOut.toInt =
      wordAt inc.toInt (min (rampTicks inp t v) (wholeSteps inc + 1)) := by
    intro v htv hvu
    have hle : rampTicks inp t v ≤ rampTicks inp t u := rampTicks_mono hvu
    have hctl := (h.control_regsAt hinc htv (fun w htw hwv => hr w htw (by omega)) (by omega)).2
    have hout : (regsAt s₀ inp cos v).phaseOut = (h.after (rampTicks inp t v)).phaseOut :=
      congrArg (fun c => c.2.2.1) hctl
    rw [hout]
    exact toInt_phaseOut_beats_of_le h.started hinc (by omega)
  obtain ⟨hruns, hctl⟩ := h.control_regsAt hinc htu hr hticks
  have hphase : (regsAt s₀ inp cos u).phase = (h.after (rampTicks inp t u)).phase :=
    congrArg (fun c => c.2.1) hctl
  have hbounds : -piWord ≤ (h.after (rampTicks inp t u)).phase.toInt ∧
      (h.after (rampTicks inp t u)).phase.toInt ≤ inc.toInt := phase_bounds h.started hinc hticks
  obtain ⟨hlo, hhi⟩ := hbounds
  obtain ⟨hbelow, -, habove⟩ := wordAt_bounds hinc le_rfl
    (min_le_right (rampTicks inp t u) (wholeSteps inc + 1))
  refine ⟨hruns u htu le_rfl, ?_, ?_, ?_, ?_⟩
  · rw [hphase, BitVec.toInt_add]
    apply Int.bmod_eq_of_le_mul_two
    · unfold piWord at *; push_cast; omega
    · unfold piWord at *; push_cast; omega
  · rw [hword u htu le_rfl, ← toInt_negPi, ← toInt_phaseWord]
    exact hbelow
  · rw [hword u htu le_rfl]
    exact habove
  · intro v htv hvu
    rw [hword v htv hvu, hword u htu le_rfl]
    exact (wordAt_bounds hinc (min_le_min_right _ (rampTicks_mono hvu)) (min_le_right _ _)).2.1

theorem RampAt.idle_after_last (h : RampAt s₀ inp cos t inc) (hinc : 1 ≤ inc.toInt) {e : ℕ}
    (hte : t < e) (hr : ∀ v, t < v → v ≤ e → (inp v).reset = false) (htick : trig inp e = true)
    (hlast : rampTicks inp t e = wholeSteps inc + 2) :
    (regsAt s₀ inp cos (e + 1)).state = .idle := by
  obtain ⟨hruns, hctl⟩ :=
    h.control_regsAt hinc hte (fun v htv hve => hr v htv hve.le) hlast.le
  have hnext := h.control_succ hte hruns (hr e hte le_rfl) hctl
  rw [rampTicks_succ_of_tick hte htick, hlast] at hnext
  exact (congrArg Prod.fst hnext).trans (state_beats_last h.started hinc)

end Run

theorem phaseIncOf_eq_ok {n k : ℕ} (h : phaseIncOf n = .ok k) :
    0 < n ∧ k = cordicInitPhase / n := by
  unfold phaseIncOf at h
  split_ifs at h with h0
  exact ⟨Nat.pos_of_ne_zero h0, (Except.ok.inj h).symm⟩

/-- **The duration of a ramp.** With `phase_inc` between 1 and π a ramp that is not reset is on its
way for `π / inc + 3` ticks and back in IDLE after the last of them. The increment for `n` samples
makes it last for `n` ticks or more. -/
theorem ramp_duration (s₀ : State) (inp : ℕ → Input) (cos : ℕ → BitVec 24) (t : ℕ)
    (inc : BitVec 32) (h : RampAt s₀ inp cos t inc) (hinc : 1 ≤ inc.toInt)
    (hmax : inc.toInt ≤ piWord) :
    (∀ u, t < u → (∀ v, t < v → v < u → (inp v).reset = false) →
      rampTicks inp t u ≤ (piWord / inc.toInt).toNat + 2 →
      OnTheWay (regsAt s₀ inp cos) t u inc) ∧
    (∀ e, t < e → (∀ v, t < v → v ≤ e → (inp v).reset = false) → trig inp e = true →
      rampTicks inp t (e + 1) = (piWord / inc.toInt).toNat + 3 →
      (regsAt s₀ inp cos (e + 1)).state = .idle) ∧
    ∀ n k, n ≤ cordicInitPhase → phaseIncOf n = .ok k → inc = BitVec.ofNat 32 k →
      n ≤ cordicInitPhase / (cordicInitPhase / n) ∧ n ≤ (piWord / inc.toInt).toNat := by
  refine ⟨fun u htu hr hticks => h.onTheWay hinc hmax htu hr hticks, ?_, ?_⟩
  · intro e hte hr htick hlast
    rw [rampTicks_succ_of_tick hte htick] at hlast
    exact h.idle_after_last hinc hte hr htick (Nat.succ.inj hlast)
  · rintro n k hn hk rfl
    obtain ⟨h0, rfl⟩ := phaseIncOf_eq_ok hk
    have hpos : 0 < cordicInitPhase / n := Nat.div_pos hn h0
    exact ⟨(Nat.le_div_iff_mul_le hpos).mpr (Nat.mul_div_le _ _), (le_wholeSteps h0 hn).2⟩

/-- A ramp in one step of π has four ticks. -/
theorem one_step_duration :
    rampTicks (twoRamps 421657300 421657300) 2 14 = 4 ∧
      (∀ u, 2 < u → u ≤ 13 → OnTheWay (regsAt restCore.regs (twoRamps 421657300 421657300)
        fun _ => 0) 2 u 421657300) ∧
      (regsAt restCore.regs (twoRamps 421657300 421657300) (fun _ => 0) 14).state = .idle := by
  have h : RampAt restCore.regs (twoRamps 421657300 421657300) (fun _ => 0) 2 421657300 :=
    ⟨by decide, by decide, fun u _ _ _ => ite_self _⟩
  have hr : ∀ v, 2 < v → (twoRamps 421657300 421657300 v).reset = false :=
    fun v hv => twoRamps_reset _ _ (by omega)
  obtain ⟨hway, hlast, -⟩ := ramp_duration _ _ _ _ _ h (by decide) (by decide)
  refine ⟨by decide, fun u htu hu => hway u htu (fun v hv _ => hr v hv) ?_, ?_⟩
  · exact (rampTicks_mono hu).trans (by decide)
  · exact hlast 13 (by omega) (fun v hv _ => hr v hv) (by decide) (by decide)

end Psc.Control
