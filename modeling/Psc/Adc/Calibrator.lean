import Psc.Adc.DcctModule

/-!
# A calibrator over a run

`dcct_gainoffset.vhd` and `mon_gainoffset.vhd` behind converters that announce their data with a
short pulse.

1. `settled`: a calibrator is ready twenty clocks after a reset, wherever the reset has left it.
2. `calibration`: a rising `conv_done` starts a calibration of eleven clocks.
3. `done_iff`, `out_of_start`: with starts farther apart, `done` follows each by ten clocks, and the
   results stay until those of the next.
-/

namespace Psc.Adc

open Clocked

section Control

variable {ι : Type} {w : ℕ}

/-- Ready for a rising `conv_done`. -/
def Ready (g : State ι w) : Prop := g.state = .idle ∧ g.convDoneLast = false

/-- A calibrator without its samples. -/
def control (g : State ι w) : State DcctInput 20 :=
  ⟨g.state, g.convDoneLast, g.multdlycnt, fun _ => 0, fun _ => 0, g.done⟩

/-- Its ports without the samples. -/
def controlIn (i : Input ι w) : Input DcctInput 20 :=
  ⟨i.reset, i.convDone, fun _ => 0, fun _ => ⟨0, 0⟩⟩

theorem control_step (g : State ι w) (i : Input ι w) :
    control (step g i) = dcctGainoffset (control g) (controlIn i) := by
  have hsub : (0 : BitVec 20) - 0 = 0 := by decide
  have hmul : fixedMul (0 : BitVec 20) 0 4 = 0 := by decide
  unfold dcctGainoffset step
  cases hr : i.reset with
  | true =>
    rw [show (controlIn i).reset = true from hr]
    rfl
  | false =>
    rw [show (controlIn i).reset = false from hr]
    simp only [Bool.false_eq_true, if_false]
    cases hs : g.state with
    | idle =>
      simp only [control, hs]
      rfl
    | applyOffsets => simp only [control, controlIn, hs, hsub]
    | applyGains => simp only [control, controlIn, hs, hmul]
    | multDly =>
      simp only [control, hs]
      split_ifs <;> rfl

/-- With `conv_done` low for twenty clocks a calibrator is ready. -/
theorem settled {g : State ι w} {inp : ℕ → Input ι w} {n : ℕ} (hn : 20 ≤ n)
    (hr : ∀ k < n, (inp k).reset = false) (hlow : ∀ k < n, (inp k).convDone = false) :
    Ready (run step g inp n) := by
  have hrun : ∀ k ≤ n, DcctModule.settle (control (run step g inp k)) ≤ 20 - k := by
    intro k
    induction k with
    | zero => exact fun _ => DcctModule.settle_le _
    | succ k ih =>
      intro hk
      have hstep := @DcctModule.settle_step (control (run step g inp k)) (controlIn (inp k))
        (hr k (by omega)) (hlow k (by omega))
      rw [← control_step, ← run_succ step] at hstep
      have := ih (by omega)
      omega
  have hzero := hrun n le_rfl
  exact (@DcctModule.settle_eq_zero_iff (control (run step g inp n))).mp (by omega)

end Control

section Run

variable {ι : Type} {w : ℕ} {g : State ι w} {inp : ℕ → Input ι w} {t n : ℕ}

/-- The results of a calibration whose `conv_done` comes in clock `t`. -/
def results (inp : ℕ → Input ι w) (t : ℕ) (c : ι) : BitVec w :=
  fixedMul ((inp (t + 1)).raw c - ((inp (t + 1)).params c).offset) ((inp (t + 2)).params c).gain 4

theorem step_ready {i : Input ι w} (hg : Ready g) (hr : i.reset = false)
    (hlow : i.convDone = false) : step g i = { g with done := false } := by
  obtain ⟨hidle, hlast⟩ := hg
  rw [step, if_neg (by simp [hr]), hidle]
  dsimp only
  rw [hlow, ← hlast]
  simp

/-- **A calibration.** -/
theorem calibration (hg : Ready g) (hr : ∀ n < 11, (inp n).reset = false)
    (hpulse : (inp 0).convDone = true) (hlow : (inp 10).convDone = false) :
    Ready (run step g inp 11) ∧
      (∀ n ≤ 11, 0 < n → ((run step g inp n).done = true ↔ n = 10)) ∧
      (∀ n < 3, (run step g inp n).out = g.out) ∧
      ∀ n ≤ 11, 3 ≤ n → (run step g inp n).out = results inp 0 := by
  obtain ⟨hidle, hlast⟩ := hg
  have h1 : run step g inp 1 =
      { g with done := false, convDoneLast := true, state := .applyOffsets } := by
    rw [run_succ, run_zero, step, if_neg (by simp [hr 0 (by omega)]), hidle, hpulse, hlast]
    rfl
  have h2 : run step g inp 2 = { run step g inp 1 with
      oc := fun c => (inp 1).raw c - ((inp 1).params c).offset, state := .applyGains } := by
    rw [run_succ, step, if_neg (by simp [hr 1 (by omega)]), h1]
  have h3 : run step g inp 3 = { run step g inp 2 with
      out := results inp 0, state := .multDly, multdlycnt := 0 } := by
    rw [run_succ, step, if_neg (by simp [hr 2 (by omega)]), h2]
    rfl
  have hdelay : ∀ k ≤ 6, run step g inp (3 + k) =
      { run step g inp 3 with multdlycnt := BitVec.ofNat 4 k } := by
    intro k hk
    rw [run_add]
    exact run_delay (fun n hn => hr (3 + n) (by omega)) (by rw [h3]) (by rw [h3]) k hk
  have h10 : run step g inp 10 =
      { run step g inp 3 with multdlycnt := 6, state := .idle, done := true } := by
    rw [show 10 = 3 + 6 + 1 from rfl, run_succ, hdelay 6 le_rfl, step,
      if_neg (by simp [hr 9 (by omega)]), h3]
    rfl
  have h11 : run step g inp 11 =
      { run step g inp 10 with done := false, convDoneLast := false } := by
    rw [run_succ, step, if_neg (by simp [hr 10 (by omega)]), h10, hlow]
    rfl
  have hmid : ∀ n < 10, 3 ≤ n → (run step g inp n).done = false ∧
      (run step g inp n).out = results inp 0 := by
    intro n hn h3n
    obtain ⟨k, rfl⟩ := Nat.exists_eq_add_of_le h3n
    rw [hdelay k (by omega), h3, h2, h1]
    exact ⟨rfl, rfl⟩
  refine ⟨?_, ?_, ?_, ?_⟩
  · rw [h11, h10]
    exact ⟨rfl, rfl⟩
  · intro n hn hpos
    obtain hlt | rfl | rfl : n < 10 ∨ n = 10 ∨ n = 11 := by omega
    · refine iff_of_false ?_ hlt.ne
      rcases Nat.lt_or_ge n 3 with h | h
      · interval_cases n
        · simp [h1]
        · simp [h2, h1]
      · simp [(hmid n hlt h).1]
    · simp [h10]
    · simp [h11]
  · intro n hn
    interval_cases n
    · rfl
    · rw [h1]
    · rw [h2, h1]
  · intro n hn h3n
    obtain hlt | rfl | rfl : n < 10 ∨ n = 10 ∨ n = 11 := by omega
    · exact (hmid n hlt h3n).2
    · rw [h10, h3]
    · rw [h11, h10, h3]

/-- A run from a reset in clock 0, in which `conv_done` comes up at the clocks `starts`. They leave
the time for a calibration, the first comes more than twenty clocks after the reset, and `conv_done`
is down again after nine clocks. -/
structure Pulsed (inp : ℕ → Input ι w) (starts : ℕ → Bool) : Prop where
  low : ∀ n, 0 < n → (inp n).reset = false
  late : ∀ t, starts t = true → 20 < t
  spaced : Spaced starts 11
  up : ∀ t, starts t = true → (inp t).convDone = true
  down : ∀ n, 0 < n → (inp n).convDone = true → ∃ t, starts t = true ∧ t ≤ n ∧ n < t + 10

variable {starts : ℕ → Bool}

theorem Pulsed.quiet (h : Pulsed inp starts) (hn : 0 < n) (hrest : Rested starts 11 n)
    (hstart : starts n = false) : (inp n).convDone = false := by
  by_contra hup
  obtain ⟨t, ht, htn, hlt⟩ := h.down n hn (by simpa using hup)
  rcases htn.lt_or_eq with hlt' | rfl
  · have := hrest t hlt' ht
    omega
  · rw [hstart] at ht
    cases ht

theorem calibration_at (h : Pulsed inp starts) (hg : Ready (run step g inp t))
    (ht : starts t = true) :
    Ready (run step g inp (t + 11)) ∧
      (∀ n ≤ 11, 0 < n → ((run step g inp (t + n)).done = true ↔ n = 10)) ∧
      (∀ n < 3, (run step g inp (t + n)).out = (run step g inp t).out) ∧
      ∀ n ≤ 11, 3 ≤ n → (run step g inp (t + n)).out = results inp t := by
  have hlate := h.late t ht
  simp only [run_add step g inp t]
  refine calibration hg (fun n _ => h.low (t + n) (by omega)) (h.up t ht) ?_
  by_contra hup
  obtain ⟨t', ht', hle, hlt⟩ := h.down (t + 10) (by omega) (by simpa using hup)
  obtain rfl := h.spaced.eq_of_near ht ht' (by omega) (by omega)
  omega

/-- A calibrator is ready eleven clocks after the last start. -/
theorem ready_of_rested (h : Pulsed inp starts) (hn : 21 ≤ n) (hrest : Rested starts 11 n) :
    Ready (run step g inp n) := by
  obtain ⟨m, rfl⟩ := Nat.exists_eq_add_of_le hn
  have hquiet : ∀ k ≤ 20, 0 < k → (inp k).convDone = false := by
    intro k hk hpos
    by_contra hup
    obtain ⟨t, ht, hle, -⟩ := h.down k hpos (by simpa using hup)
    have := h.late t ht
    omega
  have hfirst : Ready (run step g inp 21) := by
    rw [run_add step g inp 1 20]
    exact settled le_rfl (fun k _ => h.low (1 + k) (by omega)) fun k hk =>
      hquiet (1 + k) (by omega) (by omega)
  have hspaced : Spaced (fun m => starts (21 + m)) 11 := by
    intro t t' htt' ht ht'
    have := h.spaced (21 + t) (21 + t') (by omega) ht ht'
    omega
  refine (hspaced.induction
    (P := fun m => Rested starts 11 (21 + m) ∧ Ready (run step g inp (21 + m)))
    (by omega) ⟨fun t _ ht => ?_, hfirst⟩ ?_ ?_ m fun t ht htick => ?_).2
  · have := h.late t ht
    omega
  · intro m ⟨hrested, hready⟩ hnone
    refine ⟨hrested.succ hnone, ?_⟩
    rw [← Nat.add_assoc, run_succ, step_ready hready (h.low _ (by omega))
      (h.quiet (by omega) hrested hnone)]
    exact hready
  · intro t ⟨_, hready⟩ htick
    exact ⟨h.spaced.rested_add htick, (calibration_at h hready htick).1⟩
  · have := hrest (21 + t) (by omega) htick
    omega

theorem ready_of_start (h : Pulsed inp starts) (ht : starts t = true) : Ready (run step g inp t) :=
  ready_of_rested h (h.late t ht) (h.spaced.rested ht)

theorem ready_before (h : Pulsed inp starts) (hg : Ready g) (hreset : (inp 0).reset = true)
    (hnone : ∀ m < n, starts m = false) : Ready (run step g inp n) ∧
      (run step g inp n).out = g.out ∧ (0 < n → (run step g inp n).done = false) := by
  induction n with
  | zero => exact ⟨hg, rfl, fun hpos => absurd hpos (Nat.lt_irrefl 0)⟩
  | succ n ih =>
    obtain ⟨hready, hout, -⟩ := ih fun m hm => hnone m (by omega)
    rw [run_succ]
    rcases Nat.eq_zero_or_pos n with rfl | hpos
    · rw [step, if_pos hreset]
      exact ⟨hready, hout, fun _ => rfl⟩
    · have hlow : (inp n).convDone = false := by
        by_contra hup
        obtain ⟨t, ht, hle, -⟩ := h.down n hpos (by simpa using hup)
        rw [hnone t (by omega)] at ht
        cases ht
      rw [step_ready hready (h.low n hpos) hlow]
      exact ⟨hready, hout, fun _ => rfl⟩

theorem out_before (h : Pulsed inp starts) (hg : Ready g) (hreset : (inp 0).reset = true)
    (hnone : ∀ m, m + 2 < n → starts m = false) : (run step g inp n).out = g.out := by
  by_cases hstart : ∃ t, t < n ∧ starts t = true
  · obtain ⟨t, htn, ht⟩ := hstart
    have hnt : n ≤ t + 2 := by
      by_contra hlt
      rw [hnone t (by omega)] at ht
      cases ht
    have hbefore : ∀ m < t, starts m = false := by
      intro m hmt
      by_contra hm
      have := h.spaced m t hmt (by simpa using hm) ht
      exact hm (hnone m (by omega))
    obtain ⟨hready, hout, -⟩ := ready_before h hg hreset hbefore
    obtain ⟨k, rfl⟩ := Nat.exists_eq_add_of_lt htn
    rw [Nat.add_assoc t k 1, (calibration_at h hready ht).2.2.1 (k + 1) (by omega), hout]
  · refine (ready_before h hg hreset fun m hm => ?_).2.1
    by_contra hup
    exact hstart ⟨m, hm, by simpa using hup⟩

/-- `done` follows each start by ten clocks, and comes at no other time. -/
theorem done_iff (h : Pulsed inp starts) (hn : 21 < n) :
    (run step g inp n).done = true ↔ ∃ t, starts t = true ∧ n = t + 10 := by
  by_cases hrest : Rested starts 11 (n - 1) ∧ starts (n - 1) = false
  · obtain ⟨m, rfl⟩ : ∃ m, n = m + 1 := ⟨n - 1, by omega⟩
    rw [Nat.add_sub_cancel] at hrest
    have hready := @ready_of_rested ι w g inp m starts h (by omega) hrest.1
    rw [run_succ, step_ready hready (h.low m (by omega)) (h.quiet (by omega) hrest.1 hrest.2)]
    refine iff_of_false (by simp) ?_
    rintro ⟨t, ht, hm⟩
    have := hrest.1 t (by omega) ht
    omega
  · -- a start in the last eleven clocks
    obtain ⟨t, htn, hnt, ht⟩ : ∃ t, t < n ∧ n ≤ t + 11 ∧ starts t = true := by
      by_contra hnone
      refine hrest ⟨fun t htn ht => ?_, ?_⟩
      · by_contra hlt
        exact hnone ⟨t, by omega, by omega, ht⟩
      · by_contra hup
        exact hnone ⟨n - 1, by omega, by omega, by simpa using hup⟩
    obtain ⟨k, rfl⟩ := Nat.exists_eq_add_of_lt htn
    have hcal := (calibration_at h (ready_of_start (g := g) h ht) ht).2.1 (k + 1) (by omega)
      (by omega)
    rw [Nat.add_assoc t k 1, hcal]
    constructor
    · intro hk
      exact ⟨t, ht, by omega⟩
    · rintro ⟨t', ht', hk⟩
      obtain rfl := h.spaced.eq_of_near ht ht' (by omega) (by omega)
      omega

theorem ready_of_none (h : Pulsed inp starts) (ht : starts t = true) (hg : Ready (run step g inp t))
    (hn : t + 11 ≤ n) (hnone : ∀ k, t < k → k < n → starts k = false) :
    Ready (run step g inp n) ∧ (run step g inp n).out = results inp t := by
  obtain ⟨hready, -, -, hout⟩ := calibration_at h hg ht
  induction n, hn using Nat.le_induction with
  | base => exact ⟨hready, hout 11 le_rfl (by omega)⟩
  | succ n hn ih =>
    obtain ⟨hready', hout'⟩ := ih fun k htk hkn => hnone k htk (by omega)
    have hlow : (inp n).convDone = false := by
      refine h.quiet (by omega) (fun t' ht'n ht' => ?_) (hnone n (by omega) n.lt_succ_self)
      rcases Nat.lt_trichotomy t t' with h1 | rfl | h1
      · rw [hnone t' h1 (by omega)] at ht'
        cases ht'
      · exact hn
      · have := h.spaced t' t h1 ht' ht
        omega
    rw [run_succ, step_ready hready' (h.low n (by omega)) hlow]
    exact ⟨hready', hout'⟩

/-- The results of a start stay until those of the next. -/
theorem out_of_start (h : Pulsed inp starts) (ht : starts t = true) (hn : t + 3 ≤ n)
    (hnone : ∀ m, t < m → m + 2 < n → starts m = false) :
    (run step g inp n).out = results inp t := by
  have hg := ready_of_start (g := g) h ht
  rcases Nat.lt_or_ge n (t + 12) with hlt | hge
  · obtain ⟨k, rfl⟩ := Nat.exists_eq_add_of_le (show t ≤ n by omega)
    exact (calibration_at h hg ht).2.2.2 k (by omega) (by omega)
  · by_cases hstart : ∃ t', t < t' ∧ t' < n ∧ starts t' = true
    · -- the next calibration has not got to its results
      obtain ⟨t', htt', ht'n, ht'⟩ := hstart
      have hnt' : n ≤ t' + 2 := by
        by_contra hlt
        rw [hnone t' htt' (by omega)] at ht'
        cases ht'
      obtain ⟨hg', hbefore⟩ := ready_of_none h ht hg (h.spaced t t' htt' ht ht')
        fun k htk hkt' => by
          by_contra hup
          have := h.spaced k t' hkt' (by simpa using hup) ht'
          exact hup (hnone k htk (by omega))
      obtain ⟨k, rfl⟩ := Nat.exists_eq_add_of_lt ht'n
      rw [Nat.add_assoc t' k 1, (calibration_at h hg' ht').2.2.1 (k + 1) (by omega), hbefore]
    · refine (ready_of_none h ht hg (by omega) fun k htk hkn => ?_).2
      by_contra hup
      exact hstart ⟨k, htk, hkn, by simpa using hup⟩

end Run

end Psc.Adc
