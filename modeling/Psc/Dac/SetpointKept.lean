import Psc.Dac.Ramp

/-!
# Setpoints that come during a ramp

`smooth_ramp.vhd` compares `new_setpt` with `new_setpt_prev` in IDLE only, and it is only there that
`new_setpt_prev` is written. So a change during a ramp is not seen when it comes; but the register
stays at the target of that ramp (`prev_eq_lat`), and the first clock in IDLE compares with it.

1. A clock in smooth mode is one of four `Move`s.
2. From any clock on, `new_setpt_prev` is the target of the last ramp started since, or what it was
   at that clock if there was none (`follows`).
3. A ramp ends whatever `phase_inc` does, as long as it stays positive (`exists_idle`).

`no_setpoint_lost`: together, the value that `new_setpt` is left at is ramped to.
-/

namespace Psc.SmoothRamp

open Clocked

/-! ## A clock in smooth mode -/

/-- What a clock in smooth mode does to the state and the two setpoint registers. -/
inductive Move (s : State) (i : Input) (s' : State) : Prop
  | resets (reset : i.reset = true) (idle : s'.state = .idle)
  | rests (idle : s.state = .idle) (same : i.newSetpt = s.newSetptPrev) (idle' : s'.state = .idle)
      (prev : s'.newSetptPrev = s.newSetptPrev)
  | starts (idle : s.state = .idle) (differs : i.newSetpt ≠ s.newSetptPrev)
      (runs : s'.state = .runRamp) (prev : s'.newSetptPrev = i.newSetpt)
      (lat : s'.newSetptLat = i.newSetpt)
  | runs (run : s.state = .runRamp) (prev : s'.newSetptPrev = s.newSetptPrev)
      (lat : s'.newSetptLat = s.newSetptLat)

@[simp] theorem tickRamp_newSetptPrev (s : State) (inc : BitVec 32) (cos : BitVec 24) :
    (tickRamp s inc cos).newSetptPrev = s.newSetptPrev := by
  unfold tickRamp; split_ifs <;> rfl

theorem move_step (s : State) (i : Input) (cos : BitVec 24) (hm : i.mode = 0) :
    Move s i (step s i cos) := by
  cases hr : i.reset with
  | true => exact .resets hr (by rw [step, if_pos hr])
  | false =>
    rw [step, if_neg (by simp [hr])]
    cases hs : s.state with
    | idle =>
      simp only [idleClock]
      split_ifs with hne
      · exact .starts hs (Ne.symm hne.1) rfl rfl rfl
      · have heq : i.newSetpt = s.newSetptPrev := by
          by_contra h
          exact hne ⟨Ne.symm h, hm⟩
        exact .rests hs heq hs heq
    | runRamp =>
      show Move s i (if i.tenkhzTrig then tickRamp s i.phaseInc cos else s)
      split_ifs
      · exact .runs hs (tickRamp_newSetptPrev _ _ _) (tickRamp_newSetptLat _ _ _)
      · exact .runs hs rfl rfl

/-! ## The last ramp -/

section Last

variable (x : ℕ → Core) (r n : ℕ)

/-- A ramp starts at clock `t`. -/
def StartsAt (t : ℕ) : Prop :=
  (x t).regs.state = .idle ∧ (x (t + 1)).regs.state = .runRamp

/-- No ramp starts from clock `r` on and before clock `n`. -/
def NoStart : Prop := ∀ t, r ≤ t → t < n → ¬StartsAt x t

/-- Of the ramps that start from clock `r` on and before clock `n`, the last starts at clock `t`. -/
structure LastStart (t : ℕ) : Prop where
  le : r ≤ t
  lt : t < n
  starts : StartsAt x t
  last : NoStart x (t + 1) n

/-- At clock `n` the target of the last ramp since clock `r` is `v`, or no ramp was run since, for
`new_setpt_prev` was `v` already. -/
def Reached (v : BitVec 20) : Prop :=
  (∃ t, LastStart x r n t ∧ (x (t + 1)).regs.newSetptLat = v) ∨
    (NoStart x r n ∧ (x r).regs.newSetptPrev = v)

variable {x r n}

theorem NoStart.succ (h : NoStart x r n) (hn : ¬StartsAt x n) : NoStart x r (n + 1) := by
  intro t hrt htn
  rcases Nat.lt_succ_iff_lt_or_eq.mp htn with hlt | rfl
  · exact h t hrt hlt
  · exact hn

theorem Reached.succ {v : BitVec 20} (h : Reached x r n v) (hn : ¬StartsAt x n) :
    Reached x r (n + 1) v := by
  rcases h with ⟨t, ht, hlat⟩ | ⟨hnone, hprev⟩
  · exact Or.inl ⟨t, ⟨ht.le, by have := ht.lt; omega, ht.starts, ht.last.succ hn⟩, hlat⟩
  · exact Or.inr ⟨hnone.succ hn, hprev⟩

theorem reached_of_starts (hr : r ≤ n) (hn : StartsAt x n) :
    Reached x r (n + 1) (x (n + 1)).regs.newSetptLat :=
  Or.inl ⟨n, ⟨hr, n.lt_succ_self, hn, fun t h1 h2 => by omega⟩, rfl⟩

end Last

/-! ## A run in smooth mode -/

/-- A run in mode 00 that begins in IDLE, with `phase_inc` at 1 or more. -/
structure InSmoothMode (x₀ : Core) (inp : ℕ → Input) : Prop where
  idle : x₀.regs.state = .idle
  mode : ∀ n, (inp n).mode = 0
  phaseInc : ∀ n, 1 ≤ (inp n).phaseInc.toInt

section Run

variable {cosine : BitVec 24 → BitVec 24} {x₀ : Core} {inp : ℕ → Input} {r n : ℕ} {v : BitVec 20}

variable (cosine) in
theorem InSmoothMode.move (h : InSmoothMode x₀ inp) (n : ℕ) :
    Move (run (clock cosine) x₀ inp n).regs (inp n) (run (clock cosine) x₀ inp (n + 1)).regs :=
  move_step _ _ _ (h.mode n)

/-- While a ramp runs, `new_setpt_prev` is its target. -/
theorem InSmoothMode.prev_eq_lat (h : InSmoothMode x₀ inp) (n : ℕ)
    (hn : (run (clock cosine) x₀ inp n).regs.state = .runRamp) :
    (run (clock cosine) x₀ inp n).regs.newSetptPrev =
      (run (clock cosine) x₀ inp n).regs.newSetptLat := by
  induction n with
  | zero =>
    have hidle : (run (clock cosine) x₀ inp 0).regs.state = .idle := h.idle
    cases hidle.symm.trans hn
  | succ n ih =>
    cases h.move cosine n with
    | resets _ hidle => cases hidle.symm.trans hn
    | rests _ _ hidle _ => cases hidle.symm.trans hn
    | starts _ _ _ hprev hlat => rw [hprev, hlat]
    | runs hrun hprev hlat => rw [hprev, hlat, ih hrun]

/-- `new_setpt_prev` is what the last ramp made of it. -/
theorem InSmoothMode.follows (h : InSmoothMode x₀ inp) (hrn : r ≤ n)
    (hreset : ∀ m, r ≤ m → m < n → (inp m).reset = false) :
    Reached (run (clock cosine) x₀ inp) r n (run (clock cosine) x₀ inp n).regs.newSetptPrev := by
  induction n, hrn using Nat.le_induction with
  | base => exact Or.inr ⟨fun t h1 h2 => by omega, rfl⟩
  | succ n hrn ih =>
    have hn := ih fun m h1 h2 => hreset m h1 (by omega)
    cases h.move cosine n with
    | resets hr _ => cases (hreset n hrn n.lt_succ_self).symm.trans hr
    | rests _ _ hidle hprev =>
      rw [hprev]
      exact hn.succ fun hs => by cases hs.2.symm.trans hidle
    | starts hidle _ hruns hprev hlat =>
      rw [hprev, ← hlat]
      exact reached_of_starts hrn ⟨hidle, hruns⟩
    | runs hrun hprev _ =>
      rw [hprev]
      exact hn.succ fun hs => by cases hs.1.symm.trans hrun

theorem InSmoothMode.prev_of_rests (h : InSmoothMode x₀ inp) (hreset : (inp n).reset = false)
    (hn : (run (clock cosine) x₀ inp n).regs.state = .idle)
    (hn' : (run (clock cosine) x₀ inp (n + 1)).regs.state = .idle) :
    (inp n).newSetpt = (run (clock cosine) x₀ inp n).regs.newSetptPrev := by
  cases h.move cosine n with
  | resets hr _ => cases hreset.symm.trans hr
  | rests _ hsame _ _ => exact hsame
  | starts _ _ hruns _ _ => cases hn'.symm.trans hruns
  | runs hrun _ _ => cases hn.symm.trans hrun

theorem InSmoothMode.starts_of_differs (h : InSmoothMode x₀ inp) (hreset : (inp n).reset = false)
    (hn : (run (clock cosine) x₀ inp n).regs.state = .idle)
    (hne : (inp n).newSetpt ≠ (run (clock cosine) x₀ inp n).regs.newSetptPrev) :
    StartsAt (run (clock cosine) x₀ inp) n ∧
      (run (clock cosine) x₀ inp (n + 1)).regs.newSetptLat = (inp n).newSetpt := by
  cases h.move cosine n with
  | resets hr _ => cases hreset.symm.trans hr
  | rests _ hsame _ _ => exact absurd hsame hne
  | starts hidle _ hruns _ hlat => exact ⟨⟨hidle, hruns⟩, hlat⟩
  | runs hrun _ _ => cases hn.symm.trans hrun

/-! ## The end of a ramp -/

/-- The ticks that a ramp has left before it ends, at most. -/
def ticksLeft (s : State) : ℕ :=
  if s.lastPoint then 1 else if 0 < s.phase.toInt then 2 else (-s.phase.toInt).toNat + 3

/-- A tick ends the ramp or takes one off, whatever the increment. -/
theorem ticksLeft_tickRamp (s : State) (inc : BitVec 32) (cos : BitVec 24) (hinc : 1 ≤ inc.toInt) :
    (tickRamp s inc cos).state = .idle ∨ ticksLeft (tickRamp s inc cos) + 1 ≤ ticksLeft s := by
  cases hl : s.lastPoint with
  | true => exact Or.inl (by rw [tickRamp_state, hl]; rfl)
  | false =>
    right
    unfold ticksLeft
    rcases lt_or_ge 0 s.phase.toInt with hpos | hneg
    · obtain ⟨-, hlast, -⟩ := tickRamp_of_phase_pos s inc cos hpos
      simp [hlast, hl, hpos]
    · obtain ⟨hphase, hlast, -⟩ := tickRamp_of_phase_le s inc cos hneg
      have hmax := @BitVec.toInt_lt _ inc
      have hmin := BitVec.le_toInt s.phase
      have hsum : (s.phase + inc).toInt = s.phase.toInt + inc.toInt := by
        rw [BitVec.toInt_add, Int.bmod_eq_of_le_mul_two]
        · norm_num at *; omega
        · norm_num at *; omega
      rw [hlast, hl, hphase, hsum, if_neg (by omega : ¬0 < s.phase.toInt)]
      simp only [Bool.false_eq_true, if_false]
      split_ifs <;> omega

variable (cosine) in
/-- **A ramp ends.** Where ticks keep coming, the machine is in IDLE again and again. -/
theorem InSmoothMode.exists_idle (h : InSmoothMode x₀ inp)
    (hlive : ∀ m, ∃ u, m ≤ u ∧ trig inp u = true) (n : ℕ)
    (hreset : ∀ m, n ≤ m → (inp m).reset = false) :
    ∃ m, n ≤ m ∧ (run (clock cosine) x₀ inp m).regs.state = .idle := by
  refine exists_of_rank (fun m => ticksLeft (run (clock cosine) x₀ inp m).regs) hlive ?_
  intro m hnm hne
  have hrun : (run (clock cosine) x₀ inp m).regs.state = .runRamp := by
    cases hs : (run (clock cosine) x₀ inp m).regs.state with
    | idle => exact absurd hs hne
    | runRamp => rfl
  cases ht : trig inp m with
  | true =>
    rw [run_succ, clock_regs_of_tick hrun (hreset m hnm) ht]
    exact ticksLeft_tickRamp _ _ _ (h.phaseInc m)
  | false =>
    right
    rw [run_succ, clock_regs_of_not_tick hrun (hreset m hnm) ht]
    simp

theorem InSmoothMode.prev_held (h : InSmoothMode x₀ inp)
    (hreset : ∀ m, n ≤ m → (inp m).reset = false) (hv : ∀ m, n ≤ m → (inp m).newSetpt = v)
    (hn : (run (clock cosine) x₀ inp n).regs.newSetptPrev = v) (m : ℕ) (hnm : n ≤ m) :
    (run (clock cosine) x₀ inp m).regs.newSetptPrev = v := by
  induction m, hnm using Nat.le_induction with
  | base => exact hn
  | succ m hnm ih =>
    cases h.move cosine m with
    | resets hr _ => cases (hreset m hnm).symm.trans hr
    | rests _ _ _ hprev => rw [hprev, ih]
    | starts _ _ _ hprev _ => rw [hprev, hv m hnm]
    | runs _ hprev _ => rw [hprev, ih]

theorem InSmoothMode.idle_held (h : InSmoothMode x₀ inp)
    (hreset : ∀ m, n ≤ m → (inp m).reset = false) (hv : ∀ m, n ≤ m → (inp m).newSetpt = v)
    (hn : (run (clock cosine) x₀ inp n).regs.newSetptPrev = v)
    (hidle : (run (clock cosine) x₀ inp n).regs.state = .idle) (m : ℕ) (hnm : n ≤ m) :
    (run (clock cosine) x₀ inp m).regs.state = .idle := by
  induction m, hnm using Nat.le_induction with
  | base => exact hidle
  | succ m hnm ih =>
    cases h.move cosine m with
    | resets _ hidle' => exact hidle'
    | rests _ _ hidle' _ => exact hidle'
    | starts _ hdiffers _ _ _ =>
      exact absurd ((hv m hnm).trans (h.prev_held hreset hv hn m hnm).symm) hdiffers
    | runs hrun _ _ => cases ih.symm.trans hrun

theorem InSmoothMode.exists_rest (h : InSmoothMode x₀ inp)
    (hlive : ∀ m, ∃ u, m ≤ u ∧ trig inp u = true) (hreset : ∀ m, n ≤ m → (inp m).reset = false)
    (hv : ∀ m, n ≤ m → (inp m).newSetpt = v) :
    ∃ e, n ≤ e ∧ ∀ m, e ≤ m → (run (clock cosine) x₀ inp m).regs.state = .idle := by
  -- the ramp that runs ends, the clock after it brings `new_setpt_prev` to `v`, and one more
  -- ramp may follow
  obtain ⟨a, hna, ha⟩ := h.exists_idle cosine hlive n hreset
  have hprev : (run (clock cosine) x₀ inp (a + 1)).regs.newSetptPrev = v := by
    cases h.move cosine a with
    | resets hr _ => cases (hreset a hna).symm.trans hr
    | rests _ hsame _ hprev => rw [hprev, ← hsame, hv a hna]
    | starts _ _ _ hprev _ => rw [hprev, hv a hna]
    | runs hrun _ _ => cases ha.symm.trans hrun
  have hreset' : ∀ m, a + 1 ≤ m → (inp m).reset = false := fun m hm => hreset m (by omega)
  have hv' : ∀ m, a + 1 ≤ m → (inp m).newSetpt = v := fun m hm => hv m (by omega)
  obtain ⟨b, hab, hb⟩ := h.exists_idle cosine hlive (a + 1) hreset'
  refine ⟨b, by omega, fun m hbm => ?_⟩
  exact h.idle_held (fun k hk => hreset' k (by omega)) (fun k hk => hv' k (by omega))
    (h.prev_held hreset' hv' hprev b hab) hb m hbm

end Run

/-- **No setpoint is lost.** In smooth mode, whatever comes at `new_setpt`, at the ticks and at the
resets: while a ramp runs `new_setpt_prev` is its target. Where `new_setpt` is left at `v` and a
clock in IDLE starts no ramp, `v` is the target of the last ramp since any clock `r` without a reset
since, or none was needed. The first clock in IDLE after a ramp starts a ramp to the setpoint of
that clock, if it is another. And with ticks to come the machine does come to rest. -/
theorem no_setpoint_lost (cosine : BitVec 24 → BitVec 24) (x₀ : Core) (inp : ℕ → Input)
    (h : InSmoothMode x₀ inp) :
    (∀ n, (run (clock cosine) x₀ inp n).regs.state = .runRamp →
      (run (clock cosine) x₀ inp n).regs.newSetptPrev =
        (run (clock cosine) x₀ inp n).regs.newSetptLat) ∧
    (∀ v N, (∀ n, N ≤ n → (inp n).newSetpt = v) →
      (∀ r n, r ≤ n → N ≤ n → (∀ m, r ≤ m → m ≤ n → (inp m).reset = false) →
        (run (clock cosine) x₀ inp n).regs.state = .idle →
        (run (clock cosine) x₀ inp (n + 1)).regs.state = .idle →
        Reached (run (clock cosine) x₀ inp) r n v) ∧
      ((∀ m, ∃ u, m ≤ u ∧ trig inp u = true) → (∀ m, N ≤ m → (inp m).reset = false) →
        ∃ e, N ≤ e ∧ ∀ m, e ≤ m → (run (clock cosine) x₀ inp m).regs.state = .idle)) ∧
    ∀ u, (run (clock cosine) x₀ inp u).regs.state = .runRamp →
      (run (clock cosine) x₀ inp (u + 1)).regs.state = .idle →
      (inp u).reset = false → (inp (u + 1)).reset = false →
      (inp (u + 1)).newSetpt ≠ (run (clock cosine) x₀ inp u).regs.newSetptLat →
      StartsAt (run (clock cosine) x₀ inp) (u + 1) ∧
        (run (clock cosine) x₀ inp (u + 2)).regs.newSetptLat = (inp (u + 1)).newSetpt := by
  refine ⟨h.prev_eq_lat, ?_, ?_⟩
  · intro v N hv
    constructor
    · intro r n hrn hNn hreset hn hn'
      have hsame := h.prev_of_rests (hreset n hrn le_rfl) hn hn'
      rw [← hv n hNn, hsame]
      exact h.follows hrn fun m h1 h2 => hreset m h1 h2.le
    · exact fun hlive hreset => h.exists_rest hlive hreset hv
  · intro u hu hu' hr hr' hne
    refine h.starts_of_differs hr' hu' ?_
    cases h.move cosine u with
    | resets hreset _ => cases hr.symm.trans hreset
    | rests hidle _ _ _ => cases hidle.symm.trans hu
    | starts hidle _ _ _ _ => cases hidle.symm.trans hu
    | runs _ hprev _ => rwa [hprev, h.prev_eq_lat u hu]

theorem inSmoothMode_twoRamps : InSmoothMode restCore (twoRamps 1 1) where
  idle := rfl
  mode _ := rfl
  phaseInc n := by
    have hinc : (twoRamps 1 1 n).phaseInc = 1 := ite_self _
    rw [hinc]
    decide

/-- The setpoint 2000, written fifteen clocks into a ramp to 1000 that takes some 4 * 10^8 ticks, is
ramped to. -/
theorem second_setpoint_kept : ∃ e, 17 ≤ e ∧ ∀ m, e ≤ m →
    (run (clock coarseCosine) restCore (twoRamps 1 1) m).regs.state = .idle ∧
      Reached (run (clock coarseCosine) restCore (twoRamps 1 1)) 1 m 2000 := by
  have hv : ∀ n, 17 ≤ n → (twoRamps 1 1 n).newSetpt = 2000 := by
    intro n hn
    show (if n < 2 then _ else if n < 17 then _ else _) = _
    rw [if_neg (by omega), if_neg (by omega)]
  obtain ⟨hreached, hrest⟩ :=
    (no_setpoint_lost coarseCosine restCore _ inSmoothMode_twoRamps).2.1 2000 17 hv
  obtain ⟨e, he, hidle⟩ :=
    hrest (twoRamps_live 1 1) fun m hm => twoRamps_reset 1 1 (by omega)
  refine ⟨e, he, fun m hm => ⟨hidle m hm, ?_⟩⟩
  exact hreached 1 m (by omega) (by omega) (fun k hk _ => twoRamps_reset 1 1 (by omega))
    (hidle m hm) (hidle (m + 1) (by omega))

end Psc.SmoothRamp
