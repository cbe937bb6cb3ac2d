import Psc.Fault.Trips

/-!
# Clearing the latches

The clear command reaches the fault block as a level. Its rising edge sets `clear_pulse`, which
stays up until the next tick: the tick that is evaluated with it clears the counters, the live bits
and the latches (`cleared_iff`). What is latched afterwards has been counted in full since
(`heldSince_of_latched`), and there are no more clearing ticks than rising edges
(`clearing_le_rises`).

The clear does not survive a reset: the first tick takes `clear_pulse` down also when `reset` is
high, where nothing is evaluated and the counters of the digital sources stay as they were.
-/

namespace Psc.FaultBlock

open NumericStd Clocked

/-! ## One clock, with or without reset -/

/-- The checks run: a tick without reset. -/
def evaluates (s : State) (i : Input) : Bool := s.tenKhzPulse && !i.reset

theorem tenKhzPulse_run (s : State) (inp : ℕ → Input) (n : ℕ) :
    (run step s inp (n + 3)).tenKhzPulse =
      (!(inp (n + 2)).reset && !(inp (n + 1)).reset && !(inp n).reset && (inp n).tenkhzTrig) := by
  simp only [run_succ, step]
  cases (inp (n + 2)).reset <;> cases (inp (n + 1)).reset <;> cases (inp n).reset <;> rfl

section Clock

variable (s : State) (i : Input)

theorem faultRegLat_getLsbD (k : ℕ) :
    (step s i).faultRegLat.getLsbD k =
      if i.reset then false
      else if k < 13 then !s.clearPulse && (s.faultReg.getLsbD k || s.faultRegLat.getLsbD k)
      else s.faultRegLat.getLsbD k := by
  show (mainFaultLogic s i).faultRegLat.getLsbD k = _
  unfold mainFaultLogic
  cases i.reset with
  | true => simp
  | false => exact latchLoop_getLsbD _ _ _ _ 13 (by omega)

theorem counter_of_reset (src : Source) (hr : i.reset = true) :
    src.counter (step s i) = ⟨if src.analog then 0 else src.cnt s, false⟩ := by
  have hlive : src.live (step s i) = false := by
    simp [Source.live, step, mainFaultLogic, hr]
  rw [Source.counter, cnt_reset s i src hr, hlive]

theorem evrBit_step : (step s i).faultReg.getLsbD 12 = (!i.reset && i.evrFltIn) := by
  show (mainFaultLogic s i).faultReg.getLsbD 12 = _
  unfold mainFaultLogic
  cases i.reset with
  | true => simp
  | false =>
    show (setBit _ 12 i.evrFltIn).getLsbD 12 = _
    rw [getLsbD_setBit, if_pos ⟨rfl, by omega⟩]
    rfl

/-- The clear command has risen and is about to set `clear_pulse`. -/
def risen : Bool := s.re && !s.reReg

theorem clearPulse_step :
    (step s i).clearPulse = (risen s || (s.clearPulse && !s.tenKhzPulse)) := by
  show (if !s.reReg && s.re then true else if s.tenKhzPulse then false else s.clearPulse) = _
  unfold risen
  cases s.reReg <;> cases s.re <;> cases s.tenKhzPulse <;> simp

/-- The clear command rises at this clock: `re` has its value at the clock before. -/
def rises : Bool := i.faultParams.clear && !s.re

theorem risen_step : risen (step s i) = rises s i := rfl

end Clock

/-! ## A clearing tick -/

/-- All counters, the counted live bits and all latches are zero. -/
structure AllClear (s : State) : Prop where
  cnt : ∀ src : Source, src.cnt s = 0
  live : ∀ src : Source, src.live s = false
  lat : ∀ k < 13, s.faultRegLat.getLsbD k = false

/-- No reset is in the way of a clear: there is none, or it finds the counters it leaves alone at
zero. -/
def Unhindered (s : State) (i : Input) : Prop :=
  i.reset = true → ∀ src : Source, src.analog = false → src.cnt s = 0

theorem counter_of_clearing {s : State} (i : Input) (ht : s.tenKhzPulse = true)
    (hc : s.clearPulse = true) (src : Source) :
    src.counter (step s i) = ⟨if i.reset && !src.analog then src.cnt s else 0, false⟩ := by
  cases hr : i.reset with
  | true =>
    rw [counter_of_reset s i src hr]
    cases src.analog <;> rfl
  | false =>
    have hp : src.trips s i = false := by simp [Source.trips, hc]
    rw [counter_step s i src hr, if_pos ht, hp]
    rfl

/-- A clearing tick clears everything exactly if it is unhindered. -/
theorem cleared_iff {s : State} (i : Input) (ht : s.tenKhzPulse = true)
    (hc : s.clearPulse = true) : AllClear (step s i) ↔ Unhindered s i := by
  have hcnt : ∀ src : Source,
      src.cnt (step s i) = if i.reset && !src.analog then src.cnt s else 0 :=
    fun src => congrArg TripCounter.State.count (counter_of_clearing i ht hc src)
  constructor
  · intro h hr src hdig
    have h0 := h.cnt src
    rw [hcnt, hr, hdig] at h0
    exact h0
  · intro h
    refine ⟨?_, ?_, ?_⟩
    · intro src
      rw [hcnt]
      cases hr : i.reset with
      | false => rfl
      | true =>
        cases hdig : src.analog with
        | true => rfl
        | false => exact h hr src hdig
    · intro src
      exact congrArg TripCounter.State.live (counter_of_clearing i ht hc src)
    · intro k hk
      rw [faultRegLat_getLsbD, if_pos hk, hc]
      cases i.reset <;> rfl

/-! ## Runs -/

section Runs

variable (s : State) (inp : ℕ → Input)

/-- At clock `n` a tick is found with `clear_pulse` up. -/
def clearing (n : ℕ) : Bool := (run step s inp n).tenKhzPulse && (run step s inp n).clearPulse

/-- The clear commands that have risen and not yet had their clearing tick. -/
def pendingClears : ℕ := (if s.clearPulse then 1 else 0) + if risen s then 1 else 0

/-- The first tick after the rising edge at clock `t` has been detected, at clock `t + 1`. -/
structure FirstTickAfter (t n : ℕ) : Prop where
  after : t + 2 ≤ n
  tick : (run step s inp n).tenKhzPulse = true
  first : ∀ m, t + 2 ≤ m → m < n → (run step s inp m).tenKhzPulse = false

/-- A tick is evaluated that ends `L + 1` ticks of the trip condition, all after clock `n`, with `L`
the limit in force. -/
def HeldSince (src : Source) (n m : ℕ) : Prop :=
  evaluates (run step s inp m) (inp m) = true ∧
    HeldFor (fun k => evaluates (run step s inp k) (inp k) && decide (n < k))
      (fun k => src.trips (run step s inp k) (inp k)) (src.cntlim (inp m).faultParams + 1) (m + 1)

variable {s inp}

theorem clearPulse_of_rises {t n : ℕ} (hrise : rises (run step s inp t) (inp t) = true)
    (hn : FirstTickAfter s inp t n) : (run step s inp n).clearPulse = true := by
  obtain ⟨hafter, -, hfirst⟩ := hn
  have hup : ∀ m, t + 2 ≤ m → m ≤ n → (run step s inp m).clearPulse = true := by
    intro m hm
    induction m, hm using Nat.le_induction with
    | base =>
      intro _
      rw [run_succ, clearPulse_step, run_succ, risen_step, hrise]
      rfl
    | succ m hm ih =>
      intro hmn
      rw [run_succ, clearPulse_step, ih (by omega), hfirst m hm (by omega)]
      simp
  exact hup n hafter le_rfl

theorem pendingClears_step (s : State) (i : Input) :
    (if s.tenKhzPulse && s.clearPulse then 1 else 0) + pendingClears (step s i) ≤
      (if rises s i then 1 else 0) + pendingClears s := by
  unfold pendingClears
  rw [clearPulse_step, risen_step, ← Nat.add_assoc, Nat.add_comm _ (if rises s i then 1 else 0)]
  refine Nat.add_le_add_left ?_ _
  cases s.clearPulse <;> cases s.tenKhzPulse <;> cases risen s <;> decide

variable (s inp) in
theorem clearing_add_pending (n : ℕ) :
    tickCount (clearing s inp) n + pendingClears (run step s inp n) ≤
      tickCount (fun k => rises (run step s inp k) (inp k)) n + pendingClears s := by
  induction n with
  | zero => exact le_rfl
  | succ n ih =>
    have hpend := pendingClears_step (run step s inp n) (inp n)
    rw [tickCount_succ, tickCount_succ, run_succ]
    unfold clearing at *
    omega

variable (s inp) in
theorem clearing_le_rises (n : ℕ) :
    tickCount (clearing s inp) n ≤
      tickCount (fun k => rises (run step s inp k) (inp k)) n + pendingClears s :=
  (Nat.le_add_right _ _).trans (clearing_add_pending s inp n)

theorem counter_clock (src : Source) (s : State) (i : Input) :
    (evaluates s i = true → src.counter (step s i) =
      TripCounter.step src.modulus (src.cntlim i.faultParams) (src.trips s i) (src.counter s)) ∧
    (evaluates s i = false → ((src.counter (step s i)).count = (src.counter s).count ∨
        (src.counter (step s i)).count = 0) ∧
      ((src.counter (step s i)).live = true → (src.counter s).live = true)) := by
  unfold evaluates
  cases hr : i.reset with
  | true =>
    rw [counter_of_reset s i src hr]
    refine ⟨by simp, fun _ => ⟨?_, by simp⟩⟩
    cases src.analog with
    | true => exact Or.inr rfl
    | false => exact Or.inl rfl
  | false =>
    rw [counter_step s i src hr]
    cases s.tenKhzPulse with
    | true => simp
    | false => simp

/-- From a cleared source on, a live bit has been counted in full. -/
theorem heldSince_of_live {src : Source} {n : ℕ}
    (h0 : src.counter (run step s inp (n + 1)) = ⟨0, false⟩) {u : ℕ} (hnu : n < u)
    (hl : src.live (run step s inp u) = true) :
    ∃ m, n < m ∧ m < u ∧ HeldSince s inp src n m := by
  -- the counter, held at zero up to clock `n`
  have hc : TripCounter.Falls src.modulus
      (fun k => evaluates (run step s inp k) (inp k) && decide (n < k))
      (fun k => src.trips (run step s inp k) (inp k)) (fun k => src.cntlim (inp k).faultParams)
      (fun k => if n < k then src.counter (run step s inp k) else ⟨0, false⟩) := by
    intro k
    rcases Nat.lt_trichotomy k n with hlt | rfl | hgt
    · simp [show ¬n < k by omega, show ¬n < k + 1 by omega]
    · simp [h0]
    · simp only [hgt, Nat.lt_succ_of_lt hgt, decide_true, Bool.and_true, if_true]
      exact counter_clock src (run step s inp k) (inp k)
  have hM : ∀ k, (if n < k then src.counter (run step s inp k) else ⟨0, false⟩).count <
      src.modulus := by
    intro k
    split_ifs
    · exact src.cnt_lt _
    · exact src.modulus_pos
  obtain ⟨m, hmu, htick, hheld⟩ := hc.exists_heldFor_of_live hM (by simp) (by simp) (n := u)
    (by rw [if_pos hnu]; exact hl)
  simp only [Bool.and_eq_true, decide_eq_true_eq] at htick
  exact ⟨m, htick.2, hmu, htick.1, hheld⟩

theorem exists_live_of_latched {k n u : ℕ} (hk : k < 13)
    (h0 : (run step s inp n).faultRegLat.getLsbD k = false) (hnu : n ≤ u)
    (hu : (run step s inp u).faultRegLat.getLsbD k = true) :
    ∃ v, n ≤ v ∧ v < u ∧ (run step s inp v).faultReg.getLsbD k = true := by
  induction u, hnu using Nat.le_induction with
  | base => rw [h0] at hu; exact Bool.noConfusion hu
  | succ u hnu ih =>
    rw [run_succ, faultRegLat_getLsbD, if_pos hk] at hu
    cases hlat : (run step s inp u).faultRegLat.getLsbD k with
    | true =>
      obtain ⟨v, hnv, hvu, hv⟩ := ih hlat
      exact ⟨v, hnv, by omega, hv⟩
    | false =>
      refine ⟨u, hnu, Nat.lt_succ_self u, ?_⟩
      simp only [hlat, Bool.or_false, Bool.if_false_left, Bool.and_eq_true] at hu
      exact hu.2.2

theorem Source.bit_lt (src : Source) : src.bit < 13 := by
  cases src <;> decide

/-- After a tick that cleared everything, a latched source has been counted in full since. -/
theorem heldSince_of_latched {n : ℕ} (hclear : AllClear (run step s inp (n + 1))) (src : Source)
    {u : ℕ} (hnu : n < u) (hu : (run step s inp u).faultRegLat.getLsbD src.bit = true) :
    ∃ m, n < m ∧ m < u ∧ HeldSince s inp src n m := by
  have h0 : src.counter (run step s inp (n + 1)) = ⟨0, false⟩ := by
    rw [Source.counter, hclear.cnt, hclear.live]
  obtain ⟨v, hnv, hvu, hv⟩ :=
    exists_live_of_latched src.bit_lt (hclear.lat src.bit src.bit_lt) hnu hu
  obtain ⟨m, hnm, hmv, h⟩ := heldSince_of_live h0 (u := v) (by omega) hv
  exact ⟨m, hnm, by omega, h⟩

theorem evr_of_latched {n : ℕ} (hclear : AllClear (run step s inp (n + 1))) {u : ℕ} (hnu : n < u)
    (hu : (run step s inp u).faultRegLat.getLsbD 12 = true) :
    ∃ m, n ≤ m ∧ m < u ∧ (inp m).evrFltIn = true := by
  obtain ⟨v, hnv, hvu, hv⟩ :=
    exists_live_of_latched (by omega) (hclear.lat 12 (by omega)) hnu hu
  obtain ⟨w, rfl⟩ : ∃ w, v = w + 1 := ⟨v - 1, by omega⟩
  rw [run_succ, evrBit_step, Bool.and_eq_true] at hv
  exact ⟨w, by omega, by omega, hv.2⟩

/-- **Latch and clear.** In every run:

* a latch comes down only at a clock with `clear_pulse` or `reset`;
* the first tick after a rising edge of the clear command is found with `clear_pulse` up, and it
  clears everything exactly if no reset is in its way;
* there are no more clearing ticks than rising edges;
* what is latched after a clearing tick with no reset in its way was counted in full since, or, for
  the event fault, received since. -/
theorem clear_protocol (s : State) (inp : ℕ → Input) :
    (∀ n k, (run step s inp n).faultRegLat.getLsbD k = true →
      (run step s inp (n + 1)).faultRegLat.getLsbD k = false →
      (run step s inp n).clearPulse = true ∨ (inp n).reset = true) ∧
    (∀ t n, rises (run step s inp t) (inp t) = true → FirstTickAfter s inp t n →
      clearing s inp n = true ∧
        (AllClear (run step s inp (n + 1)) ↔ Unhindered (run step s inp n) (inp n))) ∧
    (∀ n, tickCount (clearing s inp) n ≤
      tickCount (fun k => rises (run step s inp k) (inp k)) n + pendingClears s) ∧
    (∀ n, clearing s inp n = true → Unhindered (run step s inp n) (inp n) → ∀ u, n < u →
      (∀ src : Source, (run step s inp u).faultRegLat.getLsbD src.bit = true →
        ∃ m, n < m ∧ m < u ∧ HeldSince s inp src n m) ∧
      ((run step s inp u).faultRegLat.getLsbD 12 = true →
        ∃ m, n ≤ m ∧ m < u ∧ (inp m).evrFltIn = true)) := by
  refine ⟨?_, ?_, clearing_le_rises s inp, ?_⟩
  · intro n k hup hdown
    by_contra hne
    push Not at hne
    rw [run_succ, faultRegLat_getLsbD, if_neg hne.2, hup, Bool.eq_false_iff.mpr hne.1] at hdown
    simp at hdown
  · intro t n hrise hn
    have hpulse := clearPulse_of_rises hrise hn
    refine ⟨?_, cleared_iff (inp n) hn.tick hpulse⟩
    rw [clearing, hn.tick, hpulse]
    rfl
  · intro n hn hfree u hnu
    rw [clearing, Bool.and_eq_true] at hn
    have hclear := (cleared_iff (inp n) hn.1 hn.2).mpr hfree
    exact ⟨fun src hu => heldSince_of_latched hclear src hnu hu,
      fun hu => evr_of_latched hclear hnu hu⟩

end Runs

/-- `fault1` up, a trigger every four clocks, the clear command from clock 8 on, and `reset` at
clock `r`. -/
def clearedRun (r n : ℕ) : Input :=
  { fault1Run (fun _ => 5) n with
    reset := decide (n = r)
    faultParams := { restParams 5 with clear := decide (8 ≤ n) } }

/-- Without the reset, the tick at clock 11 clears the two ticks counted so far. -/
theorem flt1_cleared :
    Source.cnt (run step restState (clearedRun 50) 11) .flt1 = 2 ∧
      AllClear (run step restState (clearedRun 50) 12) := by
  refine ⟨by decide, ?_⟩
  refine ((clear_protocol restState (clearedRun 50)).2.1 8 11 (by decide) ⟨by decide, by decide, ?_⟩
    ).2.mpr fun h => absurd h (by decide)
  intro m hm hmn
  interval_cases m
  decide

/-- With a reset at clock 11, the clear command has had its tick and the count is still there. -/
theorem flt1_not_cleared :
    rises (run step restState (clearedRun 11) 8) (clearedRun 11 8) = true ∧
      FirstTickAfter restState (clearedRun 11) 8 11 ∧
      Source.cnt (run step restState (clearedRun 11) 12) .flt1 = 2 ∧
      ¬AllClear (run step restState (clearedRun 11) 12) := by
  have hcnt : Source.cnt (run step restState (clearedRun 11) 12) .flt1 = 2 := by decide
  refine ⟨by decide, ⟨by decide, by decide, ?_⟩, hcnt, ?_⟩
  · intro m hm hmn
    interval_cases m
    decide
  · intro h
    rw [h.cnt] at hcnt
    exact absurd hcnt (by decide)

end Psc.FaultBlock
