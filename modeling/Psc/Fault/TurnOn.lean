import Psc.Fault.Channels
import Psc.Fault.Clear

/-!
# Turn-on supervision

A supply that was told to turn on and does not acknowledge is reported by the eleventh counted
source. What it watches is the ON1 line itself, and that is a square wave: low for the first half of
each period of `pulse_enable` and high for the second (`onWindow`). Every tick that finds the line
low clears the counter.

So the fault comes up exactly if some `on_cntlim + 1` ticks in a row fall into the high phases
(`turnOn_supervised_iff`). With ticks 10000 clocks apart there are at most 51 of them in one phase
(`not_heldFor_window`), and no larger limit is ever reached.
-/

namespace Psc

namespace FaultBlock

open NumericStd Clocked

theorem exists_bit_eq {k : ℕ} (hk : k ≤ 10) : ∃ src : Source, src.bit = k := by
  interval_cases k
  · exact ⟨.ovc1, rfl⟩
  · exact ⟨.ovc2, rfl⟩
  · exact ⟨.ovv, rfl⟩
  · exact ⟨.err1, rfl⟩
  · exact ⟨.err2, rfl⟩
  · exact ⟨.ignd, rfl⟩
  · exact ⟨.dcct, rfl⟩
  · exact ⟨.flt1, rfl⟩
  · exact ⟨.flt2, rfl⟩
  · exact ⟨.flt3, rfl⟩
  · exact ⟨.on, rfl⟩

theorem faultReg_spare (s : State) (i : Input) {k : ℕ} (hk : k = 11 ∨ 13 ≤ k) :
    (step s i).faultReg.getLsbD k = (!i.reset && s.faultReg.getLsbD k) := by
  have hbit : ∀ (r : BitVec 16) (j : ℕ) (b : Bool), j ≤ 10 ∨ j = 12 →
      (setBit r j b).getLsbD k = r.getLsbD k := by
    intro r j b hj
    rw [getLsbD_setBit, if_neg (by omega)]
  show (mainFaultLogic s i).faultReg.getLsbD k = _
  unfold mainFaultLogic
  cases i.reset with
  | true => simp
  | false =>
    cases s.tenKhzPulse with
    | false => simp [hbit]
    | true => simp [faultChecks, hbit]

/-- A block at rest in which only the turn-on fault can come up stays at rest until it does. -/
theorem quiet_run {inp : ℕ → Input} (hr : ∀ n, (inp n).reset = false)
    (hcond : ∀ n (src : Source), src ≠ .on → src.cond (inp n) = false)
    (hevr : ∀ n, (inp n).evrFltIn = false) (n : ℕ)
    (hdown : ∀ m ≤ n, Source.live (run step restState inp m) .on = false) :
    (run step restState inp n).faultReg = 0 ∧ (run step restState inp n).faultRegLat = 0 ∧
      (run step restState inp n).faultRegLatMask = 0 := by
  induction n with
  | zero => exact ⟨rfl, rfl, rfl⟩
  | succ n ih =>
    obtain ⟨hreg, hlat, -⟩ := ih fun m hm => hdown m (by omega)
    have hlive : ∀ src : Source, src.live (run step restState inp (n + 1)) = false := by
      intro src
      by_cases hsrc : src = .on
      · rw [hsrc]; exact hdown (n + 1) le_rfl
      · have htrips : src.trips (run step restState inp n) (inp n) = false := by
          rw [Source.trips, hcond n src hsrc]
          rfl
        have hstep := congrArg TripCounter.State.live
          (counter_step (run step restState inp n) (inp n) src (hr n))
        rw [htrips] at hstep
        refine hstep.trans ?_
        split_ifs
        · rfl
        · show (run step restState inp n).faultReg.getLsbD src.bit = false
          rw [hreg]
          simp
    have hspare : ∀ k, k = 11 ∨ 13 ≤ k →
        (run step restState inp (n + 1)).faultReg.getLsbD k = false := by
      intro k hk
      rw [run_succ, faultReg_spare _ _ hk, hreg]
      simp
    refine ⟨?_, ?_, ?_⟩
    · apply BitVec.eq_of_getLsbD_eq
      intro k hk
      rw [show (0 : BitVec 16).getLsbD k = false by simp]
      by_cases hcounted : k ≤ 10
      · obtain ⟨src, rfl⟩ := exists_bit_eq hcounted
        exact hlive src
      · by_cases hk12 : k = 12
        · rw [hk12, run_succ, evrBit_step, hevr, Bool.and_false]
        · exact hspare k (by omega)
    · apply BitVec.eq_of_getLsbD_eq
      intro k hk
      rw [run_succ, faultRegLat_getLsbD, hr n, hreg, hlat]
      simp
    · rw [run_succ]
      show faultMask &&& (run step restState inp n).faultRegLat &&& _ = 0
      rw [hlat]
      simp

end FaultBlock

namespace Protection

open Clocked FaultBlock

theorem fault_run (s₀ : State) (inp : ℕ → Input) (ps : Ps) (n : ℕ) :
    (run step s₀ inp n).fault ps =
      run FaultBlock.step (s₀.fault ps)
        (fun m => faultInput (run step s₀ inp m) (inp m) ps) n := by
  induction n with
  | zero => rfl
  | succ n ih =>
    rw [run_succ, run_succ, ← ih]
    rfl

/-! ## The ON1 line -/

/-- The clocks at which the ON1 line is high, for a command given at clock `0`. -/
def onWindow (n : ℕ) : Bool := decide (2 ≤ n ∧ 500000 ≤ (n - 2) % 1000001)

/-- One clock of a pulse generator that is enabled. -/
theorem pulse_step {p : PulseEnable.State} (hen : p.pulseEnable = true) (n : ℕ)
    (hcnt : p.pulseCounter.toNat = n % 1000001) (hch : p.chEnable = onWindow (n + 1)) :
    (PulseEnable.step p ⟨false, true, true, Digio.period⟩).pulseCounter.toNat =
        (n + 1) % 1000001 ∧
      (PulseEnable.step p ⟨false, true, true, Digio.period⟩).chEnable = onWindow (n + 1 + 1) := by
  have hgen : PulseEnable.pulseGeneration p ⟨false, true, true, Digio.period⟩ =
      if p.pulseCounter.toNat = 1000000 then (0, p.chEnable)
      else (p.pulseCounter + 1, decide (500000 ≤ p.pulseCounter.toNat)) := by
    have hend : p.pulseCounter = Digio.period ↔ p.pulseCounter.toNat = 1000000 :=
      BitVec.toNat_inj.symm
    rw [PulseEnable.pulseGeneration_of_enabled rfl rfl hen]
    simp only [hend]
    rfl
  show (PulseEnable.pulseGeneration p _).1.toNat = _ ∧ (PulseEnable.pulseGeneration p _).2 = _
  rw [hgen, hcnt, hch]
  unfold onWindow
  split_ifs with hend
  · -- the end of the period keeps the level
    refine ⟨by show 0 = _; omega, ?_⟩
    rw [decide_eq_decide]
    omega
  · refine ⟨?_, ?_⟩
    · rw [BitVec.toNat_add, hcnt]
      show (n % 1000001 + 1) % 4294967296 = _
      omega
    · rw [decide_eq_decide]
      omega

section Pulse

variable (s₀ : State) (inp : ℕ → Input) (ps : Ps)

/-- A pulse generator that is enabled from clock `0` on. -/
theorem on1_run (hr : ∀ n, (inp n).reset = false) (hon : ∀ n, ((inp n).digCntrl ps).on1 = true)
    (h0 : (s₀.digio.on1 ps).pulseEnable = false) (n : ℕ) :
    ((run step s₀ inp (n + 1)).digio.on1 ps).pulseEnable = true ∧
      ((run step s₀ inp (n + 1)).digio.on1 ps).pulseCounter.toNat = n % 1000001 ∧
      ((run step s₀ inp (n + 1)).digio.on1 ps).chEnable = onWindow (n + 1) := by
  have hstep : ∀ m, (run step s₀ inp (m + 1)).digio.on1 ps =
      PulseEnable.step ((run step s₀ inp m).digio.on1 ps) ⟨false, true, true, Digio.period⟩ := by
    intro m
    rw [run_succ]
    show PulseEnable.step _ ⟨(inp m).reset, true, ((inp m).digCntrl ps).on1, Digio.period⟩ = _
    rw [hr, hon]
  induction n with
  | zero =>
    rw [hstep, run_zero]
    refine ⟨rfl, ?_, ?_⟩
    · simp [PulseEnable.step, PulseEnable.pulseGeneration, h0]
    · simp [PulseEnable.step, PulseEnable.pulseGeneration, h0, onWindow]
  | succ n ih =>
    obtain ⟨hen, hcnt, hch⟩ := ih
    rw [hstep]
    exact ⟨rfl, pulse_step hen n hcnt hch⟩

end Pulse

/-! ## The supervised turn-on -/

/-- The live bit of the turn-on fault. -/
def onLive (s₀ : State) (inp : ℕ → Input) (ps : Ps) (n : ℕ) : Bool :=
  Source.live ((run step s₀ inp n).fault ps) .on

/-- The ticks of the channel. -/
def tickAt (s₀ : State) (inp : ℕ → Input) (ps : Ps) (n : ℕ) : Bool :=
  ((run step s₀ inp n).fault ps).tenKhzPulse

/-- The ON command is given at clock `0` and held, with the limit `lim`; the supply never
acknowledges, nothing is cleared, and no fault is latched before the turn-on fault comes up. -/
structure TurningOn (s₀ : State) (inp : ℕ → Input) (ps : Ps) (lim : BitVec 16) : Prop where
  reset : ∀ n, (inp n).reset = false
  on1 : ∀ n, ((inp n).digCntrl ps).on1 = true
  cntlim : ∀ n, ((inp n).faultParams ps).onCntlim = lim
  clear : ∀ n, ((inp n).faultParams ps).clear = false
  acon : ∀ n, (inp n).rsts.getLsbD (4 * ps.idx) = false
  wasOff : (s₀.digio.on1 ps).pulseEnable = false ∧ (s₀.digio.on1 ps).chEnable = false
  idle : Source.counter (s₀.fault ps) .on = ⟨0, false⟩
  notClearing : (s₀.fault ps).clearPulse = false ∧ (s₀.fault ps).re = false
  noFault : ∀ n, (∀ m ≤ n, onLive s₀ inp ps m = false) →
    (faultStat ((run step s₀ inp n).fault ps)).fltTrig = false

/-- The tick `n` is the first after which the turn-on fault is up. -/
structure Detected (s₀ : State) (inp : ℕ → Input) (ps : Ps) (n : ℕ) : Prop where
  tick : tickAt s₀ inp ps n = true
  up : onLive s₀ inp ps (n + 1) = true
  first : ∀ m ≤ n, onLive s₀ inp ps m = false

/-- Clock `n` is no later than the tick number `lim`, counted from `0`, plus one period of the
pulse. -/
def OnTime (s₀ : State) (inp : ℕ → Input) (ps : Ps) (lim : BitVec 16) (n : ℕ) : Prop :=
  tickCount (tickAt s₀ inp ps) (n - 1000001) ≤ lim.toNat

section TurnOn

variable {s₀ : State} {inp : ℕ → Input} {ps : Ps} {lim : BitVec 16}
  (h : TurningOn s₀ inp ps lim)

include h

theorem TurningOn.chEnable (n : ℕ) :
    ((run step s₀ inp n).digio.on1 ps).chEnable = onWindow n := by
  cases n with
  | zero => exact h.wasOff.2
  | succ n => exact (on1_run s₀ inp ps h.reset h.on1 h.wasOff.1 n).2.2

theorem TurningOn.clear_low (n : ℕ) :
    ((run step s₀ inp n).fault ps).clearPulse = false ∧
      ((run step s₀ inp n).fault ps).re = false := by
  induction n with
  | zero => exact h.notClearing
  | succ n ih =>
    refine ⟨?_, h.clear n⟩
    rw [run_succ]
    show (FaultBlock.step _ _).clearPulse = false
    rw [clearPulse_step, risen, ih.1, ih.2]
    rfl

theorem TurningOn.trips_eq {n : ℕ} (hdown : ∀ m ≤ n, onLive s₀ inp ps m = false) :
    Source.trips ((run step s₀ inp n).fault ps) (faultInput (run step s₀ inp n) (inp n) ps) .on =
      onWindow n := by
  have hline : (rcom (run step s₀ inp n) (inp n)).getLsbD (4 * ps.idx) = onWindow n := by
    unfold rcom
    rw [Digio.rcom_on1, h.noFault n hdown, Bool.not_false, Bool.and_true]
    exact h.chEnable n
  show (((rcom (run step s₀ inp n) (inp n)).getLsbD (4 * ps.idx) &&
    !(inp n).rsts.getLsbD (4 * ps.idx)) && !false &&
      !((run step s₀ inp n).fault ps).clearPulse) = _
  rw [hline, h.acon, (h.clear_low n).1]
  simp

theorem TurningOn.follows :
    TripCounter.Follows (2 ^ 32) (tickAt s₀ inp ps)
      (fun n => Source.trips ((run step s₀ inp n).fault ps)
        (faultInput (run step s₀ inp n) (inp n) ps) .on)
      (fun _ => lim.toNat) (fun n => Source.counter ((run step s₀ inp n).fault ps) .on) := by
  intro n
  have hstep := counter_step ((run step s₀ inp n).fault ps)
    (faultInput (run step s₀ inp n) (inp n) ps) .on (h.reset n)
  have hlim : Source.cntlim (faultInput (run step s₀ inp n) (inp n) ps).faultParams .on =
      lim.toNat := congrArg BitVec.toNat (h.cntlim n)
  rw [hlim] at hstep
  exact hstep

theorem TurningOn.heldFor_of_detected {n : ℕ} (hn : Detected s₀ inp ps n) :
    HeldFor (tickAt s₀ inp ps) onWindow (lim.toNat + 1) (n + 1) := by
  refine HeldFor.congr (fun m hm => h.trips_eq fun j hj => hn.first j (by omega)) ?_
  have htrip : Source.trips ((run step s₀ inp n).fault ps)
      (faultInput (run step s₀ inp n) (inp n) ps) .on = true := by
    by_contra hne
    have hzero := TripCounter.succ_of_not_trip h.follows hn.tick (Bool.eq_false_iff.mpr hne)
    have hdown : onLive s₀ inp ps (n + 1) = false := congrArg TripCounter.State.live hzero
    exact absurd (hn.up.symm.trans hdown) (by simp)
  have hcount := (TripCounter.live_succ_iff h.follows hn.tick htrip (hn.first n le_rfl)).mp hn.up
  have hstreak := TripCounter.count_le_streak h.follows (by rw [run_zero, h.idle]) n
  rw [heldFor_iff_le_streak, streak_succ_of_held hn.tick htrip]
  exact Nat.succ_le_succ (hcount.symm.trans_le hstreak)

theorem TurningOn.exists_detected {n : ℕ} (hup : onLive s₀ inp ps n = true) :
    ∃ m < n, Detected s₀ inp ps m := by
  have hex : ∃ k, onLive s₀ inp ps k = true := ⟨n, hup⟩
  have hfirst : ∀ m < Nat.find hex, onLive s₀ inp ps m = false :=
    fun m hm => by simpa using Nat.find_min hex hm
  have hle : Nat.find hex ≤ n := Nat.find_min' hex hup
  have hspec := Nat.find_spec hex
  generalize Nat.find hex = k at *
  cases k with
  | zero => exact absurd ((congrArg TripCounter.State.live h.idle).symm.trans hspec) (by simp)
  | succ k =>
    refine ⟨k, by omega, ?_, hspec, fun m hm => hfirst m (by omega)⟩
    by_contra hne
    have hkept := TripCounter.succ_of_not_tick h.follows (Bool.eq_false_iff.mpr hne)
    have hdown : onLive s₀ inp ps (k + 1) = false :=
      (congrArg TripCounter.State.live hkept).trans (hfirst k (Nat.lt_succ_self k))
    exact absurd (hspec.symm.trans hdown) (by simp)

/-- `lim + 1` ticks in the high phases are enough. -/
theorem TurningOn.exists_detected_of_heldFor {n : ℕ} (ht : tickAt s₀ inp ps n = true)
    (hheld : HeldFor (tickAt s₀ inp ps) onWindow (lim.toNat + 1) (n + 1)) :
    ∃ m ≤ n, Detected s₀ inp ps m := by
  by_contra hnone
  push Not at hnone
  have hdown : ∀ m ≤ n + 1, onLive s₀ inp ps m = false := by
    intro m hm
    by_contra hup
    obtain ⟨k, hk, hdet⟩ := h.exists_detected (n := m) (by simpa using hup)
    exact hnone k (by omega) hdet
  have htrips : HeldFor (tickAt s₀ inp ps)
      (fun m => Source.trips ((run step s₀ inp m).fault ps)
        (faultInput (run step s₀ inp m) (inp m) ps) .on) (lim.toNat + 1) (n + 1) :=
    HeldFor.congr (fun m hm => (h.trips_eq fun j hj => hdown j (by omega)).symm) hheld
  have hzero : (Source.counter ((run step s₀ inp 0).fault ps) .on).count ≤ lim.toNat := by
    rw [run_zero, h.idle]
    exact Nat.zero_le _
  have hle := TripCounter.count_le_lim h.follows hzero fun _ => le_rfl
  have hup := TripCounter.live_of_heldFor h.follows
    (fun _ => lim.isLt.trans (by norm_num)) (fun m _ _ _ => hle m) ht htrips
  exact absurd (hup.symm.trans (hdown (n + 1) le_rfl)) (by simp)

end TurnOn

/-- **Turn-on supervision.** A supply that does not acknowledge is reported, and reported on time,
exactly if `on_cntlim + 1` ticks in a row fall into the high phases of the ON1 line, the last of
them no later than on time. -/
theorem turnOn_supervised_iff (s₀ : State) (inp : ℕ → Input) (ps : Ps) (lim : BitVec 16)
    (h : TurningOn s₀ inp ps lim) :
    (∃ n, Detected s₀ inp ps n ∧ OnTime s₀ inp ps lim n) ↔
      ∃ n, tickAt s₀ inp ps n = true ∧
        HeldFor (tickAt s₀ inp ps) onWindow (lim.toNat + 1) (n + 1) ∧
        OnTime s₀ inp ps lim n := by
  constructor
  · rintro ⟨n, hn, htime⟩
    exact ⟨n, hn.tick, h.heldFor_of_detected hn, htime⟩
  · rintro ⟨n, ht, hheld, htime⟩
    obtain ⟨m, hmn, hm⟩ := h.exists_detected_of_heldFor ht hheld
    refine ⟨m, hm, le_trans (tickCount_mono ?_) htime⟩
    omega

/-! ## Ticks 10000 clocks apart -/

/-- The ON command for all supplies, none of which answers; all else is healthy. -/
def unanswered (lim : BitVec 16) (n : ℕ) : Input :=
  { onInput with
    tenkhzTrig := decide (n % 10000 = 0)
    faultParams := fun _ => restParams lim
    rsts := 0xF0000 }

theorem cond_unanswered (s : State) (lim : BitVec 16) (n : ℕ) (ps : Ps) {src : Source}
    (hsrc : src ≠ .on) : src.cond (faultInput s (unanswered lim n) ps) = false := by
  have h20 : overThreshold (0 : BitVec 20) 0x7FFFF = false := by decide
  have h16 : overThreshold (0 : BitVec 16) 0x7FFF = false := by decide
  cases src with
  | ovc1 | ovc2 => exact h20
  | ovv | err1 | err2 | ignd => exact h16
  | dcct | flt1 | flt2 | flt3 =>
    cases ps <;> simp [Source.cond, faultInput, unanswered, Ps.idx]
  | on => exact absurd rfl hsrc

theorem tickAt_unanswered (lim : BitVec 16) (ps : Ps) (n : ℕ) :
    tickAt restState (unanswered lim) ps n = decide (n % 10000 = 3) := by
  unfold tickAt
  rw [fault_run]
  rcases Nat.lt_or_ge n 3 with hlt | hge
  · interval_cases n <;> rfl
  · obtain ⟨m, rfl⟩ := Nat.exists_eq_add_of_le' hge
    rw [tenKhzPulse_run]
    show decide (m % 10000 = 0) = _
    rw [decide_eq_decide]
    omega

theorem turningOn_unanswered (lim : BitVec 16) (ps : Ps) :
    TurningOn restState (unanswered lim) ps lim where
  reset _ := rfl
  on1 _ := rfl
  cntlim _ := rfl
  clear _ := rfl
  acon _ := by cases ps <;> simp [unanswered, Ps.idx]
  wasOff := ⟨rfl, rfl⟩
  idle := by
    show Source.counter FaultBlock.restState .on = _
    decide
  notClearing := ⟨rfl, rfl⟩
  noFault n hdown := by
    rw [fault_run]
    refine decide_eq_false (not_not.mpr ?_)
    refine (quiet_run (fun _ => rfl) (fun m src => cond_unanswered _ lim m ps) (fun _ => rfl) n
      fun m hm => ?_).2.2
    have hlive := hdown m hm
    rw [onLive, fault_run] at hlive
    exact hlive

theorem tickCount_unanswered (n : ℕ) :
    tickCount (fun n => decide (n % 10000 = 3)) n = (n + 9996) / 10000 := by
  induction n with
  | zero => rfl
  | succ n ih =>
    rw [tickCount_succ, ih]
    by_cases h : n % 10000 = 3
    · rw [if_pos (decide_eq_true h)]; omega
    · rw [if_neg (by simpa using h)]; omega

/-- No 52 ticks in a row fall into the high phases: the low phases are not skipped. -/
theorem not_heldFor_window {k n : ℕ} (hk : 52 ≤ k) (ht : n % 10000 = 3) :
    ¬HeldFor (fun n => decide (n % 10000 = 3)) onWindow k (n + 1) := by
  intro h
  obtain ⟨j, rfl⟩ : ∃ j, k = j + 1 := ⟨k - 1, by omega⟩
  have hn : onWindow n = true := h.latest (by simpa using ht)
  simp only [onWindow, decide_eq_true_eq] at hn
  -- go back until the ticks leave the phase
  obtain ⟨d, hd⟩ : ∃ d, d = ((n - 2) % 1000001 - 500000) / 10000 + 1 := ⟨_, rfl⟩
  have hm : onWindow (n - 10000 * d) = true := by
    refine h.at_tick (by omega) (by rw [decide_eq_true_eq]; omega) ?_
    rw [tickCount_unanswered, tickCount_unanswered]
    omega
  simp only [onWindow, decide_eq_true_eq] at hm
  have hmod : (n - 10000 * d - 2) % 1000001 = (n - 2) % 1000001 - 10000 * d := by
    rw [show n - 10000 * d - 2 =
      1000001 * ((n - 2) / 1000001) + ((n - 2) % 1000001 - 10000 * d) by omega,
      Nat.mul_add_mod, Nat.mod_eq_of_lt (by omega)]
  omega

/-- With the limit `0`, the tick at clock 500003 reports the first supply on time. -/
theorem turnOn_detected_at_zero :
    ∃ n, Detected restState (unanswered 0) .ps1 n ∧ OnTime restState (unanswered 0) .ps1 0 n := by
  refine (turnOn_supervised_iff restState (unanswered 0) .ps1 0 (turningOn_unanswered 0 .ps1)).mpr
    ⟨500003, ?_, ?_, ?_⟩
  · rw [tickAt_unanswered]
    rfl
  · rw [heldFor_iff_le_streak, streak_succ_of_held]
    · rw [show (0 : BitVec 16).toNat = 0 from rfl, Nat.add_le_add_iff_right]
      exact Nat.zero_le _
    · rw [tickAt_unanswered]
      rfl
    · decide
  · unfold OnTime
    rw [Nat.sub_eq_zero_of_le (by norm_num), tickCount_zero]
    exact Nat.zero_le _

/-- With the limit `100`, a hundredth of a second, the supply is never reported. -/
theorem turnOn_never_detected :
    TurningOn restState (unanswered 100) .ps1 100 ∧
      ∀ n, onLive restState (unanswered 100) .ps1 n = false := by
  have h := turningOn_unanswered 100 .ps1
  refine ⟨h, ?_⟩
  intro n
  by_contra hup
  obtain ⟨m, -, hm⟩ := h.exists_detected (n := n) (by simpa using hup)
  have hheld := h.heldFor_of_detected hm
  have htick := hm.tick
  rw [tickAt_unanswered, decide_eq_true_eq] at htick
  rw [funext (tickAt_unanswered 100 .ps1)] at hheld
  exact not_heldFor_window (by decide) htick hheld

end Protection

end Psc
