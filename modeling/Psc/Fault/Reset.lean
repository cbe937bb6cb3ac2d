import Psc.Fault.Clear

/-!
# What a reset forgets

A reset takes down the live bits, the latches and the counters of the analog sources. It leaves
three things of the past (`SameRemains`):

1. the counters of the digital sources, which the reset branch does not list;
2. a clear that is pending, since the edge detector of the clear command has no reset;
3. for one clock, the latches that the fixed mask lets through, in the output register.

So two histories are told apart after a reset exactly if they differ in one of them
(`reset_erases_iff`). The first is found by a condition that is held until it trips
(`TripCounter.count_eq_of_live_eq`); what the reset leaves in the other registers is never looked
at (`visible_step`).
-/

namespace Psc.FaultBlock

open NumericStd Clocked

/-- A clear is pending after this clock, if the command does not rise. -/
def clearPending (s : State) : Bool := risen s || (s.clearPulse && !s.tenKhzPulse)

/-- What a reset leaves of two histories is the same. -/
structure SameRemains (s s' : State) : Prop where
  cnt : ∀ src : Source, src.analog = false → src.cnt s = src.cnt s'
  pending : clearPending s = clearPending s'
  lat : faultMask &&& s.faultRegLat = faultMask &&& s'.faultRegLat

/-- After a reset, and with the clear command low from it on, the outputs `live` and `lat` of two
histories agree at every clock, whatever the inputs. -/
def Forgets (s s' : State) : Prop :=
  ∀ (i₀ : Input) (inp : ℕ → Input), i₀.reset = true → i₀.faultParams.clear = false →
    (∀ n, (inp n).faultParams.clear = false) → ∀ n,
      (faultStat (run step (step s i₀) inp n)).live =
          (faultStat (run step (step s' i₀) inp n)).live ∧
        (faultStat (run step (step s i₀) inp n)).lat =
          (faultStat (run step (step s' i₀) inp n)).lat

/-- After a reset the source trips only at a tick that ends `L + 1` ticks of its trip condition,
with `L` the limit in force. -/
def FullDelay (src : Source) (s : State) : Prop :=
  ∀ (i₀ : Input) (inp : ℕ → Input), i₀.reset = true → i₀.faultParams.clear = false →
    (∀ n, (inp n).faultParams.clear = false) → ∀ n,
      src.live (run step (step s i₀) inp n) = true →
        ∃ m < n, evaluates (run step (step s i₀) inp m) (inp m) = true ∧
          HeldFor (fun k => evaluates (run step (step s i₀) inp k) (inp k))
            (fun k => src.trips (run step (step s i₀) inp k) (inp k))
            (src.cntlim (inp m).faultParams + 1) (m + 1)

/-! ## Histories that leave the same -/

/-- The registers the outputs can depend on, while the clear command is low. -/
def visible (s : State) : State := { s with errorRegMask := 0, re := false, reReg := false }

theorem visible_step {s : State} {i : Input} (hre : s.re = false)
    (hclear : i.faultParams.clear = false) :
    visible (step s i) = visible (step (visible s) i) ∧ (step s i).re = false := by
  refine ⟨?_, hclear⟩
  unfold visible step
  simp only [hre, Bool.and_false]
  rfl

theorem visible_run {s s' : State} {inp : ℕ → Input} (h : visible s = visible s')
    (hre : s.re = false) (hre' : s'.re = false) (hinp : ∀ n, (inp n).faultParams.clear = false)
    (n : ℕ) :
    visible (run step s inp n) = visible (run step s' inp n) ∧ (run step s inp n).re = false ∧
      (run step s' inp n).re = false := by
  induction n with
  | zero => exact ⟨h, hre, hre'⟩
  | succ n ih =>
    obtain ⟨heq, h1, h2⟩ := ih
    obtain ⟨hv, hr⟩ := visible_step h1 (hinp n)
    obtain ⟨hv', hr'⟩ := visible_step h2 (hinp n)
    rw [run_succ, run_succ]
    exact ⟨by rw [hv, hv', heq], hr, hr'⟩

theorem visible_reset {s s' : State} {i : Input} (hr : i.reset = true) (h : SameRemains s s') :
    visible (step s i) = visible (step s' i) := by
  have hcnt : ∀ src : Source, src.analog = false → src.cnt s = src.cnt s' := h.cnt
  have hdcct : s.dcctFaultCnt = s'.dcctFaultCnt := BitVec.eq_of_toNat_eq (hcnt .dcct rfl)
  have h1 : s.fault1Cnt = s'.fault1Cnt := BitVec.eq_of_toNat_eq (hcnt .flt1 rfl)
  have h2 : s.fault2Cnt = s'.fault2Cnt := BitVec.eq_of_toNat_eq (hcnt .flt2 rfl)
  have h3 : s.fault3Cnt = s'.fault3Cnt := BitVec.eq_of_toNat_eq (hcnt .flt3 rfl)
  have hon : s.onFaultCnt = s'.onFaultCnt := BitVec.eq_of_toNat_eq (hcnt .on rfl)
  have hpulse : (step s i).clearPulse = (step s' i).clearPulse := by
    rw [clearPulse_step, clearPulse_step]
    exact h.pending
  unfold visible step mainFaultLogic at *
  simp only [hr, if_true] at *
  rw [hdcct, h1, h2, h3, hon, hpulse, h.lat]

theorem forgets_of_sameRemains {s s' : State} (h : SameRemains s s') : Forgets s s' := by
  intro i₀ inp hr hclear hinp n
  obtain ⟨hv, -, -⟩ := visible_run (visible_reset hr h) hclear hclear hinp n
  exact ⟨congrArg (fun x => x.faultReg) hv, congrArg (fun x => x.faultRegLatMask) hv⟩

/-! ## Probing what is left

Every condition that can be held on is on, the 10 kHz trigger is up at every clock and, to use up a
clear without a tick that is evaluated, there may be a second reset three clocks after the first. -/

/-- Over-current and all digital conditions on, with the limits `lim`. -/
def allOn (lim : BitVec 16) : Input :=
  { restInput lim with
    tenkhzTrig := true
    dcctAdcs := ⟨0x7FFFF, 0⟩
    fault1 := true
    fault2 := true
    fault3 := true
    dcctFault := false
    acOnOut := true }

/-- The inputs after the reset. -/
def probe (lim : BitVec 16) (again : Bool) (n : ℕ) : Input :=
  { allOn lim with reset := again && decide (n = 3) }

theorem cntlim_probe (lim : BitVec 16) (again : Bool) (n : ℕ) (src : Source) :
    src.cntlim (probe lim again n).faultParams = lim.toNat := by
  cases src <;> rfl

theorem cond_probe (lim : BitVec 16) (again : Bool) (n : ℕ) (src : Source)
    (h : src.analog = false ∨ src = .ovc1) :
    src.cond (probe lim again n) = true ∧ ∀ s, src.masked s (probe lim again n) = false := by
  cases src with
  | ovc1 =>
    refine ⟨?_, fun _ => rfl⟩
    show overThreshold (0x7FFFF : BitVec 20) 0x7FFFF = true
    decide
  | dcct | flt1 | flt2 | flt3 | on => exact ⟨rfl, fun _ => rfl⟩
  | _ => simp [Source.analog] at h

/-- The clock with the reset. -/
def resetInput : Input := { restInput 0 with reset := true }

section Probe

variable (s : State) (lim : BitVec 16) (again : Bool)

theorem tenKhzPulse_probe {k : ℕ} (hk : k < 3) :
    (run step (step s resetInput) (probe lim again) k).tenKhzPulse = false := by
  interval_cases k <;> simp [run_succ, step, resetInput]

theorem re_probe (k : ℕ) : (run step (step s resetInput) (probe lim again) k).re = false := by
  cases k <;> rfl

theorem probe_quiet {k : ℕ} (hk : k ≤ 3) :
    (run step (step s resetInput) (probe lim again) k).clearPulse = clearPending s ∧
      ∀ src : Source, src.counter (run step (step s resetInput) (probe lim again) k) =
        ⟨if src.analog then 0 else src.cnt s, false⟩ := by
  induction k with
  | zero =>
    refine ⟨?_, fun src => counter_of_reset s resetInput src rfl⟩
    rw [run_zero, clearPulse_step]
    rfl
  | succ k ih =>
    obtain ⟨hpulse, hcnt⟩ := ih (by omega)
    have htick := tenKhzPulse_probe s lim again (k := k) (by omega)
    have hreset : (probe lim again k).reset = false := by
      simp [probe, show k ≠ 3 by omega]
    refine ⟨?_, ?_⟩
    · rw [run_succ, clearPulse_step, risen, re_probe, htick, hpulse]
      simp
    · intro src
      rw [run_succ, counter_of_not_tick _ _ src hreset htick, hcnt]

theorem tenKhzPulse_probe_three :
    (run step (step s resetInput) (probe lim again) 3).tenKhzPulse = true := by
  rw [tenKhzPulse_run _ _ 0]
  simp [probe, allOn]

theorem live_ovc1_probe :
    Source.live (run step (step s resetInput) (probe 0 false) 4) .ovc1 = !clearPending s := by
  obtain ⟨hpulse, hcnt⟩ := probe_quiet s 0 false (k := 3) le_rfl
  obtain ⟨hcond, hmask⟩ := cond_probe 0 false 3 .ovc1 (Or.inr rfl)
  have hstep := counter_step (run step (step s resetInput) (probe 0 false) 3) (probe 0 false 3)
    .ovc1 rfl
  rw [if_pos (tenKhzPulse_probe_three s 0 false), hcnt, Source.trips, hcond, hmask,
    hpulse] at hstep
  show (Source.counter (step _ _) .ovc1).live = _
  rw [hstep]
  cases clearPending s <;> rfl

/-- The state after the second reset. -/
def probed : State := run step (step s resetInput) (probe lim true) 4

theorem probed_spec :
    (∀ src : Source, src.analog = false → src.counter (probed s lim) = ⟨src.cnt s, false⟩) ∧
      (probed s lim).clearPulse = false ∧ (probed s lim).re = false := by
  obtain ⟨-, hcnt⟩ := probe_quiet s lim true (k := 3) le_rfl
  refine ⟨?_, ?_, rfl⟩
  · intro src hdig
    have h3 : src.cnt (run step (step s resetInput) (probe lim true) 3) = src.cnt s := by
      have := congrArg TripCounter.State.count (hcnt src)
      rw [hdig] at this
      exact this
    rw [probed, run_succ, counter_of_reset _ _ src rfl, hdig, h3]
    rfl
  · rw [probed, run_succ, clearPulse_step, risen, re_probe, tenKhzPulse_probe_three]
    simp

theorem run_probe_add (k : ℕ) :
    run step (step s resetInput) (probe lim true) (4 + k) =
      run step (probed s lim) (fun _ => allOn lim) k := by
  rw [run_add]
  refine run_congr _ _ _ fun m _ => ?_
  have hm : (true && decide (4 + m = 3)) = (allOn lim).reset := by
    rw [decide_eq_false (by omega)]
    rfl
  unfold probe
  rw [hm]

theorem clear_low (k : ℕ) :
    (run step (probed s lim) (fun _ => allOn lim) k).clearPulse = false ∧
      (run step (probed s lim) (fun _ => allOn lim) k).re = false := by
  obtain ⟨-, hpulse, hre⟩ := probed_spec s lim
  induction k with
  | zero => exact ⟨hpulse, hre⟩
  | succ k ih =>
    refine ⟨?_, rfl⟩
    rw [run_succ, clearPulse_step, risen, ih.1, ih.2]
    rfl

theorem tick_probed (k : ℕ) :
    (run step (probed s lim) (fun _ => allOn lim) k).tenKhzPulse = decide (3 ≤ k) := by
  rcases Nat.lt_or_ge k 3 with hlt | hge
  · interval_cases k <;> simp [run_succ, step, probed, probe]
  · obtain ⟨n, rfl⟩ := Nat.exists_eq_add_of_le' hge
    rw [tenKhzPulse_run, decide_eq_true hge]
    rfl

theorem probed_follows {src : Source} (hdig : src.analog = false) :
    TripCounter.Follows src.modulus (fun k => decide (3 ≤ k)) (fun _ => true) (fun _ => lim.toNat)
      (fun k => src.counter (run step (probed s lim) (fun _ => allOn lim) k)) := by
  intro k
  have h := counter_step (run step (probed s lim) (fun _ => allOn lim) k) (allOn lim) src rfl
  obtain ⟨hcond, hmask⟩ := cond_probe lim false k src (Or.inl hdig)
  have htrips : src.trips (run step (probed s lim) (fun _ => allOn lim) k) (allOn lim) = true := by
    unfold Source.trips
    rw [show src.cond (allOn lim) = true from hcond,
      show src.masked _ (allOn lim) = false from hmask _, (clear_low s lim k).1]
    rfl
  rw [htrips, tick_probed, show src.cntlim (allOn lim).faultParams = lim.toNat from
    cntlim_probe lim false k src] at h
  exact h

end Probe

/-! ## Telling histories apart -/

theorem Forgets.cnt_eq {s s' : State} (h : Forgets s s') (src : Source)
    (hdig : src.analog = false) : src.cnt s = src.cnt s' := by
  obtain ⟨hcnt, -, -⟩ := probed_spec s 0
  obtain ⟨hcnt', -, -⟩ := probed_spec s' 0
  have heq : ∀ k, src.live (run step (probed s 0) (fun _ => allOn 0) k) =
      src.live (run step (probed s' 0) (fun _ => allOn 0) k) := by
    intro k
    have hlive := (h resetInput (probe 0 true) rfl rfl (fun _ => rfl) (4 + k)).1
    rw [run_probe_add, run_probe_add] at hlive
    exact congrArg (fun r => r.getLsbD src.bit) hlive
  have hcount := TripCounter.count_eq_of_live_eq (probed_follows s 0 hdig)
    (probed_follows s' 0 hdig) src.modulus_pos (fun n => ⟨n + 3, by omega, by simp⟩)
    (by rw [run_zero, hcnt src hdig]) (src.cnt_lt _) (src.cnt_lt _) heq
  rw [run_zero, run_zero, hcnt src hdig, hcnt' src hdig] at hcount
  exact hcount

theorem Forgets.pending_eq {s s' : State} (h : Forgets s s') :
    clearPending s = clearPending s' := by
  have hlive := (h resetInput (probe 0 false) rfl rfl (fun _ => rfl) 4).1
  have hbit := congrArg (fun r => r.getLsbD 0) hlive
  exact Bool.not_inj ((live_ovc1_probe s).symm.trans (hbit.trans (live_ovc1_probe s')))

theorem Forgets.lat_eq {s s' : State} (h : Forgets s s') :
    faultMask &&& s.faultRegLat = faultMask &&& s'.faultRegLat := by
  have hlat := (h resetInput (probe 0 false) rfl rfl (fun _ => rfl) 0).2
  have hall : ∀ r : BitVec 16, r &&& 0xFFFF = r := by
    intro r
    exact BitVec.and_allOnes
  calc faultMask &&& s.faultRegLat = faultMask &&& s.faultRegLat &&& 0xFFFF := (hall _).symm
    _ = faultMask &&& s'.faultRegLat &&& 0xFFFF := hlat
    _ = faultMask &&& s'.faultRegLat := hall _

/-- A source that reset clears, or whose count no limit reaches before it wraps, is never too
early. -/
theorem fullDelay_of_past {src : Source} {s : State}
    (h : src.analog = true ∨ src.cnt s = 0 ∨ 2 ^ 16 ≤ src.cnt s) : FullDelay src s := by
  intro i₀ inp hr hclear hinp n hlive
  have h0 := counter_of_reset s i₀ src hr
  have hfalls : TripCounter.Falls src.modulus
      (fun k => evaluates (run step (step s i₀) inp k) (inp k))
      (fun k => src.trips (run step (step s i₀) inp k) (inp k))
      (fun k => src.cntlim (inp k).faultParams)
      (fun k => src.counter (run step (step s i₀) inp k)) :=
    fun k => counter_clock src (run step (step s i₀) inp k) (inp k)
  refine hfalls.exists_heldFor_of_live (fun k => src.cnt_lt _) (by rw [run_zero, h0]) ?_ hlive
  rw [run_zero, h0]
  show (if src.analog then 0 else src.cnt s) = 0 ∨ ∀ m, _ < (if src.analog then 0 else src.cnt s)
  rcases h with ha | hz | hpast
  · exact Or.inl (by rw [if_pos ha])
  · exact Or.inl (by rw [hz, ite_self])
  · cases ha : src.analog with
    | true => exact Or.inl rfl
    | false => exact Or.inr fun m => (src.cntlim_lt_word _).trans_le hpast

/-- A digital counter that stands at a limit trips with it at the first tick. -/
theorem not_fullDelay {src : Source} {s : State} (hdig : src.analog = false)
    (hpos : src.cnt s ≠ 0) (hlt : src.cnt s < 2 ^ 16) : ¬FullDelay src s := by
  intro h
  obtain ⟨lim, hlim⟩ : ∃ lim : BitVec 16, lim.toNat = src.cnt s :=
    ⟨BitVec.ofNat 16 (src.cnt s), by rw [BitVec.toNat_ofNat, Nat.mod_eq_of_lt hlt]⟩
  obtain ⟨hcnt, -, -⟩ := probed_spec s lim
  have hfol := probed_follows s lim hdig
  -- the first evaluated tick is the one at clock 7
  have hquiet : ∀ k < 7, evaluates (run step (step s resetInput) (probe lim true) k)
      (probe lim true k) = false := by
    intro k hk
    rcases Nat.lt_trichotomy k 3 with hlt | rfl | hgt
    · rw [evaluates, tenKhzPulse_probe s lim true hlt]
      rfl
    · rw [evaluates, tenKhzPulse_probe_three]
      rfl
    · obtain ⟨j, rfl⟩ := Nat.exists_eq_add_of_le (show 4 ≤ k by omega)
      rw [evaluates, run_probe_add, tick_probed, decide_eq_false (by omega)]
      rfl
  have hlive : src.live (run step (step s resetInput) (probe lim true) 8) = true := by
    rw [show 8 = 4 + (3 + 1) from rfl, run_probe_add]
    have h3 : src.counter (run step (probed s lim) (fun _ => allOn lim) 3) =
        ⟨src.cnt s, false⟩ := by
      rw [TripCounter.succ_of_not_tick hfol (n := 2) rfl,
        TripCounter.succ_of_not_tick hfol (n := 1) rfl,
        TripCounter.succ_of_not_tick hfol (n := 0) rfl]
      exact hcnt src hdig
    refine (TripCounter.live_succ_iff hfol (n := 3) rfl rfl (by rw [h3])).mpr ?_
    rw [h3, hlim]
  obtain ⟨m, hm, -, hheld⟩ := h resetInput (probe lim true) rfl rfl (fun _ => rfl) 8 hlive
  -- one tick is not enough
  have hle := hheld.1.trans (tickCount_mono (show m + 1 ≤ 7 + 1 by omega))
  rw [tickCount_succ, tickCount_eq_zero hquiet, cntlim_probe, hlim] at hle
  split_ifs at hle
  · omega
  · omega

/-- **Reset and history.** The outputs after a reset are the same for two histories exactly if these
leave the same digital counters, the same pending clear and the same unmasked latches; and a source
needs its full delay after a reset exactly if it is an analog one, or its counter stood at zero or
past every limit. -/
theorem reset_erases_iff (s s' : State) :
    (Forgets s s' ↔ SameRemains s s') ∧
      ∀ src : Source,
        FullDelay src s ↔ src.analog = true ∨ src.cnt s = 0 ∨ 2 ^ 16 ≤ src.cnt s := by
  refine ⟨⟨fun h => ⟨h.cnt_eq, h.pending_eq, h.lat_eq⟩, forgets_of_sameRemains⟩, ?_⟩
  intro src
  refine ⟨?_, fullDelay_of_past⟩
  intro h
  by_contra hne
  push Not at hne
  obtain ⟨hdig, hpos, hlt⟩ := hne
  exact not_fullDelay (by simpa using hdig) hpos hlt h

/-- Three ticks of `fault1` before the reset, with a limit of five. -/
def countedHistory : State := run step restState (fault1Run fun _ => 5) 12

/-- `fault1` goes on after the reset. With the three ticks from before, it trips at the third tick,
where a fresh block needs six. -/
theorem history_not_erased :
    ¬Forgets countedHistory restState ∧ ¬FullDelay .flt1 countedHistory ∧
      Source.live (run step (step countedHistory resetInput) (fault1Run fun _ => 5) 12) .flt1 =
        true ∧
      Source.live (run step (step restState resetInput) (fault1Run fun _ => 5) 12) .flt1 =
        false := by
  have hleft : Source.live (run step (step countedHistory resetInput) (fault1Run fun _ => 5) 12)
      .flt1 = true := by decide
  have hfresh : Source.live (run step (step restState resetInput) (fault1Run fun _ => 5) 12)
      .flt1 = false := by decide
  refine ⟨?_, ?_, hleft, hfresh⟩
  · intro h
    have hlive := (h resetInput (fault1Run fun _ => 5) rfl rfl (fun _ => rfl) 12).1
    have hbit := congrArg (fun r => r.getLsbD 7) hlive
    exact absurd (hleft.symm.trans (hbit.trans hfresh)) (by decide)
  · intro h
    obtain ⟨m, hm, -, hheld⟩ := h resetInput (fault1Run fun _ => 5) rfl rfl (fun _ => rfl) 12 hleft
    have hle : 5 + 1 ≤ tickCount _ 12 := hheld.1.trans (tickCount_mono (show m + 1 ≤ 12 by omega))
    exact absurd hle (by decide)

end Psc.FaultBlock
