import Psc.Control.Setpoint

/-!
# Commands during a ramp

The registers of a channel are written by any client at any time, and the fabric reads them live.
A run is driven by the 10 kHz trigger, the reset, the setpoint read back and one register write at
most a clock (`ports`); what a command writes is in `Setpoint`.

`smooth_ramp` latches the two end points of a ramp when it starts, but not the phase increment. So
a ramp is isolated from the commands that arrive while it runs if these leave the increment as it
was (`Held`), and then up to what earlier ramps left in the pipeline (`StartsAlike`).
-/

namespace Psc.Control

open NumericStd Clocked SmoothRamp

/-- The registers of a channel, as wide as the fabric has them. -/
structure Bank where
  dacSetpt : BitVec 20
  dacOpmode : BitVec 2
  smoothPhaseinc : BitVec 32

/-- A write from the bus. -/
def Bank.write (b : Bank) (w : Write) : Bank :=
  match w.reg with
  | .dacSetpt => { b with dacSetpt := w.data.setWidth 20 }
  | .dacOpmode => { b with dacOpmode := w.data.setWidth 2 }
  | .smoothPhaseinc => { b with smoothPhaseinc := w.data }

/-- What drives a channel at a clock. -/
structure Drive where
  reset : Bool
  tenkhzTrig : Bool
  curSetpt : BitVec 20
  write : Option Write

/-- The registers before each clock. -/
def bankAt (b : Bank) (d : ℕ → Drive) : ℕ → Bank :=
  run (fun b i => (i.write.map b.write).getD b) b d

/-- The ports of `smooth_ramp` at each clock. -/
def ports (b : Bank) (d : ℕ → Drive) (n : ℕ) : Input where
  reset := (d n).reset
  tenkhzTrig := (d n).tenkhzTrig
  mode := (bankAt b d n).dacOpmode
  curSetpt := (d n).curSetpt
  newSetpt := (bankAt b d n).dacSetpt
  phaseInc := (bankAt b d n).smoothPhaseinc

/-- A run of a channel and the clock at which one of its ramps starts. -/
structure Launch where
  core : Core
  bank : Bank
  drive : ℕ → Drive
  start : ℕ

namespace Launch

variable (cosine : BitVec 24 → BitVec 24) (l : Launch)

/-- The ports of the run. -/
def inp : ℕ → Input := ports l.bank l.drive

/-- The states of the run. -/
def states : ℕ → Core := run (clock cosine) l.core l.inp

/-- The registers when the ramp starts. -/
def begin : State := (l.states cosine (l.start + 1)).regs

/-- The newest cosine when the ramp starts. -/
def stale : BitVec 24 := (l.states cosine (l.start + 1)).cordic.settled

/-- The phase increment in force when the ramp starts. -/
def inc : BitVec 32 := (l.inp (l.start + 1)).phaseInc

/-- A ramp does start, and ticks are further apart than the latency of the CORDIC core. -/
structure Valid : Prop where
  spaced : l.core.cordic.Spaced (trig l.inp)
  idle : (l.states cosine l.start).regs.state = .idle
  starts : (l.states cosine (l.start + 1)).regs.state = .runRamp

/-- The phase increment is what it was at the start at each tick of the ramp. -/
def Held : Prop := ∀ u, RampTick (l.states cosine) l.inp l.start u → (l.inp u).phaseInc = l.inc

end Launch

section Pair

variable (cosine : BitVec 24 → BitVec 24) (l m : Launch)

/-- The two ramps have the same end points, increment, ticks and resets. -/
structure SameRamp : Prop where
  old : (l.begin cosine).oldSetpt = (m.begin cosine).oldSetpt
  new : (l.begin cosine).newSetptLat = (m.begin cosine).newSetptLat
  inc : l.inc = m.inc
  tick : ∀ k, trig l.inp (l.start + 1 + k) = trig m.inp (m.start + 1 + k)
  reset : ∀ k, (l.inp (l.start + 1 + k)).reset = (m.inp (m.start + 1 + k)).reset

/-- The two ramps run for the same clocks, so with the same number of ticks, and register the same
values. -/
def SameTrajectory : Prop :=
  ∀ k, (Running (l.states cosine) l.inp l.start (l.start + 1 + k) ↔
      Running (m.states cosine) m.inp m.start (m.start + 1 + k)) ∧
    (RampTick (l.states cosine) l.inp l.start (l.start + 1 + k) →
      (l.states cosine (l.start + 1 + k + 1)).regs.rampout =
        (m.states cosine (m.start + 1 + k + 1)).regs.rampout)

/-- What earlier ramps left in the pipeline gives the same two values: `rampout_fp`, which the first
tick registers, and the setpoint made of the newest cosine, which the fourth does. -/
def StartsAlike : Prop :=
  toSetpt (l.begin cosine).rampoutFp = toSetpt (m.begin cosine).rampoutFp ∧
    setptOf (l.begin cosine).oldSetpt (l.begin cosine).newSetptLat (l.stale cosine) =
      setptOf (m.begin cosine).oldSetpt (m.begin cosine).newSetptLat (m.stale cosine)

end Pair

/-! ## Control does not depend on the pipeline -/

/-- The registers that decide how a ramp goes on. -/
def control (s : State) : Phase × BitVec 32 × BitVec 24 × Bool :=
  (s.state, s.phase, s.phaseOut, s.lastPoint)

theorem control_tickRamp {s s' : State} (h : control s = control s') (inc : BitVec 32)
    (cos cos' : BitVec 24) : control (tickRamp s inc cos) = control (tickRamp s' inc cos') := by
  simp only [control, Prod.mk.injEq] at h
  obtain ⟨hstate, hphase, hout, hlast⟩ := h
  have hst : (tickRamp s inc cos).state = (tickRamp s' inc cos').state := by
    rw [tickRamp_state, tickRamp_state, hstate, hlast]
  unfold control
  rcases le_or_gt s.phase.toInt 0 with hle | hpos
  · obtain ⟨h1, h2, h3⟩ := tickRamp_of_phase_le s inc cos hle
    obtain ⟨h1', h2', h3'⟩ := tickRamp_of_phase_le s' inc cos' (hphase ▸ hle)
    rw [hst, h1, h2, h3, h1', h2', h3', hphase, hlast]
  · obtain ⟨h1, h2, h3⟩ := tickRamp_of_phase_pos s inc cos hpos
    obtain ⟨h1', h2', h3'⟩ := tickRamp_of_phase_pos s' inc cos' (hphase ▸ hpos)
    rw [hst, h1, h2, h3, h1', h2', h3', hout]

section Beats

variable {cosine : BitVec 24 → BitVec 24} {inc : BitVec 32} {s s' : State} {c c' : BitVec 24}

variable (cosine inc c c') in
theorem control_beats (hs : Started s) (hs' : Started s') (k : ℕ) :
    control (beats cosine inc s c k).1 = control (beats cosine inc s' c' k).1 := by
  induction k with
  | zero =>
    show control s = control s'
    simp [control, hs.state, hs'.state, hs.phase, hs'.phase, hs.phaseOut, hs'.phaseOut,
      hs.lastPoint, hs'.lastPoint]
  | succ k ih =>
    rw [beats_succ, beats_succ]
    exact control_tickRamp ih inc _ _

/-- Beats register the same values if the first and the fourth do. -/
theorem rampout_beats_eq (hs : Started s) (hs' : Started s') (hold : s.oldSetpt = s'.oldSetpt)
    (hnew : s.newSetptLat = s'.newSetptLat) (hfp : toSetpt s.rampoutFp = toSetpt s'.rampoutFp)
    (hset : setptOf s.oldSetpt s.newSetptLat c = setptOf s'.oldSetpt s'.newSetptLat c') (k : ℕ)
    (hk : 0 < k) :
    (beats cosine inc s c k).1.rampout = (beats cosine inc s' c' k).1.rampout := by
  obtain ⟨htwo, hthree⟩ := rampout_beats_start cosine inc c hs
  obtain ⟨htwo', hthree'⟩ := rampout_beats_start cosine inc c' hs'
  obtain rfl | rfl | rfl | rfl | ⟨n, rfl⟩ :
      k = 1 ∨ k = 2 ∨ k = 3 ∨ k = 0 + 4 ∨ ∃ n, k = n + 1 + 4 := by
    by_cases h5 : 5 ≤ k
    · exact Or.inr (Or.inr (Or.inr (Or.inr ⟨k - 5, by omega⟩)))
    · omega
  · rw [rampout_beats_one, rampout_beats_one, hfp]
  · rw [htwo, htwo', hold]
  · rw [hthree, hthree', hold]
  · rw [rampout_beats_add_four, rampout_beats_add_four]
    exact hset
  · -- from the fifth beat on the cosine is one of the ramp's own phases
    have hctl := control_beats cosine inc c c' hs hs' n
    simp only [control, Prod.mk.injEq] at hctl
    rw [rampout_beats_add_four, rampout_beats_add_four, cos_beats_succ, cos_beats_succ,
      hctl.2.2.1, hold, hnew]

end Beats

/-! ## Two runs -/

section TwoRuns

variable {cosine : BitVec 24 → BitVec 24} {l m : Launch}

theorem Launch.ramp (hv : l.Valid cosine) (hh : l.Held cosine) :
    Ramp cosine l.core l.inp l.start l.inc :=
  ⟨hv.spaced, hv.idle, hv.starts, hh⟩

theorem rampTicks_start (inp : ℕ → Input) (t k : ℕ) :
    rampTicks inp t (t + 1 + k) = tickCount (fun j => trig inp (t + 1 + j)) k := by
  unfold rampTicks
  rw [Nat.add_sub_cancel_left]

theorem SameRamp.symm (h : SameRamp cosine l m) : SameRamp cosine m l :=
  ⟨h.old.symm, h.new.symm, h.inc.symm, fun k => (h.tick k).symm, fun k => (h.reset k).symm⟩

theorem SameRamp.rampTicks_eq (h : SameRamp cosine l m) (k : ℕ) :
    rampTicks l.inp l.start (l.start + 1 + k) = rampTicks m.inp m.start (m.start + 1 + k) := by
  rw [rampTicks_start, rampTicks_start]
  congr 1
  funext j
  exact h.tick j

/-- The second ramp runs as long as the first. -/
theorem SameRamp.running (h : SameRamp cosine l m) (hl : Ramp cosine l.core l.inp l.start l.inc)
    (hm : Ramp cosine m.core m.inp m.start m.inc) (k : ℕ)
    (hrun : Running (l.states cosine) l.inp l.start (l.start + 1 + k)) :
    Running (m.states cosine) m.inp m.start (m.start + 1 + k) := by
  induction k using Nat.strong_induction_on with
  | _ k ih =>
    have hbefore : ∀ v, m.start < v → v < m.start + 1 + k →
        Running (m.states cosine) m.inp m.start v := by
      intro v hv hvk
      obtain ⟨j, rfl⟩ : ∃ j, v = m.start + 1 + j := ⟨v - (m.start + 1), by omega⟩
      exact ih j (by omega) (hrun.mono (by omega) (by omega))
    have hviewl := hl.view_eq (u := l.start + 1 + k) (by omega)
      (fun v htv hvu => hrun.mono htv hvu.le)
    have hviewm := hm.view_eq (u := m.start + 1 + k) (by omega) hbefore
    rw [h.rampTicks_eq k, h.inc] at hviewl
    -- the control registers of both are those of the same number of beats
    have hstate : (m.states cosine (m.start + 1 + k)).regs.state = .runRamp := by
      have hctl := control_beats cosine m.inc (l.stale cosine) (m.stale cosine) hl.started
        hm.started (rampTicks m.inp m.start (m.start + 1 + k))
      have h1 := congrArg (fun y => y.1.state) hviewl
      have h2 := congrArg (fun y => y.1.state) hviewm
      have h3 := congrArg Prod.fst hctl
      exact h2.trans (h3.symm.trans (h1.symm.trans (hrun.runs _ hrun.after le_rfl)))
    refine ⟨hm.idle, by omega, ?_, ?_⟩
    · intro v hv hvk
      rcases Nat.lt_or_eq_of_le hvk with hlt | rfl
      · exact (hbefore v hv hlt).runs v hv le_rfl
      · exact hstate
    · intro v hv hvk
      obtain ⟨j, rfl⟩ : ∃ j, v = m.start + 1 + j := ⟨v - (m.start + 1), by omega⟩
      rw [← h.reset j]
      exact hrun.noReset _ (by omega) (by omega)

theorem Launch.rampout_eq (hl : Ramp cosine l.core l.inp l.start l.inc) {k : ℕ}
    (htick : RampTick (l.states cosine) l.inp l.start (l.start + 1 + k)) :
    (l.states cosine (l.start + 1 + k + 1)).regs.rampout =
      (beats cosine l.inc (l.begin cosine) (l.stale cosine)
        (rampTicks l.inp l.start (l.start + 1 + k) + 1)).1.rampout := by
  rw [← rampTicks_succ_of_tick (by omega) htick.tick]
  exact hl.rampout_eq htick

theorem sameTrajectory_of_startsAlike (h : SameRamp cosine l m)
    (hl : Ramp cosine l.core l.inp l.start l.inc) (hm : Ramp cosine m.core m.inp m.start m.inc)
    (halike : StartsAlike cosine l m) : SameTrajectory cosine l m := by
  intro k
  refine ⟨⟨h.running hl hm k, h.symm.running hm hl k⟩, ?_⟩
  intro htick
  have htick' : RampTick (m.states cosine) m.inp m.start (m.start + 1 + k) :=
    ⟨h.running hl hm k htick.toRunning, by rw [← h.tick k]; exact htick.tick⟩
  rw [Launch.rampout_eq hl htick, Launch.rampout_eq hm htick', h.rampTicks_eq k, h.inc]
  exact rampout_beats_eq hl.started hm.started h.old h.new halike.1 halike.2 _ (by omega)

theorem startsAlike_of_sameTrajectory (h : SameRamp cosine l m)
    (hl : Ramp cosine l.core l.inp l.start l.inc) (hm : Ramp cosine m.core m.inp m.start m.inc)
    (hsame : SameTrajectory cosine l m) {j k : ℕ}
    (hfirst : RampTick (l.states cosine) l.inp l.start (l.start + 1 + j))
    (hj : rampTicks l.inp l.start (l.start + 1 + j) = 0)
    (hfourth : RampTick (l.states cosine) l.inp l.start (l.start + 1 + k))
    (hk : rampTicks l.inp l.start (l.start + 1 + k) = 3) : StartsAlike cosine l m := by
  have hother : ∀ i, RampTick (l.states cosine) l.inp l.start (l.start + 1 + i) →
      RampTick (m.states cosine) m.inp m.start (m.start + 1 + i) :=
    fun i hi => ⟨h.running hl hm i hi.toRunning, by rw [← h.tick i]; exact hi.tick⟩
  have h1 := (hsame j).2 hfirst
  have h4 := (hsame k).2 hfourth
  rw [Launch.rampout_eq hl hfirst, Launch.rampout_eq hm (hother j hfirst), ← h.rampTicks_eq j, hj,
    rampout_beats_one, rampout_beats_one] at h1
  rw [Launch.rampout_eq hl hfourth, Launch.rampout_eq hm (hother k hfourth), ← h.rampTicks_eq k, hk,
    show 3 + 1 = 0 + 4 from rfl, rampout_beats_add_four, rampout_beats_add_four] at h4
  exact ⟨h1, h4⟩

end TwoRuns

/-- **Isolation.** Take two runs with a ramp from the same starting point to the same target, with
the same increment in force at the start, the same ticks and the same resets, and any register
writes. If in both the increment is held, the ramps have the same trajectory once they start
alike; and, where they have four ticks or more, only then. -/
theorem sameTrajectory_of_held (cosine : BitVec 24 → BitVec 24) (l m : Launch)
    (hvl : l.Valid cosine) (hvm : m.Valid cosine) (h : SameRamp cosine l m)
    (hl : l.Held cosine) (hm : m.Held cosine) :
    (StartsAlike cosine l m → SameTrajectory cosine l m) ∧
    ((∀ i ≤ 3, ∃ k, RampTick (l.states cosine) l.inp l.start (l.start + 1 + k) ∧
        rampTicks l.inp l.start (l.start + 1 + k) = i) →
      SameTrajectory cosine l m → StartsAlike cosine l m) := by
  have hrl := Launch.ramp hvl hl
  have hrm := Launch.ramp hvm hm
  refine ⟨sameTrajectory_of_startsAlike h hrl hrm, ?_⟩
  intro hticks hsame
  obtain ⟨j, hfirst, hj⟩ := hticks 0 (by omega)
  obtain ⟨k, hfourth, hk⟩ := hticks 3 le_rfl
  exact startsAlike_of_sameTrajectory h hrl hrm hsame hfirst hj hfourth hk

/-! ### Two commands -/

/-- Reset at clock 0 and a tick on every third clock. A first command writes the increment of a
twelfth of π at clock 2 and the setpoint 19500 at clock 3, a second one its writes at clocks 6
and 8. -/
def twoCommands (second : List Write) (n : ℕ) : Drive where
  reset := n == 0
  tenkhzTrig := n % 3 == 1
  curSetpt := 0
  write :=
    if n = 2 then some ⟨.smoothPhaseinc, 35138108⟩
    else if n = 3 then some ⟨.dacSetpt, 19500⟩
    else if n = 6 then second[0]?
    else if n = 8 then second[1]?
    else none

/-- The ramp of the first command. -/
def firstRamp (second : List Write) : Launch := ⟨restCore, ⟨0, 0, 0⟩, twoCommands second, 4⟩

theorem valid_firstRamp (second : List Write)
    (hidle : ((firstRamp second).states coarseCosine 4).regs.state = .idle)
    (hrun : ((firstRamp second).states coarseCosine 5).regs.state = .runRamp) :
    (firstRamp second).Valid coarseCosine where
  spaced := spaced_twoRamps 0 0
  idle := hidle
  starts := hrun

/-- The writes of the second command leave the increment alone. -/
theorem held_firstRamp (second : List Write)
    (h : ∀ w ∈ second, w.reg = .smoothPhaseinc → w.data = 35138108) :
    (firstRamp second).Held coarseCosine := by
  have hbank : ∀ n, 3 ≤ n →
      (bankAt ⟨0, 0, 0⟩ (twoCommands second) n).smoothPhaseinc = 35138108 := by
    intro n hn
    induction n, hn using Nat.le_induction with
    | base => rfl
    | succ n hn ih =>
      have hwrite : ∀ w, (twoCommands second n).write = some w → w.reg = .smoothPhaseinc →
          w.data = 35138108 := by
        intro w hw hreg
        simp only [twoCommands] at hw
        split_ifs at hw with h2 h3 h6 h8
        · omega
        · obtain rfl := Option.some.inj hw
          exact absurd hreg (by simp)
        · exact h w (List.mem_of_getElem? hw) hreg
        · exact h w (List.mem_of_getElem? hw) hreg
      unfold bankAt at ih ⊢
      rw [run_succ]
      cases hw : (twoCommands second n).write with
      | none => exact ih
      | some w =>
        show (Bank.write _ w).smoothPhaseinc = _
        unfold Bank.write
        cases hreg : w.reg with
        | smoothPhaseinc => exact hwrite w hw hreg
        | dacSetpt => exact ih
        | dacOpmode => exact ih
  intro u hu
  have hafter : 4 < u := hu.after
  exact (hbank u (by omega)).trans (hbank 5 (by omega)).symm

/-- A second command with the same increment and the setpoint 10000 makes no difference. -/
theorem firstRamp_isolated :
    SameTrajectory coarseCosine (firstRamp [])
      (firstRamp [⟨.smoothPhaseinc, 35138108⟩, ⟨.dacSetpt, 10000⟩]) := by
  have hv := valid_firstRamp [] (by decide) (by decide)
  have hv' := valid_firstRamp [⟨.smoothPhaseinc, 35138108⟩, ⟨.dacSetpt, 10000⟩] (by decide)
    (by decide)
  have hsame : SameRamp coarseCosine (firstRamp [])
      (firstRamp [⟨.smoothPhaseinc, 35138108⟩, ⟨.dacSetpt, 10000⟩]) :=
    ⟨by decide, by decide, by decide, fun _ => rfl, fun _ => rfl⟩
  refine (sameTrajectory_of_held coarseCosine _ _ hv hv' hsame (held_firstRamp _ (by simp))
    (held_firstRamp _ (by simp))).1 ?_
  unfold StartsAlike
  decide

/-- Two commands at 300 A/s, to 19500 counts and, while that ramp runs, to 10000. The increment of
the second is read by the ramp of the first, which ends after nine ticks in place of fifteen. -/
theorem firstRamp_not_isolated :
    calcWriteSmooth ⟨300, 1⟩ (524288 / 10) ((0 : BitVec 20).signExtend 32)
        ((19500 : BitVec 20).signExtend 32) =
      .ok [⟨.smoothPhaseinc, 35138108⟩, ⟨.dacSetpt, 19500⟩] ∧
    calcWriteSmooth ⟨300, 1⟩ (524288 / 10) ((0 : BitVec 20).signExtend 32)
        ((10000 : BitVec 20).signExtend 32) =
      .ok [⟨.smoothPhaseinc, 70276216⟩, ⟨.dacSetpt, 10000⟩] ∧
    (firstRamp []).Valid coarseCosine ∧
    (firstRamp [⟨.smoothPhaseinc, 70276216⟩, ⟨.dacSetpt, 10000⟩]).Valid coarseCosine ∧
    SameRamp coarseCosine (firstRamp [])
      (firstRamp [⟨.smoothPhaseinc, 70276216⟩, ⟨.dacSetpt, 10000⟩]) ∧
    StartsAlike coarseCosine (firstRamp [])
      (firstRamp [⟨.smoothPhaseinc, 70276216⟩, ⟨.dacSetpt, 10000⟩]) ∧
    ¬SameTrajectory coarseCosine (firstRamp [])
      (firstRamp [⟨.smoothPhaseinc, 70276216⟩, ⟨.dacSetpt, 10000⟩]) := by
  have hrate : 0 < rampRate ⟨300, 1⟩ (524288 / 10) := by norm_num [rampRate]
  have hz : (0 : BitVec 20).toInt = 0 := by decide
  have h1 : (19500 : BitVec 20).toInt = 19500 := by decide
  have h2 : (10000 : BitVec 20).toInt = 10000 := by decide
  refine ⟨?_, ?_, valid_firstRamp _ (by decide) (by decide),
    valid_firstRamp _ (by decide) (by decide),
    ⟨by decide, by decide, by decide, fun _ => rfl, fun _ => rfl⟩, ?_, ?_⟩
  · rw [calcWriteSmooth_eq 0 19500 (n := 12) ((numSamples_eq_ok_iff 0 19500 hrate).mpr (by
      rw [hz, h1]; norm_num [rampRate, sampleRate]))]
    rfl
  · rw [calcWriteSmooth_eq 0 10000 (n := 6) ((numSamples_eq_ok_iff 0 10000 hrate).mpr (by
      rw [hz, h2]; norm_num [rampRate, sampleRate]))]
    rfl
  · unfold StartsAlike
    decide
  · intro hsame
    have hrun : Running ((firstRamp []).states coarseCosine) (firstRamp []).inp 4 32 := by
      have hall : ∀ v ≤ 32, 4 < v →
          ((firstRamp []).states coarseCosine v).regs.state = .runRamp ∧
            ((firstRamp []).inp v).reset = false := by decide
      exact ⟨by decide, by decide, fun v h1 h2 => (hall v h2 h1).1, fun v h1 h2 => (hall v h2 h1).2⟩
    have hover := ((hsame 27).1.mp hrun).runs 32 (by decide) (by decide)
    exact absurd hover (by decide)

end Psc.Control
