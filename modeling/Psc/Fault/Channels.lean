import Psc.Fault.Interlock

/-!
# Channels of the protection

What one channel of the protection can see of the others. A channel has its own fault block, its own
pulse generators and its own bits of `rsts` and `rcom`; the one wire between channels is the port
`park` of the second fault block, which is on the park line of the first channel (`parkLine`).

1. Two runs that agree on what belongs to a channel, and on the park line its fault block is wired
   to at the ticks of its checks, agree on its outputs at every clock (`sameOutputs_run`).
2. So channels 1, 3 and 4 do not depend on the others, and channel 2 depends on the park command of
   channel 1 (`noninterference_iff`).
-/

namespace Psc

namespace FaultBlock

theorem step_congr {s : State} {i i' : Input} (h : { i with park := i'.park } = i')
    (hpark : s.tenKhzPulse = true → i.park = i'.park) : step s i = step s i' := by
  cases ht : s.tenKhzPulse with
  | true =>
    have hi : i = i' := by
      rw [← h, ← hpark ht]
    rw [hi]
  | false =>
    rw [← h]
    unfold step mainFaultLogic
    simp only [ht]
    rfl

end FaultBlock

namespace Digio

section Lines

variable (s : State) (fltTrig : Ps → Bool) (digCntrl : Ps → DigCntrl) (ps : Ps)

theorem rcom_command {j : ℕ} (hj : j < 4) :
    (rcom s fltTrig digCntrl).getLsbD (4 * ps.idx + j) =
      (commands s fltTrig digCntrl ps).getD j false := by
  unfold rcom
  rw [BitVec.getLsbD_cast, BitVec.getLsbD_ofBoolListLE]
  cases ps <;> interval_cases j <;> rfl

theorem rcom_park : (rcom s fltTrig digCntrl).getLsbD (16 + ps.idx) = (digCntrl ps).park := by
  unfold rcom
  rw [BitVec.getLsbD_cast, BitVec.getLsbD_ofBoolListLE]
  cases ps <;> rfl

end Lines

end Digio

namespace Protection

open Clocked

/-! ## What belongs to a channel -/

/-- Two inputs agree on reset, tick and what belongs to the channel. -/
structure SameInputs (ps : Ps) (i i' : Input) : Prop where
  reset : i.reset = i'.reset
  tenkhzTrig : i.tenkhzTrig = i'.tenkhzTrig
  faultParams : i.faultParams ps = i'.faultParams ps
  dcctAdcs : i.dcctAdcs ps = i'.dcctAdcs ps
  monAdcs : i.monAdcs ps = i'.monAdcs ps
  dacSetpt : i.dacSetpt ps = i'.dacSetpt ps
  rsts : ∀ j < 4, i.rsts.getLsbD (4 * ps.idx + j) = i'.rsts.getLsbD (4 * ps.idx + j)
  rstsDcct : i.rsts.getLsbD (16 + ps.idx) = i'.rsts.getLsbD (16 + ps.idx)
  digCntrl : i.digCntrl ps = i'.digCntrl ps

/-- Two states agree on the registers of the channel. -/
structure SameRegisters (ps : Ps) (s s' : State) : Prop where
  fault : s.fault ps = s'.fault ps
  on1 : s.digio.on1 ps = s'.digio.on1 ps
  on2 : s.digio.on2 ps = s'.digio.on2 ps

/-- The outputs of the channel: its fault status, its command lines and its park line. -/
def outputs (ps : Ps) (s : State) (i : Input) : FaultStat × List Bool × Bool :=
  (FaultBlock.faultStat (s.fault ps),
    (List.range 4).map (fun j => (rcom s i).getLsbD (4 * ps.idx + j)),
    (rcom s i).getLsbD (16 + ps.idx))

/-- Runs that agree on what belongs to the channel agree on its outputs, whatever the others do. -/
def Noninterfering (ps : Ps) : Prop :=
  ∀ (s s' : State) (inp inp' : ℕ → Input), SameRegisters ps s s' →
    (∀ n, SameInputs ps (inp n) (inp' n)) →
    ∀ n, outputs ps (run step s inp n) (inp n) = outputs ps (run step s' inp' n) (inp' n)

/-- The channel whose park command reaches the fault block of `ps`. -/
def parkOwner : Ps → Ps
  | .ps2 => .ps1
  | ps => ps

theorem rcom_parkLine (s : State) (i : Input) (ps : Ps) :
    (rcom s i).getLsbD (parkLine ps) = (i.digCntrl (parkOwner ps)).park := by
  have h := Digio.rcom_park s.digio (fun ps => (FaultBlock.faultStat (s.fault ps)).fltTrig)
    i.digCntrl (parkOwner ps)
  cases ps <;> exact h

section TwoRuns

variable {ps : Ps} {s s' : State} {i i' : Input}

theorem rcom_congr (hs : SameRegisters ps s s') (hi : SameInputs ps i i') {j : ℕ} (hj : j < 4) :
    (rcom s i).getLsbD (4 * ps.idx + j) = (rcom s' i').getLsbD (4 * ps.idx + j) := by
  unfold rcom
  rw [Digio.rcom_command _ _ _ _ hj, Digio.rcom_command _ _ _ _ hj]
  unfold Digio.commands Digio.psOn1 Digio.psOn2
  dsimp only
  rw [hs.fault, hs.on1, hs.on2, hi.digCntrl]

theorem outputs_congr (hs : SameRegisters ps s s') (hi : SameInputs ps i i') :
    outputs ps s i = outputs ps s' i' := by
  have hpark : (rcom s i).getLsbD (16 + ps.idx) = (rcom s' i').getLsbD (16 + ps.idx) := by
    unfold rcom
    rw [Digio.rcom_park, Digio.rcom_park, hi.digCntrl]
  unfold outputs
  rw [hs.fault, hpark]
  congr 2
  apply List.map_congr_left
  intro j hj
  exact rcom_congr hs hi (List.mem_range.mp hj)

theorem faultInput_congr (hs : SameRegisters ps s s') (hi : SameInputs ps i i') :
    { faultInput s i ps with park := (faultInput s' i' ps).park } = faultInput s' i' ps := by
  have hon := rcom_congr hs hi (j := 0) (by omega)
  have h0 := hi.rsts 0 (by omega)
  rw [Nat.add_zero] at hon h0
  unfold faultInput
  rw [hi.reset, hi.tenkhzTrig, hi.faultParams, hi.dcctAdcs, hi.monAdcs, hi.dacSetpt,
    hi.rsts 1 (by omega), hi.rsts 2 (by omega), hi.rsts 3 (by omega), hi.rstsDcct, h0, hon]

theorem SameRegisters.step (hs : SameRegisters ps s s') (hi : SameInputs ps i i')
    (hpark : (s.fault ps).tenKhzPulse = true →
      (i.digCntrl (parkOwner ps)).park = (i'.digCntrl (parkOwner ps)).park) :
    SameRegisters ps (step s i) (step s' i') := by
  refine ⟨?_, ?_, ?_⟩
  · show FaultBlock.step (s.fault ps) _ = FaultBlock.step (s'.fault ps) _
    rw [← hs.fault]
    apply FaultBlock.step_congr (faultInput_congr hs hi)
    intro ht
    show (rcom s i).getLsbD (parkLine ps) = (rcom s' i').getLsbD (parkLine ps)
    rw [rcom_parkLine, rcom_parkLine, hpark ht]
  · show PulseEnable.step (s.digio.on1 ps) _ = PulseEnable.step (s'.digio.on1 ps) _
    dsimp only
    rw [hs.on1, hi.reset, hi.digCntrl]
  · show PulseEnable.step (s.digio.on2 ps) _ = PulseEnable.step (s'.digio.on2 ps) _
    dsimp only
    rw [hs.on2, hi.reset, hi.digCntrl]

variable {inp inp' : ℕ → Input}

/-- At the ticks of its checks the channel finds the same on the park line. -/
def SamePark (ps : Ps) (s : State) (inp inp' : ℕ → Input) : Prop :=
  ∀ n, ((run Protection.step s inp n).fault ps).tenKhzPulse = true →
    ((inp n).digCntrl (parkOwner ps)).park = ((inp' n).digCntrl (parkOwner ps)).park

theorem sameRegisters_run (hs : SameRegisters ps s s') (hi : ∀ n, SameInputs ps (inp n) (inp' n))
    (hpark : SamePark ps s inp inp') (n : ℕ) :
    SameRegisters ps (run Protection.step s inp n) (run Protection.step s' inp' n) := by
  induction n with
  | zero => exact hs
  | succ n ih =>
    rw [run_succ, run_succ]
    exact ih.step (hi n) (hpark n)

theorem sameOutputs_run (hs : SameRegisters ps s s') (hi : ∀ n, SameInputs ps (inp n) (inp' n))
    (hpark : SamePark ps s inp inp') (n : ℕ) :
    outputs ps (run Protection.step s inp n) (inp n) =
      outputs ps (run Protection.step s' inp' n) (inp' n) :=
  outputs_congr (sameRegisters_run hs hi hpark n) (hi n)

end TwoRuns

/-! ## The park line of the second channel -/

/-- All registers low. -/
def restState : State := ⟨fun _ => FaultBlock.restState, fun _ => ⟨0, false, false, false⟩,
  fun _ => ⟨0, false, false, false⟩⟩

/-- The second supply has a loop error, and the first is parked or not. The tick comes at clock
`0`. -/
def loopError (park : Bool) (n : ℕ) : Input :=
  { onInput with
    tenkhzTrig := n = 0
    monAdcs := fun ps => ⟨0, 0, 0, 0, 0, if ps = .ps2 then 0x7FFF else 0⟩
    digCntrl := fun ps => ⟨true, false, false, false, false, decide (ps = .ps1) && park⟩ }

theorem sameInputs_loopError (n : ℕ) : SameInputs .ps2 (loopError false n) (loopError true n) :=
  ⟨rfl, rfl, rfl, rfl, rfl, rfl, fun _ _ => rfl, rfl, rfl⟩

theorem live_loopError :
    (FaultBlock.faultStat ((run step restState (loopError false) 4).fault .ps2)).live = 0x18 ∧
      (FaultBlock.faultStat ((run step restState (loopError true) 4).fault .ps2)).live = 0 := by
  decide +kernel

theorem outputs_loopError :
    outputs .ps2 (run step restState (loopError false) 4) (loopError false 4) ≠
      outputs .ps2 (run step restState (loopError true) 4) (loopError true 4) := by
  intro h
  have hlive := congrArg (fun o => o.1.live) h
  obtain ⟨hset, hclear⟩ := live_loopError
  exact absurd (hset.symm.trans (hlive.trans hclear)) (by decide)

/-- **Noninterference.** A channel does not depend on what the others do exactly if it is not the
second one; and any two runs that agree on what belongs to a channel, and on the park line of its
fault block at the ticks of its checks, agree on its outputs at every clock. -/
theorem noninterference_iff (ps : Ps) :
    (Noninterfering ps ↔ ps ≠ .ps2) ∧
    ∀ (s s' : State) (inp inp' : ℕ → Input), SameRegisters ps s s' →
      (∀ n, SameInputs ps (inp n) (inp' n)) → SamePark ps s inp inp' →
      ∀ n, outputs ps (run step s inp n) (inp n) = outputs ps (run step s' inp' n) (inp' n) := by
  refine ⟨⟨?_, ?_⟩, fun s s' inp inp' hs hi hpark => sameOutputs_run hs hi hpark⟩
  · rintro hni rfl
    exact outputs_loopError (hni restState restState (loopError false) (loopError true)
      ⟨rfl, rfl, rfl⟩ sameInputs_loopError 4)
  · intro hne s s' inp inp' hs hi
    have howner : parkOwner ps = ps := by
      cases ps with
      | ps2 => exact absurd rfl hne
      | _ => rfl
    refine sameOutputs_run hs hi fun n _ => ?_
    rw [howner, (hi n).digCntrl]

/-- The second channel depends on the park command of the first. -/
theorem ps2_interference :
    (FaultBlock.faultStat ((run step restState (loopError false) 4).fault .ps2)).live ≠
        (FaultBlock.faultStat ((run step restState (loopError true) 4).fault .ps2)).live ∧
      ¬Noninterfering .ps2 := by
  obtain ⟨hset, hclear⟩ := live_loopError
  rw [hset, hclear]
  refine ⟨by decide, ?_⟩
  intro hni
  exact outputs_loopError (hni restState restState (loopError false) (loopError true)
    ⟨rfl, rfl, rfl⟩ sameInputs_loopError 4)

end Protection

end Psc
