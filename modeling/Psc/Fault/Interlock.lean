import Psc.Fault.Block
import Psc.Fault.Digio

/-!
# The interlock

`fault_module.vhd` runs one fault block per channel and `digio_logic.vhd` gates the ON1 lines with
their triggers; `rcom` comes back to the fault blocks as the command they supervise. This module
composes the two as `top.vhd` wires them.

A live fault sets its latch at the end of the clock, the latch is masked into
`fault_reg_lat_mask` one clock later, and the ON1 gate reads that register: a fault takes the line
down two clocks later (`on1_low_after_fault`) and keeps it down for as long as the latch and its
enable bit stand.
-/

namespace Psc.FaultBlock

open NumericStd

/-! ## Latch and mask of one channel -/

theorem faultRegLat_step {s : State} {i : Input} {k : ℕ} (hk : k < 13) (hr : i.reset = false)
    (hc : s.clearPulse = false)
    (h : s.faultReg.getLsbD k = true ∨ s.faultRegLat.getLsbD k = true) :
    (step s i).faultRegLat.getLsbD k = true := by
  show (mainFaultLogic s i).faultRegLat.getLsbD k = true
  unfold mainFaultLogic
  rw [if_neg (by simp [hr])]
  show (faultLatches s.clearPulse s.faultReg s.faultRegLat).getLsbD k = true
  rw [faultLatches_getLsbD _ _ _ hk, hc]
  rcases h with h | h <;> simp [h]

theorem fltTrig_step {s : State} {i : Input} {k : ℕ} (hm : faultMask.getLsbD k = true)
    (hl : s.faultRegLat.getLsbD k = true) (he : i.faultParams.enable.getLsbD k = true) :
    (faultStat (step s i)).fltTrig = true := by
  show decide (faultMask &&& s.faultRegLat &&& i.faultParams.enable ≠ 0) = true
  rw [decide_eq_true_eq]
  intro h0
  have hbit : (faultMask &&& s.faultRegLat &&& i.faultParams.enable).getLsbD k = true := by
    rw [BitVec.getLsbD_and, BitVec.getLsbD_and, hm, hl, he]; rfl
  rw [h0] at hbit
  simp at hbit

end Psc.FaultBlock

namespace Psc.Protection

open Clocked

/-! ## The composition -/

/-- The registers of the four fault blocks and of the digital outputs. -/
structure State where
  fault : Ps → FaultBlock.State
  digio : Digio.State

/-- What reaches the protection from outside. -/
structure Input where
  reset : Bool
  tenkhzTrig : Bool
  faultParams : Ps → FaultParams
  dcctAdcs : Ps → DcctAdcs
  monAdcs : Ps → MonAdcs
  dacSetpt : Ps → BitVec 20
  rsts : BitVec 20
  digCntrl : Ps → DigCntrl

/-- The command lines. -/
def rcom (s : State) (i : Input) : BitVec 20 :=
  Digio.rcom s.digio (fun ps => (FaultBlock.faultStat (s.fault ps)).fltTrig) i.digCntrl

/-- The line of `rcom` that `fault_module` wires to the port `park` of a channel. The second
channel gets the park line of the first. -/
def parkLine : Ps → ℕ
  | .ps1 => 16
  | .ps2 => 16
  | .ps3 => 18
  | .ps4 => 19

/-- The port map of a channel's fault block. -/
def faultInput (s : State) (i : Input) (ps : Ps) : FaultBlock.Input where
  reset := i.reset
  tenkhzTrig := i.tenkhzTrig
  faultParams := i.faultParams ps
  dcctAdcs := i.dcctAdcs ps
  monAdcs := i.monAdcs ps
  fault1 := i.rsts.getLsbD (4 * ps.idx + 1)
  fault2 := i.rsts.getLsbD (4 * ps.idx + 2)
  fault3 := i.rsts.getLsbD (4 * ps.idx + 3)
  dcctFault := i.rsts.getLsbD (16 + ps.idx)
  acOnIn := i.rsts.getLsbD (4 * ps.idx)
  acOnOut := (rcom s i).getLsbD (4 * ps.idx)
  park := (rcom s i).getLsbD (parkLine ps)
  dacSetpoint := i.dacSetpt ps
  evrFltIn := false

/-- One clock. -/
def step (s : State) (i : Input) : State where
  fault ps := FaultBlock.step (s.fault ps) (faultInput s i ps)
  digio := Digio.step s.digio ⟨i.reset, i.digCntrl⟩

/-! ## Runs -/

section Runs

variable (s₀ : State) (inp : ℕ → Input) (ps : Ps) (k : ℕ)

/-- At clock `v` nothing releases the latch of bit `k`: no reset, no clear, the bit enabled. -/
def Held (v : ℕ) : Prop :=
  (inp v).reset = false ∧ ((run step s₀ inp v).fault ps).clearPulse = false ∧
    ((inp v).faultParams ps).enable.getLsbD k = true

theorem faultRegLat_run {k : ℕ} (hk : k < 13) {t u : ℕ} (htu : t ≤ u)
    (ht : ((run step s₀ inp t).fault ps).faultRegLat.getLsbD k = true)
    (hheld : ∀ v, t ≤ v → v < u → Held s₀ inp ps k v) :
    ((run step s₀ inp u).fault ps).faultRegLat.getLsbD k = true := by
  induction u, htu using Nat.le_induction with
  | base => exact ht
  | succ u htu ih =>
    obtain ⟨hr, hc, _⟩ := hheld u htu (Nat.lt_succ_self u)
    have hlat := ih fun v hv hvu => hheld v hv (Nat.lt_succ_of_lt hvu)
    exact FaultBlock.faultRegLat_step hk hr hc (Or.inr hlat)

/-- **Interlock.** A live fault bit in `0..12` that both masks let through, at a clock `t` with no
clear pending and no reset, holds the ON1 line of its channel low from two clocks later on, for as
long as there is no reset, no clear, and the bit stays enabled. -/
theorem on1_low_after_fault (t : ℕ) (hk : k < 13)
    (hmask : FaultBlock.faultMask.getLsbD k = true)
    (hlive : ((run step s₀ inp t).fault ps).faultReg.getLsbD k = true)
    (ht : Held s₀ inp ps k t) :
    ∃ d ≤ 3, ∀ u, t + d ≤ u → (∀ v, t ≤ v → v < u → Held s₀ inp ps k v) →
      (rcom (run step s₀ inp u) (inp u)).getLsbD (4 * ps.idx) = false := by
  refine ⟨2, by omega, ?_⟩
  intro u htu hheld
  obtain ⟨w, rfl⟩ : ∃ w, u = w + 1 := ⟨u - 1, by omega⟩
  have hset : ((run step s₀ inp (t + 1)).fault ps).faultRegLat.getLsbD k = true :=
    FaultBlock.faultRegLat_step hk ht.1 ht.2.1 (Or.inl hlive)
  have hlat : ((run step s₀ inp w).fault ps).faultRegLat.getLsbD k = true :=
    faultRegLat_run s₀ inp ps hk (by omega) hset
      fun v hv hvw => hheld v (by omega) (by omega)
  have htrig : (FaultBlock.faultStat ((run step s₀ inp (w + 1)).fault ps)).fltTrig = true :=
    FaultBlock.fltTrig_step hmask hlat (hheld w (by omega) (Nat.lt_succ_self w)).2.2
  exact Digio.rcom_on1_of_fltTrig _ _ htrig

end Runs

/-- All channels on, the first with a live over-current fault. -/
def faultedState : State where
  fault
    | .ps1 => { FaultBlock.restState with faultReg := 1 }
    | _ => FaultBlock.restState
  digio := ⟨fun _ => ⟨Digio.period / 2, true, true, true⟩, fun _ => ⟨0, false, false, false⟩⟩

/-- Every supply healthy and told to stay on. -/
def onInput : Input where
  reset := false
  tenkhzTrig := false
  faultParams _ := FaultBlock.restParams 0
  dcctAdcs _ := ⟨0, 0⟩
  monAdcs _ := ⟨0, 0, 0, 0, 0, 0⟩
  dacSetpt _ := 0
  rsts := 0xF1111
  digCntrl _ := ⟨true, false, false, false, false, false⟩

/-- The over-current fault takes the first ON1 line down within three clocks. -/
theorem ps1_on1_low :
    (rcom faultedState onInput).getLsbD 0 = true ∧
      (rcom (run step faultedState (fun _ => onInput) 3) onInput).getLsbD 0 = false := by
  refine ⟨by decide, ?_⟩
  obtain ⟨d, hd, h⟩ := on1_low_after_fault faultedState (fun _ => onInput) .ps1 0 0 (by decide)
    (by decide) (by decide) ⟨rfl, rfl, by decide⟩
  refine h 3 (by omega) ?_
  intro v _ hv
  interval_cases v <;> exact ⟨rfl, by decide, by decide⟩

end Psc.Protection
