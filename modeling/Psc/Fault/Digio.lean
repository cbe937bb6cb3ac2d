import Psc.Lib.Clocked
import Psc.Records

/-!
# Digital outputs

`pulse_enable.vhd` turns an enable command into a square wave or a static level, and
`digio_logic.vhd` drives the command lines `rcom` of the four supplies from it. The ON1 line is
always pulsed and is gated, combinationally, with the fault trigger of its channel.
-/

namespace Psc

namespace PulseEnable

/-- The input ports. -/
structure Input where
  reset : Bool
  en : Bool
  enableIn : Bool
  periodIn : BitVec 32

/-- The registers. -/
structure State where
  pulseCounter : BitVec 32
  pulseEnable : Bool
  chEnable : Bool
  enableInReg : Bool
  deriving DecidableEq

/-- The process "Pulse generation": the counter and `ch_enable` after the clock. At the end of the
period, and in static mode, `ch_enable` keeps its value. -/
def pulseGeneration (s : State) (i : Input) : BitVec 32 × Bool :=
  if i.reset then (0, false)
  else if i.en then
    if s.pulseEnable then
      if s.pulseCounter = i.periodIn then (0, s.chEnable)
      else if i.periodIn / 2 ≤ s.pulseCounter then (s.pulseCounter + 1, true)
      else (s.pulseCounter + 1, false)
    else (0, false)
  else (0, s.chEnable)

/-- One clock. -/
def step (s : State) (i : Input) : State where
  pulseCounter := (pulseGeneration s i).1
  chEnable := (pulseGeneration s i).2
  pulseEnable := if i.reset then false else i.enableIn
  enableInReg := if i.reset then false else i.enableIn

/-- `en_out`: the pulsed or the static output. -/
def enOut (s : State) (en : Bool) : Bool := if en then s.chEnable else s.enableInReg

/-- A clock at which the pulse generator runs. At the end of the period the level is kept. -/
theorem pulseGeneration_of_enabled {s : State} {i : Input} (hr : i.reset = false)
    (hen : i.en = true) (hs : s.pulseEnable = true) : pulseGeneration s i =
      if s.pulseCounter = i.periodIn then (0, s.chEnable)
      else (s.pulseCounter + 1, decide (i.periodIn / 2 ≤ s.pulseCounter)) := by
  unfold pulseGeneration
  simp only [hr, hen, hs, Bool.false_eq_true, if_false, if_true]
  by_cases hend : s.pulseCounter = i.periodIn
  · rw [if_pos hend, if_pos hend]
  · rw [if_neg hend, if_neg hend]
    by_cases hhalf : i.periodIn / 2 ≤ s.pulseCounter
    · rw [if_pos hhalf, decide_eq_true hhalf]
    · rw [if_neg hhalf, decide_eq_false hhalf]

end PulseEnable

namespace Digio

/-- The ON1 and ON2 pulse generators of the four supplies. -/
structure State where
  on1 : Ps → PulseEnable.State
  on2 : Ps → PulseEnable.State

/-- The input ports that reach the registers. -/
structure Input where
  reset : Bool
  digCntrl : Ps → DigCntrl

/-- The period of every pulse generator. -/
def period : BitVec 32 := 1000000#32

/-- One clock. -/
def step (s : State) (i : Input) : State where
  on1 ps := PulseEnable.step (s.on1 ps) ⟨i.reset, true, (i.digCntrl ps).on1, period⟩
  on2 ps :=
    PulseEnable.step (s.on2 ps) ⟨i.reset, (i.digCntrl ps).on2Pulseenb, (i.digCntrl ps).on2, period⟩

section Outputs

variable (s : State) (fltTrig : Ps → Bool) (digCntrl : Ps → DigCntrl)

/-- `ps_on1`. -/
def psOn1 (ps : Ps) : Bool := PulseEnable.enOut (s.on1 ps) true

/-- `ps_on2`. -/
def psOn2 (ps : Ps) : Bool := PulseEnable.enOut (s.on2 ps) (digCntrl ps).on2Pulseenb

/-- The four command lines of a supply in the low nibbles of `rcom`. -/
def commands (ps : Ps) : List Bool :=
  [psOn1 s ps && !fltTrig ps, psOn2 s digCntrl ps, (digCntrl ps).reset, (digCntrl ps).spare]

/-- The lines of `rcom`: four per supply, then the four park lines. -/
def lines : List Bool :=
  commands s fltTrig digCntrl .ps1 ++ commands s fltTrig digCntrl .ps2 ++
    commands s fltTrig digCntrl .ps3 ++ commands s fltTrig digCntrl .ps4 ++
    [(digCntrl .ps1).park, (digCntrl .ps2).park, (digCntrl .ps3).park, (digCntrl .ps4).park]

theorem length_lines : (lines s fltTrig digCntrl).length = 20 := rfl

/-- The output port `rcom`. -/
def rcom : BitVec 20 :=
  (BitVec.ofBoolListLE (lines s fltTrig digCntrl)).cast (length_lines s fltTrig digCntrl)

end Outputs

/-- The output port `dig_stat`. -/
def digStat (rsts : BitVec 20) (ps : Ps) : DigStat where
  acon := rsts.getLsbD (4 * ps.idx)
  flt1 := rsts.getLsbD (4 * ps.idx + 1)
  flt2 := rsts.getLsbD (4 * ps.idx + 2)
  spare := rsts.getLsbD (4 * ps.idx + 3)
  dcctFlt := rsts.getLsbD (16 + ps.idx)

theorem rcom_on1 (s : State) (fltTrig : Ps → Bool) (digCntrl : Ps → DigCntrl) (ps : Ps) :
    (rcom s fltTrig digCntrl).getLsbD (4 * ps.idx) = (psOn1 s ps && !fltTrig ps) := by
  unfold rcom
  rw [BitVec.getLsbD_cast, BitVec.getLsbD_ofBoolListLE]
  cases ps <;> rfl

theorem rcom_on1_of_fltTrig (s : State) {fltTrig : Ps → Bool} (digCntrl : Ps → DigCntrl) {ps : Ps}
    (h : fltTrig ps = true) : (rcom s fltTrig digCntrl).getLsbD (4 * ps.idx) = false := by
  rw [rcom_on1, h, Bool.not_true, Bool.and_false]

end Digio

end Psc
