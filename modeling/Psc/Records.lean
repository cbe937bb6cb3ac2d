import Mathlib.Tactic

/-!
# The shared records

The record types of `psc_pkg.vhd` that several entities read. A record with one field per supply
(`t_fault_params`, `t_dig_cntrl`, …) is a function of the supply `Ps`.
-/

namespace Psc

/-- The four power supplies. -/
inductive Ps where
  | ps1 | ps2 | ps3 | ps4
  deriving DecidableEq

namespace Ps

/-- The position of a supply in the bit vectors `rcom` and `rsts`. -/
def idx : Ps → ℕ
  | ps1 => 0
  | ps2 => 1
  | ps3 => 2
  | ps4 => 3

theorem idx_lt (p : Ps) : p.idx < 4 := by cases p <;> decide

theorem idx_injective : Function.Injective idx := by
  intro p p' h
  cases p <;> cases p' <;> first | rfl | simp [idx] at h

end Ps

/-- `t_fault_params_onech`. `enable` is the software's fault mask: a zero bit ignores its fault. -/
structure FaultParams where
  clear : Bool
  enable : BitVec 16
  ovc1Thresh : BitVec 20
  ovc2Thresh : BitVec 20
  ovvThresh : BitVec 16
  err1Thresh : BitVec 16
  err2Thresh : BitVec 16
  igndThresh : BitVec 16
  ovc1Cntlim : BitVec 16
  ovc2Cntlim : BitVec 16
  ovvCntlim : BitVec 16
  err1Cntlim : BitVec 16
  err2Cntlim : BitVec 16
  igndCntlim : BitVec 16
  dcctCntlim : BitVec 16
  flt1Cntlim : BitVec 16
  flt2Cntlim : BitVec 16
  flt3Cntlim : BitVec 16
  onCntlim : BitVec 16
  deriving DecidableEq

/-- `t_fault_stat_onech`. -/
structure FaultStat where
  live : BitVec 16
  lat : BitVec 16
  fltTrig : Bool
  errTrig : Bool
  deriving DecidableEq

/-- `t_dcct_adcs_onech`. -/
structure DcctAdcs where
  dcct0 : BitVec 20
  dcct1 : BitVec 20
  deriving DecidableEq

/-- The calibrated readings of `t_mon_adcs_onech`. -/
structure MonAdcs where
  dacmon : BitVec 16
  voltage : BitVec 16
  ignd : BitVec 16
  spare : BitVec 16
  psReg : BitVec 16
  psError : BitVec 16
  deriving DecidableEq

/-- `t_dig_cntrl_onech`. -/
structure DigCntrl where
  on1 : Bool
  on2 : Bool
  on2Pulseenb : Bool
  reset : Bool
  spare : Bool
  park : Bool
  deriving DecidableEq

/-- `t_dig_stat_onech`. -/
structure DigStat where
  acon : Bool
  flt1 : Bool
  flt2 : Bool
  spare : Bool
  dcctFlt : Bool
  deriving DecidableEq

/-- `t_dac_cntrl_onech`. `gain` is in Q3.20 format; `mode` is 0 for smooth ramp, 1 for ramp table,
2 for FOFB and 3 for jump. -/
structure DacCntrl where
  setpoint : BitVec 20
  ramprun : Bool
  ramplen : BitVec 16
  gain : BitVec 24
  offset : BitVec 20
  smoothPhaseinc : BitVec 32
  cntrl : BitVec 8
  dpramAddr : BitVec 16
  dpramData : BitVec 20
  dpramWe : Bool
  reset : Bool
  mode : BitVec 2
  deriving DecidableEq

/-- `t_fofb_params`: the address of the controller, and the record address of each supply. -/
structure FofbParams where
  ipaddr : BitVec 32
  addr : Ps → BitVec 16

/-- `t_fofb_stat`. -/
structure FofbStat where
  packetsRcvd : BitVec 32
  command : BitVec 32
  nonce : BitVec 32
  setptFlt : Ps → BitVec 32

end Psc
