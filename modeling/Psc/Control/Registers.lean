import Psc.Control.Setpoint
import Psc.Records

/-!
# The register map

The software and the fabric meet in a register file on a 32-bit bus. The software addresses it with
the offsets of `pl_regs.h` (`ChanReg.offset`, `GlobReg.addr`); the fabric has a field of some width
at each address (`fieldWidth`, from `pl_regs.rdl`), and `ps_io.vhd` wires the fields to the records
the entities read (`psIo` for the fault parameters). Addresses are relative to the base of the bus.

A `Device` is what a command can see and change: the registers, the scale factors, the flash, and
the writes that have gone over the bus.
-/

namespace Psc

/-- The number by which the software knows a supply. -/
def Ps.chan (ps : Ps) : BitVec 32 := BitVec.ofNat 32 (ps.idx + 1)

namespace Control

/-! ## The software's side -/

/-- The registers of a channel that the commands use. -/
inductive ChanReg where
  | dacSetptOffset | dacSetptGain | dacSetpt | dacOpmode | dacRamplen | dacRampaddr | dacRampdata
  | dacRunramp | dacCurrsetpt
  | dcct1Offset | dcct1Gain | dcct2Offset | dcct2Gain | dacmonOffset | dacmonGain | voltOffset
  | voltGain | gndOffset | gndGain | spareOffset | spareGain | regOffset | regGain | errOffset
  | errGain
  | ovc1Thresh | ovc2Thresh | ovvThresh | err1Thresh | err2Thresh | igndThresh
  | ovc1Cntlim | ovc2Cntlim | ovvCntlim | err1Cntlim | err2Cntlim | igndCntlim | dcctCntlim
  | flt1Cntlim | flt2Cntlim | flt3Cntlim | onCntlim | heartbeatCntlim
  | faultClear | faultMask
  | digoutOn1 | digoutOn2 | digoutReset | digoutSpare | digoutPark
  | avemode | smoothPhaseinc | fofbFastaddr | fofbScalefactor
  deriving DecidableEq

/-- `pl_regs.h`, channel registers. -/
def ChanReg.offset : ChanReg → BitVec 32
  | dacSetptOffset => 0x20
  | dacSetptGain => 0x24
  | dacSetpt => 0x28
  | dacOpmode => 0x2C
  | dacRamplen => 0x38
  | dacRampaddr => 0x3C
  | dacRampdata => 0x40
  | dacRunramp => 0x44
  | dacCurrsetpt => 0x4C
  | dcct1Offset => 0x50
  | dcct1Gain => 0x54
  | dcct2Offset => 0x58
  | dcct2Gain => 0x5C
  | dacmonOffset => 0x60
  | dacmonGain => 0x64
  | voltOffset => 0x68
  | voltGain => 0x6C
  | gndOffset => 0x70
  | gndGain => 0x74
  | spareOffset => 0x78
  | spareGain => 0x7C
  | regOffset => 0x80
  | regGain => 0x84
  | errOffset => 0x88
  | errGain => 0x8C
  | ovc1Thresh => 0x90
  | ovc2Thresh => 0x94
  | ovvThresh => 0x98
  | err1Thresh => 0x9C
  | err2Thresh => 0xA0
  | igndThresh => 0xA4
  | ovc1Cntlim => 0xA8
  | ovc2Cntlim => 0xAC
  | ovvCntlim => 0xB0
  | err1Cntlim => 0xB4
  | err2Cntlim => 0xB8
  | igndCntlim => 0xBC
  | dcctCntlim => 0xC0
  | flt1Cntlim => 0xC4
  | flt2Cntlim => 0xC8
  | flt3Cntlim => 0xCC
  | onCntlim => 0xD0
  | faultClear => 0xD4
  | faultMask => 0xD8
  | heartbeatCntlim => 0xDC
  | digoutOn1 => 0xE0
  | digoutOn2 => 0xE4
  | digoutReset => 0xE8
  | digoutSpare => 0xEC
  | digoutPark => 0xF0
  | avemode => 0x100
  | smoothPhaseinc => 0x104
  | fofbFastaddr => 0x120
  | fofbScalefactor => 0x128

/-- The global registers that the commands use. -/
inductive GlobReg where
  | leds | resolution | evrInjEventnum | evrPmEventnum | evr1hzEventnum | evr10hzEventnum
  | evr10khzEventnum | evrReset | iocAccess | fofbIpaddr | softtrig | testtrig
  deriving DecidableEq

/-- `pl_regs.h`, global registers. -/
def GlobReg.addr : GlobReg → BitVec 32
  | leds => 0x4
  | resolution => 0x8
  | evrInjEventnum => 0x20
  | evrPmEventnum => 0x24
  | evr1hzEventnum => 0x28
  | evr10hzEventnum => 0x2C
  | evr10khzEventnum => 0x30
  | evrReset => 0x48
  | iocAccess => 0x50
  | fofbIpaddr => 0x60
  | softtrig => 0xA08
  | testtrig => 0xA0C

/-- `REG + chan*CHBASEADDR`. -/
def ChanReg.addr (reg : ChanReg) (chan : BitVec 32) : BitVec 32 := reg.offset + chan * 0x200

/-! ## The fabric's side -/

/-- `pl_regs.rdl`: the width of the field at an offset of a channel's block. All four blocks have
the same layout. -/
def chanFieldWidth : ℕ → ℕ
  | 0x28 => 20
  | 0x2C => 2
  | 0x30 => 8
  | 0x34 => 1
  | 0x38 => 16
  | 0x3C => 16
  | 0x40 => 20
  | 0x44 => 1
  | 0x48 => 1
  | 0x90 => 20
  | 0x94 => 20
  | 0x98 => 16
  | 0x9C => 16
  | 0xA0 => 16
  | 0xA4 => 16
  | 0xA8 => 16
  | 0xAC => 16
  | 0xB0 => 16
  | 0xB4 => 16
  | 0xB8 => 16
  | 0xBC => 16
  | 0xC0 => 16
  | 0xC4 => 16
  | 0xC8 => 16
  | 0xCC => 16
  | 0xD0 => 16
  | 0xD4 => 1
  | 0xD8 => 16
  | 0xDC => 16
  | 0xE0 => 1
  | 0xE4 => 1
  | 0xE8 => 1
  | 0xEC => 1
  | 0xF0 => 1
  | 0xF4 => 5
  | 0xF8 => 16
  | 0xFC => 16
  | 0x100 => 2
  | 0x108 => 1
  | 0x120 => 16
  | _ => 32

/-- `pl_regs.rdl`: the width of the field at an address outside the channels' blocks. -/
def globFieldWidth : ℕ → ℕ
  | 0x4 => 8
  | 0x8 => 8
  | 0xC => 8
  | 0x10 => 8
  | 0x14 => 8
  | 0x20 => 8
  | 0x24 => 8
  | 0x28 => 8
  | 0x2C => 8
  | 0x30 => 8
  | 0x48 => 8
  | 0x50 => 1
  | 0x54 => 1
  | 0xA08 => 8
  | 0xA0C => 16
  | _ => 32

/-- The width of the field at an address. -/
def fieldWidth (a : BitVec 32) : ℕ :=
  if 0x200 ≤ a.toNat ∧ a.toNat < 0xA00 then chanFieldWidth (a.toNat % 0x200)
  else globFieldWidth a.toNat

/-- What a field keeps of a word written to it. -/
def stored (a v : BitVec 32) : BitVec 32 := BitVec.ofNat 32 (v.toNat % 2 ^ fieldWidth a)

theorem toNat_stored {a : BitVec 32} {w : ℕ} (ha : fieldWidth a = w) (hw : w ≤ 32) (v : BitVec 32) :
    (stored a v).toNat = v.toNat % 2 ^ w := by
  have hlt : v.toNat % 2 ^ w < 2 ^ 32 :=
    (Nat.mod_lt _ (by positivity)).trans_le (Nat.pow_le_pow_right (by norm_num) hw)
  rw [stored, ha, BitVec.toNat_ofNat, Nat.mod_eq_of_lt hlt]

/-- The address of a register of a supply, as `pl_regs.rdl` lays them out. -/
def rdlAddr (ps : Ps) (offset : ℕ) : BitVec 32 := BitVec.ofNat 32 (0x200 * (ps.idx + 1) + offset)

/-- `ps_io.vhd`: the fault parameters of a supply. No line of it drives `dcct_cntlim`, so that field
is `undriven`, whatever the registers hold. -/
def psIo (regs : BitVec 32 → BitVec 32) (undriven : BitVec 16) (ps : Ps) : FaultParams where
  clear := (regs (rdlAddr ps 0xD4)).getLsbD 0
  enable := (regs (rdlAddr ps 0xD8)).setWidth 16
  ovc1Thresh := (regs (rdlAddr ps 0x90)).setWidth 20
  ovc2Thresh := (regs (rdlAddr ps 0x94)).setWidth 20
  ovvThresh := (regs (rdlAddr ps 0x98)).setWidth 16
  err1Thresh := (regs (rdlAddr ps 0x9C)).setWidth 16
  err2Thresh := (regs (rdlAddr ps 0xA0)).setWidth 16
  igndThresh := (regs (rdlAddr ps 0xA4)).setWidth 16
  ovc1Cntlim := (regs (rdlAddr ps 0xA8)).setWidth 16
  ovc2Cntlim := (regs (rdlAddr ps 0xAC)).setWidth 16
  ovvCntlim := (regs (rdlAddr ps 0xB0)).setWidth 16
  err1Cntlim := (regs (rdlAddr ps 0xB4)).setWidth 16
  err2Cntlim := (regs (rdlAddr ps 0xB8)).setWidth 16
  igndCntlim := (regs (rdlAddr ps 0xBC)).setWidth 16
  dcctCntlim := undriven
  flt1Cntlim := (regs (rdlAddr ps 0xC4)).setWidth 16
  flt2Cntlim := (regs (rdlAddr ps 0xC8)).setWidth 16
  flt3Cntlim := (regs (rdlAddr ps 0xCC)).setWidth 16
  onCntlim := (regs (rdlAddr ps 0xD0)).setWidth 16

/-- `ps_io.vhd`: the field `heart_cntlim`, which no live code reads. -/
def heartCntlim (regs : BitVec 32 → BitVec 32) (ps : Ps) : BitVec 16 :=
  (regs (rdlAddr ps 0xDC)).setWidth 16

/-! ## The device -/

/-- How a `float` is stored in a word: the number a word stands for, and the word of a number and of
an infinity. Floats are read as exact rationals. -/
structure FloatFormat where
  value : BitVec 32 → ℚ
  word : ℚ → BitVec 32
  inf : BitVec 32

/-- The number a single-precision word stands for, if it is finite. -/
def binary32Value (w : BitVec 32) : ℚ :=
  let mantissa : ℕ := (w.extractLsb' 0 23).toNat
  let exponent : ℕ := (w.extractLsb' 23 8).toNat
  let magnitude : ℕ :=
    if exponent = 0 then mantissa * 2 else (2 ^ 23 + mantissa) * 2 ^ exponent
  (if w.msb then -1 else 1) * magnitude / 2 ^ 150

/-- `ScaleFactorType`. -/
structure ScaleFactorType extends ScaleFactors where
  vout : ℚ
  ignd : ℚ
  spare : ℚ
  regulator : ℚ
  error : ℚ

/-- A write over the bus. -/
structure BusWrite where
  addr : BitVec 32
  data : BitVec 32
  deriving DecidableEq

/-- What a command can see and change: the registers, `scalefactors` by index, the factor
`CONVVOLTSTODACBITS`, the bytes of the flash, and the writes that have gone over the bus, oldest
first. -/
structure Device where
  regs : BitVec 32 → BitVec 32
  scalefactors : BitVec 32 → ScaleFactorType
  convVoltsToDacBits : ℚ
  flash : ℕ → BitVec 8
  bus : List BusWrite

namespace Device

variable (d : Device)

/-- `Xil_Out32`. -/
def xilOut32 (a v : BitVec 32) : Device :=
  { d with regs := Function.update d.regs a (stored a v), bus := d.bus ++ [⟨a, v⟩] }

/-- `Xil_Out32` to a register of a channel. -/
def outChan (reg : ChanReg) (chan v : BitVec 32) : Device := d.xilOut32 (reg.addr chan) v

/-- `Xil_Out32` to a global register. -/
def outGlob (reg : GlobReg) (v : BitVec 32) : Device := d.xilOut32 reg.addr v

/-- `Xil_In32` of a register of a channel. -/
def inChan (reg : ChanReg) (chan : BitVec 32) : BitVec 32 := d.regs (reg.addr chan)

/-- `scalefactors[chan-1]`. -/
def sf (chan : BitVec 32) : ScaleFactorType := d.scalefactors (chan - 1)

/-- An assignment to `scalefactors[chan-1]`. -/
def setSf (chan : BitVec 32) (sf : ScaleFactorType) : Device :=
  { d with scalefactors := Function.update d.scalefactors (chan - 1) sf }

theorem outChan_regs (reg : ChanReg) (chan v : BitVec 32) :
    (d.outChan reg chan v).regs (reg.addr chan) = stored (reg.addr chan) v :=
  Function.update_self ..

theorem xilOut32_regs_of_ne {a b : BitVec 32} (h : b ≠ a) (v : BitVec 32) :
    (d.xilOut32 a v).regs b = d.regs b :=
  Function.update_of_ne h ..

end Device

end Control

end Psc
