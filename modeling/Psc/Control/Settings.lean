import Psc.Control.Registers

/-!
# Settings commands

`control.c`: `glob_settings` and `chan_settings`, the two command tables of the controller, and the
part of `qspi_flash.c` that saves and restores the settings of a channel. A command is an address
and a word of data, read as an integer (`data.u`) or as a float (`data.f`).

Each case of the tables stands here under the name of its message. Most are one of a few kinds: a
raw word (`outChan`), a gain (`outGain`), a value scaled to bits (`outScaled`), the same with an
upper bound (`outClamped`), a delay in seconds (`outLimit`). What has no result in C is a `Trap`.
-/

namespace Psc.Control

/-! ## The messages -/

/-- The messages to a channel. -/
inductive ChanMsg where
  | dacOpmode | dacSetpt | dacRunramp | dacRamplen | dacSetptGain | dacSetptOffset
  | dcct1Offset | dcct1Gain | dcct2Offset | dcct2Gain | dacmonOffset | dacmonGain | voltOffset
  | voltGain | gndOffset | gndGain | spareOffset | spareGain | regOffset | regGain | errOffset
  | errGain
  | ovc1Thresh | ovc2Thresh | ovvThresh | err1Thresh | err2Thresh | igndThresh
  | ovc1Cntlim | ovc2Cntlim | ovvCntlim | err1Cntlim | err2Cntlim | igndCntlim | dcctCntlim
  | flt1Cntlim | flt2Cntlim | flt3Cntlim | onCntlim | heartCntlim
  | faultClear | faultMask
  | digoutOn1 | digoutOn2 | digoutReset | digoutSpare | digoutPark
  | sfAmpsPerSec | sfDacDccts | sfVout | sfIgnd | sfSpare | sfRegulator | sfError
  | fofbFastaddr | usrTrig | aveMode | writeQspi | readQspi | dumpAdcs
  deriving DecidableEq

/-- `control.h`, channel control message offsets. -/
def ChanMsg.ofCode : ℕ → Option ChanMsg
  | 100 => some .dacOpmode
  | 104 => some .dacSetpt
  | 108 => some .dacRunramp
  | 112 => some .dacRamplen
  | 116 => some .dacSetptGain
  | 120 => some .dacSetptOffset
  | 124 => some .dcct1Offset
  | 128 => some .dcct1Gain
  | 132 => some .dcct2Offset
  | 136 => some .dcct2Gain
  | 140 => some .dacmonOffset
  | 144 => some .dacmonGain
  | 148 => some .voltOffset
  | 152 => some .voltGain
  | 156 => some .gndOffset
  | 160 => some .gndGain
  | 164 => some .spareOffset
  | 168 => some .spareGain
  | 172 => some .regOffset
  | 176 => some .regGain
  | 180 => some .errOffset
  | 184 => some .errGain
  | 188 => some .ovc1Thresh
  | 192 => some .ovc2Thresh
  | 196 => some .ovvThresh
  | 200 => some .err1Thresh
  | 204 => some .err2Thresh
  | 208 => some .igndThresh
  | 212 => some .ovc1Cntlim
  | 216 => some .ovc2Cntlim
  | 220 => some .ovvCntlim
  | 224 => some .err1Cntlim
  | 228 => some .err2Cntlim
  | 232 => some .igndCntlim
  | 236 => some .dcctCntlim
  | 240 => some .flt1Cntlim
  | 244 => some .flt2Cntlim
  | 248 => some .flt3Cntlim
  | 252 => some .onCntlim
  | 256 => some .heartCntlim
  | 260 => some .faultClear
  | 264 => some .faultMask
  | 268 => some .digoutOn1
  | 272 => some .digoutOn2
  | 276 => some .digoutReset
  | 280 => some .digoutSpare
  | 284 => some .digoutPark
  | 300 => some .sfAmpsPerSec
  | 304 => some .sfDacDccts
  | 308 => some .sfVout
  | 312 => some .sfIgnd
  | 316 => some .sfSpare
  | 320 => some .sfRegulator
  | 324 => some .sfError
  | 330 => some .fofbFastaddr
  | 340 => some .usrTrig
  | 350 => some .aveMode
  | 400 => some .writeQspi
  | 404 => some .readQspi
  | 500 => some .dumpAdcs
  | _ => none

/-! ## Kinds of settings -/

/-- `CONVVOLTSTO16BITS`. -/
def convVoltsTo16Bits : ℚ := 32768 / 10

/-- `GAIN20BITFRACT`. -/
def gain20BitFract : ℚ := 1048575

/-- `scaled_val = x * conv / sf`. A division by zero gives an infinity or no number, which has no
integer. -/
def scaledVal (x conv sf : ℚ) : Except Trap (BitVec 32) :=
  if sf = 0 then .error .conversion else toS32 (x * conv / sf)

namespace Device

variable (d : Device) (reg : ChanReg) (chan : BitVec 32)

/-- A scaled value. -/
def outScaled (x conv sf : ℚ) : Except Trap Device := do
  let scaled ← scaledVal x conv sf
  return d.outChan reg chan scaled

/-- `if (scaled_val >= 32767) scaled_val = 32767`. -/
def outClamped (x conv sf : ℚ) : Except Trap Device := do
  let scaled ← scaledVal x conv sf
  return d.outChan reg chan (if (32767 : BitVec 32).sle scaled then 32767 else scaled)

/-- A gain: the product is converted to the `u32` that `Xil_Out32` takes. -/
def outGain (x : ℚ) : Except Trap Device := do
  let gain ← toU32 (x * gain20BitFract)
  return d.outChan reg chan (BitVec.ofNat 32 gain)

/-- A count limit, given in seconds. -/
def outLimit (x : ℚ) : Except Trap Device := do
  let scaled ← toS32 (x * sampleRate)
  return d.outChan reg chan scaled

/-- `soft_trig`. -/
def softTrig (msgVal : BitVec 32) : Device := (d.outGlob .softtrig msgVal).outGlob .softtrig 0

/-- The word of `1 / x * CONVVOLTSTODACBITS`. -/
def fofbScale (fmt : FloatFormat) (x : ℚ) : BitVec 32 :=
  if x = 0 then fmt.inf else fmt.word (1 / x * d.convVoltsToDacBits)

/-- `Set_dacOpmode`. -/
def setDacOpmode (fmt : FloatFormat) (newOpmode : BitVec 32) : Device :=
  if newOpmode = 3 then d.outChan .dacOpmode chan 3
  else if newOpmode = 2 then
    (d.outChan .fofbScalefactor chan (d.fofbScale fmt (d.sf chan).dacDccts)).outChan
      .dacOpmode chan 2
  else if newOpmode = 0 ∨ newOpmode = 1 then d.outChan .dacOpmode chan newOpmode
  else d

/-- The register of a setpoint command. -/
def chanReg : Reg → ChanReg
  | .dacSetpt => .dacSetpt
  | .dacOpmode => .dacOpmode
  | .smoothPhaseinc => .smoothPhaseinc

/-- `Set_dac` on the device: its mode and its setpoint are read back, and the writes made. -/
def setDac (amps : ℚ) : Except Trap Device := do
  let writes ← Control.setDac (d.sf chan).toScaleFactors d.convVoltsToDacBits
    ((d.inChan .dacOpmode chan).setWidth 2) (d.inChan .dacCurrsetpt chan) amps
  return writes.foldl (fun d w => d.outChan (chanReg w.reg) chan w.data) d

end Device

/-! ## The flash -/

/-- `QspiData_t` after the header and before the scale factors. -/
def qspiRegs : List ChanReg :=
  [.dacSetptOffset, .dacSetptGain, .dcct1Offset, .dcct1Gain, .dcct2Offset, .dcct2Gain,
    .dacmonOffset, .dacmonGain, .voltOffset, .voltGain, .gndOffset, .gndGain, .spareOffset,
    .spareGain, .regOffset, .regGain, .errOffset, .errGain, .ovc1Thresh, .ovc2Thresh, .ovvThresh,
    .err1Thresh, .err2Thresh, .igndThresh, .ovc1Cntlim, .ovc2Cntlim, .ovvCntlim, .err1Cntlim,
    .err2Cntlim, .igndCntlim, .dcctCntlim, .flt1Cntlim, .flt2Cntlim, .flt3Cntlim, .onCntlim,
    .heartbeatCntlim, .faultMask]

/-- The bytes of a buffer. -/
abbrev Bytes := ℕ → BitVec 8

/-- Word `k` of a buffer, low byte first. -/
def wordAt (buf : Bytes) (k : ℕ) : BitVec 32 :=
  buf (4 * k + 3) ++ buf (4 * k + 2) ++ buf (4 * k + 1) ++ buf (4 * k)

section Qspi

variable (fmt : FloatFormat) (stack : Bytes)

/-- The words of `QspiData_t` after the header. -/
def qspiWords (d : Device) (chan : BitVec 32) : List (BitVec 32) :=
  qspiRegs.map (fun reg => d.inChan reg chan) ++
    [fmt.word (d.sf chan).ampspersec, fmt.word (d.sf chan).dacDccts, fmt.word (d.sf chan).vout,
      fmt.word (d.sf chan).ignd, fmt.word (d.sf chan).spare, fmt.word (d.sf chan).regulator,
      fmt.word (d.sf chan).error]

/-- `QspiGatherData`: the header and what follows the record are whatever the stack holds. -/
def qspiGatherData (d : Device) (chan : BitVec 32) : Bytes := fun n =>
  if 4 ≤ n ∧ n < 180 then
    ((qspiWords fmt d chan).getD (n / 4 - 1) 0).extractLsb' (8 * (n % 4)) 8
  else stack n

/-- The flash address of a channel's sector: the command carries 24 bits of it. -/
def sectorAddr (chan : BitVec 32) : ℕ := (chan * 0x10000).toNat % 2 ^ 24

/-- `QspiFlashEraseSect`. -/
def qspiFlashEraseSect (chan : BitVec 32) (flash : Bytes) : Bytes := fun a =>
  if sectorAddr chan ≤ a ∧ a < sectorAddr chan + 0x10000 then 0xFF else flash a

/-- `QspiFlashWrite`: the first four bytes of the page buffer carry the command, the others are
programmed. -/
def qspiFlashWrite (chan : BitVec 32) (buf flash : Bytes) : Bytes := fun a =>
  if sectorAddr chan ≤ a ∧ a < sectorAddr chan + 252 then
    flash a &&& buf (a - sectorAddr chan + 4)
  else flash a

/-- `QspiFlashRead`: the first four bytes received are garbage. -/
def qspiFlashRead (chan : BitVec 32) (flash : Bytes) : Bytes := fun n =>
  if n < 4 then stack n else flash (sectorAddr chan + (n - 4))

/-- `QspiDisperseData`. -/
def qspiDisperseData (d : Device) (chan : BitVec 32) (buf : Bytes) : Device :=
  let d := qspiRegs.zipIdx.foldl (fun d r => d.outChan r.1 chan (wordAt buf (r.2 + 1))) d
  d.setSf chan
    { ampspersec := fmt.value (wordAt buf 38)
      dacDccts := fmt.value (wordAt buf 39)
      vout := fmt.value (wordAt buf 40)
      ignd := fmt.value (wordAt buf 41)
      spare := fmt.value (wordAt buf 42)
      regulator := fmt.value (wordAt buf 43)
      error := fmt.value (wordAt buf 44) }

/-- The case `READ_QSPI_MSG`. -/
def readQspi (d : Device) (chan : BitVec 32) : Device :=
  qspiDisperseData fmt d chan (qspiFlashRead stack chan d.flash)

/-- The case `WRITE_QSPI_MSG`: erase, program, and read back. -/
def writeQspi (d : Device) (chan : BitVec 32) : Device :=
  let flash := qspiFlashWrite chan (qspiGatherData fmt stack d chan)
    (qspiFlashEraseSect chan d.flash)
  readQspi fmt stack { d with flash := flash } chan

end Qspi

/-! ## The tables -/

section Tables

variable (fmt : FloatFormat) (stack : Bytes)

/-- One case of `chan_settings`. -/
def chanCase (d : Device) (chan data : BitVec 32) : ChanMsg → Except Trap Device
  | .dacOpmode => .ok (d.setDacOpmode chan fmt data)
  | .dacSetpt => do
    let _ ← scaledVal (fmt.value data) d.convVoltsToDacBits (d.sf chan).dacDccts
    d.setDac chan (fmt.value data)
  | .dacRamplen => .ok (d.outChan .dacRamplen chan data)
  | .dacRunramp => .ok (d.outChan .dacRunramp chan data)
  | .dacSetptGain => d.outGain .dacSetptGain chan (fmt.value data)
  | .dacSetptOffset =>
    d.outScaled .dacSetptOffset chan (fmt.value data) d.convVoltsToDacBits (d.sf chan).dacDccts
  | .dcct1Gain => d.outGain .dcct1Gain chan (fmt.value data)
  | .dcct1Offset =>
    d.outScaled .dcct1Offset chan (fmt.value data) d.convVoltsToDacBits (d.sf chan).dacDccts
  | .dcct2Gain => d.outGain .dcct2Gain chan (fmt.value data)
  | .dcct2Offset =>
    d.outScaled .dcct2Offset chan (fmt.value data) d.convVoltsToDacBits (d.sf chan).dacDccts
  | .dacmonGain => d.outGain .dacmonGain chan (fmt.value data)
  | .dacmonOffset =>
    d.outScaled .dacmonOffset chan (fmt.value data) convVoltsTo16Bits (d.sf chan).dacDccts
  | .voltGain => d.outGain .voltGain chan (fmt.value data)
  | .voltOffset => d.outScaled .voltOffset chan (fmt.value data) convVoltsTo16Bits (d.sf chan).vout
  | .gndGain => d.outGain .gndGain chan (fmt.value data)
  | .gndOffset => d.outScaled .gndOffset chan (fmt.value data) convVoltsTo16Bits (d.sf chan).ignd
  | .spareGain => d.outGain .spareGain chan (fmt.value data)
  | .spareOffset =>
    d.outScaled .spareOffset chan (fmt.value data) convVoltsTo16Bits (d.sf chan).spare
  | .regGain => d.outGain .regGain chan (fmt.value data)
  | .regOffset =>
    d.outScaled .regOffset chan (fmt.value data) convVoltsTo16Bits (d.sf chan).regulator
  | .errGain => d.outGain .errGain chan (fmt.value data)
  | .errOffset => d.outScaled .errOffset chan (fmt.value data) convVoltsTo16Bits (d.sf chan).error
  | .ovc1Thresh =>
    d.outScaled .ovc1Thresh chan (fmt.value data) d.convVoltsToDacBits (d.sf chan).dacDccts
  | .ovc2Thresh =>
    d.outScaled .ovc2Thresh chan (fmt.value data) d.convVoltsToDacBits (d.sf chan).dacDccts
  | .ovvThresh => d.outClamped .ovvThresh chan (fmt.value data) convVoltsTo16Bits (d.sf chan).vout
  | .err1Thresh =>
    d.outClamped .err1Thresh chan (fmt.value data) convVoltsTo16Bits (d.sf chan).error
  | .err2Thresh =>
    d.outClamped .err2Thresh chan (fmt.value data) convVoltsTo16Bits (d.sf chan).error
  -- the ground current is scaled with the factor of the loop error
  | .igndThresh =>
    d.outClamped .igndThresh chan (fmt.value data) convVoltsTo16Bits (d.sf chan).error
  | .ovc1Cntlim => d.outLimit .ovc1Cntlim chan (fmt.value data)
  | .ovc2Cntlim => d.outLimit .ovc2Cntlim chan (fmt.value data)
  | .ovvCntlim => d.outLimit .ovvCntlim chan (fmt.value data)
  | .err1Cntlim => d.outLimit .err1Cntlim chan (fmt.value data)
  | .err2Cntlim => d.outLimit .err2Cntlim chan (fmt.value data)
  | .igndCntlim => d.outLimit .igndCntlim chan (fmt.value data)
  | .dcctCntlim => d.outLimit .dcctCntlim chan (fmt.value data)
  | .flt1Cntlim => d.outLimit .flt1Cntlim chan (fmt.value data)
  | .flt2Cntlim => d.outLimit .flt2Cntlim chan (fmt.value data)
  | .flt3Cntlim => d.outLimit .flt3Cntlim chan (fmt.value data)
  | .onCntlim => d.outLimit .onCntlim chan (fmt.value data)
  | .heartCntlim => d.outLimit .heartbeatCntlim chan (fmt.value data)
  | .faultClear => .ok (d.outChan .faultClear chan data)
  | .faultMask => .ok (d.outChan .faultMask chan data)
  | .digoutOn1 => .ok (d.outChan .digoutOn1 chan data)
  | .digoutOn2 => .ok (d.outChan .digoutOn2 chan data)
  | .digoutReset => .ok (d.outChan .digoutReset chan data)
  | .digoutSpare => .ok (d.outChan .digoutSpare chan data)
  | .digoutPark => .ok (d.outChan .digoutPark chan data)
  | .sfAmpsPerSec => .ok (d.setSf chan { d.sf chan with ampspersec := fmt.value data })
  | .sfDacDccts =>
    let d := d.setSf chan { d.sf chan with dacDccts := fmt.value data }
    .ok (d.outChan .fofbScalefactor chan (d.fofbScale fmt (fmt.value data)))
  | .sfVout => .ok (d.setSf chan { d.sf chan with vout := fmt.value data })
  | .sfIgnd => .ok (d.setSf chan { d.sf chan with ignd := fmt.value data })
  | .sfSpare => .ok (d.setSf chan { d.sf chan with spare := fmt.value data })
  | .sfRegulator => .ok (d.setSf chan { d.sf chan with regulator := fmt.value data })
  | .sfError => .ok (d.setSf chan { d.sf chan with error := fmt.value data })
  | .fofbFastaddr => .ok (d.outChan .fofbFastaddr chan data)
  | .usrTrig => .ok (if data = 1 then d.softTrig ((1 : BitVec 32) <<< (chan - 1)) else d)
  | .aveMode => .ok (d.outChan .avemode chan data)
  | .writeQspi => .ok (if data = 1 then writeQspi fmt stack d chan else d)
  | .readQspi => .ok (if data = 1 then readQspi fmt stack d chan else d)
  -- printed only
  | .dumpAdcs => .ok d

/-- `chan_settings`, given the two words it reads from the message. -/
def chanSettings (d : Device) (chan addr data : BitVec 32) : Except Trap Device :=
  match ChanMsg.ofCode addr.toNat with
  | some msg => chanCase fmt stack d chan data msg
  | none => .ok d

/-- `glob_settings`, given the two words it reads from the message. -/
def globSettings (d : Device) (addr data : BitVec 32) : Device :=
  match addr.toNat with
  | 0 => d.softTrig data
  | 4 => (d.outGlob .testtrig data).outGlob .testtrig 0
  | 8 => d.outGlob .leds data
  | 16 => d.outGlob .evrReset (if data = 1 then 0xFF else 0)
  | 20 => d.outGlob .evrInjEventnum data
  | 24 => d.outGlob .evrPmEventnum data
  | 28 => d.outGlob .evr1hzEventnum data
  | 32 => d.outGlob .evr10hzEventnum data
  | 36 => d.outGlob .evr10khzEventnum data
  | 50 => d.outGlob .fofbIpaddr data
  | _ => d

end Tables

/-! ## What the stack holds

The page buffer of `chan_settings` is not initialised. What it held before goes to the flash, behind
the record, and nowhere else. -/

section Stack

variable (fmt : FloatFormat) (d : Device) (chan : BitVec 32)

/-- What a command shows on the bus: the registers, the scale factors and the writes. -/
def Device.seen (d : Device) :
    (BitVec 32 → BitVec 32) × (BitVec 32 → ScaleFactorType) × List BusWrite :=
  (d.regs, d.scalefactors, d.bus)

@[simp] theorem Device.seen_flash (flash : Bytes) : { d with flash := flash }.seen = d.seen := rfl

theorem length_qspiRegs : qspiRegs.length = 37 := rfl

theorem qspiDisperseData_congr {buf buf' : Bytes}
    (h : ∀ k, 1 ≤ k → k ≤ 44 → wordAt buf k = wordAt buf' k) :
    qspiDisperseData fmt d chan buf = qspiDisperseData fmt d chan buf' := by
  have hregs : qspiRegs.zipIdx.foldl (fun d r => d.outChan r.1 chan (wordAt buf (r.2 + 1))) d =
      qspiRegs.zipIdx.foldl (fun d r => d.outChan r.1 chan (wordAt buf' (r.2 + 1))) d := by
    refine List.foldl_ext _ _ d fun d' r hr => ?_
    have hlt := (List.mem_zipIdx hr).2.1
    rw [length_qspiRegs] at hlt
    rw [h (r.2 + 1) (by omega) (by omega)]
  simp only [qspiDisperseData, hregs, h 38 (by omega) (by omega), h 39 (by omega) (by omega),
    h 40 (by omega) (by omega), h 41 (by omega) (by omega), h 42 (by omega) (by omega),
    h 43 (by omega) (by omega), h 44 (by omega) (by omega)]

theorem qspiDisperseData_flash (flash buf : Bytes) :
    qspiDisperseData fmt { d with flash := flash } chan buf =
      { qspiDisperseData fmt d chan buf with flash := flash } := by
  have hregs : qspiRegs.zipIdx.foldl (fun d r => d.outChan r.1 chan (wordAt buf (r.2 + 1)))
      { d with flash := flash } =
      { qspiRegs.zipIdx.foldl (fun d r => d.outChan r.1 chan (wordAt buf (r.2 + 1))) d with
        flash := flash } :=
    List.foldl_hom (fun d : Device => { d with flash := flash }) fun _ _ => rfl
  simp only [qspiDisperseData, hregs]
  rfl

theorem wordAt_congr {buf buf' : Bytes} {k : ℕ}
    (h : ∀ n, 4 * k ≤ n → n < 4 * (k + 1) → buf n = buf' n) : wordAt buf k = wordAt buf' k := by
  unfold wordAt
  rw [h (4 * k) (by omega) (by omega), h (4 * k + 1) (by omega) (by omega),
    h (4 * k + 2) (by omega) (by omega), h (4 * k + 3) (by omega) (by omega)]

theorem readQspi_stack (stack stack' : Bytes) :
    readQspi fmt stack d chan = readQspi fmt stack' d chan := by
  refine qspiDisperseData_congr fmt d chan fun k hk _ => wordAt_congr fun n hn _ => ?_
  rw [qspiFlashRead, qspiFlashRead, if_neg (by omega), if_neg (by omega)]

theorem qspiFlashWrite_stack (stack stack' flash : Bytes) {n : ℕ} (h4 : 4 ≤ n) (hn : n < 180) :
    qspiFlashWrite chan (qspiGatherData fmt stack d chan) flash (sectorAddr chan + (n - 4)) =
      qspiFlashWrite chan (qspiGatherData fmt stack' d chan) flash (sectorAddr chan + (n - 4)) := by
  have hbuf : ∀ stack, qspiGatherData fmt stack d chan n =
      ((qspiWords fmt d chan).getD (n / 4 - 1) 0).extractLsb' (8 * (n % 4)) 8 :=
    fun _ => if_pos ⟨h4, hn⟩
  have hpage : sectorAddr chan ≤ sectorAddr chan + (n - 4) ∧
      sectorAddr chan + (n - 4) < sectorAddr chan + 252 := by omega
  have hoff : sectorAddr chan + (n - 4) - sectorAddr chan + 4 = n := by omega
  rw [qspiFlashWrite, qspiFlashWrite, if_pos hpage, if_pos hpage, hoff, hbuf, hbuf]

theorem seen_writeQspi (stack : Bytes) :
    (writeQspi fmt stack d chan).seen = (qspiDisperseData fmt d chan (qspiFlashRead stack chan
      (qspiFlashWrite chan (qspiGatherData fmt stack d chan)
        (qspiFlashEraseSect chan d.flash)))).seen := by
  unfold writeQspi readQspi
  rw [qspiDisperseData_flash, Device.seen_flash]

theorem seen_writeQspi_stack (stack stack' : Bytes) :
    (writeQspi fmt stack d chan).seen = (writeQspi fmt stack' d chan).seen := by
  have hread : ∀ k, 1 ≤ k → k ≤ 44 →
      wordAt (qspiFlashRead stack chan (qspiFlashWrite chan (qspiGatherData fmt stack d chan)
        (qspiFlashEraseSect chan d.flash))) k =
      wordAt (qspiFlashRead stack' chan (qspiFlashWrite chan (qspiGatherData fmt stack' d chan)
        (qspiFlashEraseSect chan d.flash))) k := by
    refine fun k hk hk' => wordAt_congr fun n hn hn' => ?_
    rw [qspiFlashRead, qspiFlashRead, if_neg (by omega), if_neg (by omega)]
    exact qspiFlashWrite_stack fmt d chan stack stack' _ (by omega) (by omega)
  rw [seen_writeQspi, seen_writeQspi, qspiDisperseData_congr fmt d chan hread]

theorem seen_chanSettings_stack (stack stack' : Bytes) (addr data : BitVec 32) :
    (chanSettings fmt stack d chan addr data).map Device.seen =
      (chanSettings fmt stack' d chan addr data).map Device.seen := by
  unfold chanSettings
  cases ChanMsg.ofCode addr.toNat with
  | none => rfl
  | some msg =>
    cases msg
    case writeQspi =>
      simp only [chanCase]
      split_ifs
      · exact congrArg Except.ok (seen_writeQspi_stack fmt d chan stack stack')
      · rfl
    case readQspi => simp only [chanCase, readQspi_stack fmt d chan stack stack']
    all_goals rfl

end Stack

end Psc.Control
