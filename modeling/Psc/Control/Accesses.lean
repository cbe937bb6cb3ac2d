import Psc.Control.RampUpload
import Psc.Lib.Program

/-!
# The commands access by access

`Settings` and `RampUpload` give what a command does as a function of the device. Here the same
commands are programs: each read and write of a register, of `scalefactors`, of the conversion
factor and of the flash is a step of its own, in the order of the source. `exec_chanSettings` and
`exec_writeRamptable`: run alone, the programs do what the functions say.

The sixty cases of `chan_settings` are of a few kinds (`ChanMsg.kind`), and there is one program for
each kind.
-/

namespace Psc.Control

open Program Program.Prog

/-- An access of a command: to a register over the bus, to an entry of `scalefactors`, to
`CONVVOLTSTODACBITS`, to the flash. -/
inductive Access where
  | in32 (a : BitVec 32)
  | out32 (a v : BitVec 32)
  | sf (i : BitVec 32)
  | setSf (i : BitVec 32) (sf : ScaleFactorType)
  | conv
  | flashErase (chan : BitVec 32)
  | flashWrite (chan : BitVec 32) (buf : Bytes)
  | flashRead (chan : BitVec 32)

/-- What an access returns. -/
def Access.Reply : Access → Type
  | in32 _ => BitVec 32
  | sf _ => ScaleFactorType
  | conv => ℚ
  | flashRead _ => Bytes
  | _ => Unit

/-- What an access does. The stack is what `QspiFlashRead` finds in its buffer. -/
def Access.perform (stack : Bytes) : (i : Access) → Device → i.Reply × Device
  | in32 a, d => (d.regs a, d)
  | out32 a v, d => ((), d.xilOut32 a v)
  | sf i, d => (d.scalefactors i, d)
  | setSf i x, d => ((), { d with scalefactors := Function.update d.scalefactors i x })
  | conv, d => (d.convVoltsToDacBits, d)
  | flashErase chan, d => ((), { d with flash := qspiFlashEraseSect chan d.flash })
  | flashWrite chan buf, d => ((), { d with flash := qspiFlashWrite chan buf d.flash })
  | flashRead chan, d => (qspiFlashRead stack chan d.flash, d)

/-- A command as a program. -/
abbrev Code (α : Type) : Type := Prog Access Access.Reply Trap α

/-- A command run alone. -/
def exec (stack : Bytes) (p : Code Unit) (d : Device) : Except Trap Device :=
  match run (Access.perform stack) p d with
  | (.ok _, d) => .ok d
  | (.error e, _) => .error e

/-! ## Kinds of cases -/

/-- The kinds of cases of `chan_settings`. A scaled value is scaled with `CONVVOLTSTODACBITS` or
with `CONVVOLTSTO16BITS`, and with one of the scale factors. -/
inductive Kind where
  | raw (reg : ChanReg)
  | gain (reg : ChanReg)
  | scaled (reg : ChanReg) (dac : Bool) (field : ScaleFactorType → ℚ)
  | clamped (reg : ChanReg) (field : ScaleFactorType → ℚ)
  | limit (reg : ChanReg)
  | factor (set : ScaleFactorType → ℚ → ScaleFactorType)
  | dacOpmode | dacSetpt | sfDacDccts | usrTrig | writeQspi | readQspi | dumpAdcs

def ChanMsg.kind : ChanMsg → Kind
  | dacOpmode => .dacOpmode
  | dacSetpt => .dacSetpt
  | dacRunramp => .raw .dacRunramp
  | dacRamplen => .raw .dacRamplen
  | dacSetptGain => .gain .dacSetptGain
  | dacSetptOffset => .scaled .dacSetptOffset true fun s => s.dacDccts
  | dcct1Gain => .gain .dcct1Gain
  | dcct1Offset => .scaled .dcct1Offset true fun s => s.dacDccts
  | dcct2Gain => .gain .dcct2Gain
  | dcct2Offset => .scaled .dcct2Offset true fun s => s.dacDccts
  | dacmonGain => .gain .dacmonGain
  | dacmonOffset => .scaled .dacmonOffset false fun s => s.dacDccts
  | voltGain => .gain .voltGain
  | voltOffset => .scaled .voltOffset false fun s => s.vout
  | gndGain => .gain .gndGain
  | gndOffset => .scaled .gndOffset false fun s => s.ignd
  | spareGain => .gain .spareGain
  | spareOffset => .scaled .spareOffset false fun s => s.spare
  | regGain => .gain .regGain
  | regOffset => .scaled .regOffset false fun s => s.regulator
  | errGain => .gain .errGain
  | errOffset => .scaled .errOffset false fun s => s.error
  | ovc1Thresh => .scaled .ovc1Thresh true fun s => s.dacDccts
  | ovc2Thresh => .scaled .ovc2Thresh true fun s => s.dacDccts
  | ovvThresh => .clamped .ovvThresh fun s => s.vout
  | err1Thresh => .clamped .err1Thresh fun s => s.error
  | err2Thresh => .clamped .err2Thresh fun s => s.error
  | igndThresh => .clamped .igndThresh fun s => s.error
  | ovc1Cntlim => .limit .ovc1Cntlim
  | ovc2Cntlim => .limit .ovc2Cntlim
  | ovvCntlim => .limit .ovvCntlim
  | err1Cntlim => .limit .err1Cntlim
  | err2Cntlim => .limit .err2Cntlim
  | igndCntlim => .limit .igndCntlim
  | dcctCntlim => .limit .dcctCntlim
  | flt1Cntlim => .limit .flt1Cntlim
  | flt2Cntlim => .limit .flt2Cntlim
  | flt3Cntlim => .limit .flt3Cntlim
  | onCntlim => .limit .onCntlim
  | heartCntlim => .limit .heartbeatCntlim
  | faultClear => .raw .faultClear
  | faultMask => .raw .faultMask
  | digoutOn1 => .raw .digoutOn1
  | digoutOn2 => .raw .digoutOn2
  | digoutReset => .raw .digoutReset
  | digoutSpare => .raw .digoutSpare
  | digoutPark => .raw .digoutPark
  | sfAmpsPerSec => .factor fun s x => { s with ampspersec := x }
  | sfDacDccts => .sfDacDccts
  | sfVout => .factor fun s x => { s with vout := x }
  | sfIgnd => .factor fun s x => { s with ignd := x }
  | sfSpare => .factor fun s x => { s with spare := x }
  | sfRegulator => .factor fun s x => { s with regulator := x }
  | sfError => .factor fun s x => { s with error := x }
  | fofbFastaddr => .raw .fofbFastaddr
  | usrTrig => .usrTrig
  | aveMode => .raw .avemode
  | writeQspi => .writeQspi
  | readQspi => .readQspi
  | dumpAdcs => .dumpAdcs

/-- The conversion that a scaled value goes through. -/
def Device.volts (d : Device) (dac : Bool) : ℚ :=
  if dac then d.convVoltsToDacBits else convVoltsTo16Bits

/-- The buffer of `QspiGatherData` with the given contents of the record. -/
def qspiRecord (fmt : FloatFormat) (stack : Bytes) (words : List (BitVec 32))
    (s : ScaleFactorType) : Bytes := fun n =>
  if 4 ≤ n ∧ n < 180 then
    ((words ++ [fmt.word s.ampspersec, fmt.word s.dacDccts, fmt.word s.vout, fmt.word s.ignd,
      fmt.word s.spare, fmt.word s.regulator, fmt.word s.error]).getD (n / 4 - 1) 0).extractLsb'
        (8 * (n % 4)) 8
  else stack n

section Kinds

variable (fmt : FloatFormat) (stack : Bytes)

/-- What a case of each kind does. -/
def Kind.apply (d : Device) (chan data : BitVec 32) : Kind → Except Trap Device
  | raw reg => .ok (d.outChan reg chan data)
  | gain reg => d.outGain reg chan (fmt.value data)
  | scaled reg dac field => d.outScaled reg chan (fmt.value data) (d.volts dac) (field (d.sf chan))
  | clamped reg field =>
    d.outClamped reg chan (fmt.value data) convVoltsTo16Bits (field (d.sf chan))
  | limit reg => d.outLimit reg chan (fmt.value data)
  | factor set => .ok (d.setSf chan (set (d.sf chan) (fmt.value data)))
  | dacOpmode => .ok (d.setDacOpmode chan fmt data)
  | dacSetpt => do
    let _ ← scaledVal (fmt.value data) d.convVoltsToDacBits (d.sf chan).dacDccts
    d.setDac chan (fmt.value data)
  | sfDacDccts =>
    let d := d.setSf chan { d.sf chan with dacDccts := fmt.value data }
    .ok (d.outChan .fofbScalefactor chan (d.fofbScale fmt (fmt.value data)))
  | usrTrig => .ok (if data = 1 then d.softTrig ((1 : BitVec 32) <<< (chan - 1)) else d)
  | writeQspi => .ok (if data = 1 then Control.writeQspi fmt stack d chan else d)
  | readQspi => .ok (if data = 1 then Control.readQspi fmt stack d chan else d)
  | dumpAdcs => .ok d

theorem chanCase_kind (d : Device) (chan data : BitVec 32) (msg : ChanMsg) :
    chanCase fmt stack d chan data msg = msg.kind.apply fmt stack d chan data := by
  cases msg <;> rfl

end Kinds

/-! ## The programs -/

namespace Code

/-- `Xil_In32`. -/
def in32 (a : BitVec 32) : Code (BitVec 32) := access (Access.in32 a)

/-- `Xil_In32` of a register of a channel. -/
def inChan (reg : ChanReg) (chan : BitVec 32) : Code (BitVec 32) := in32 (reg.addr chan)

/-- `Xil_Out32` to a register of a channel. -/
def outChan (reg : ChanReg) (chan v : BitVec 32) : Code Unit :=
  access (Access.out32 (reg.addr chan) v)

/-- `Xil_Out32` to a global register. -/
def outGlob (reg : GlobReg) (v : BitVec 32) : Code Unit := access (Access.out32 reg.addr v)

/-- `scalefactors[chan-1]`. -/
def sf (chan : BitVec 32) : Code ScaleFactorType := access (Access.sf (chan - 1))

/-- An assignment to members of `scalefactors[chan-1]`. -/
def setSf (chan : BitVec 32) (f : ScaleFactorType → ScaleFactorType) : Code Unit := do
  let s ← sf chan
  access (Access.setSf (chan - 1) (f s))

/-- `CONVVOLTSTODACBITS`. -/
def conv : Code ℚ := access Access.conv

/-- `CONVVOLTSTODACBITS` or `CONVVOLTSTO16BITS`. -/
def volts (dac : Bool) : Code ℚ := if dac then conv else pure convVoltsTo16Bits

/-- `scaled_val`. -/
def scaledVal (x : ℚ) (dac : Bool) (chan : BitVec 32) (field : ScaleFactorType → ℚ) :
    Code (BitVec 32) := do
  let conv ← volts dac
  let s ← sf chan
  ofExcept (Control.scaledVal x conv (field s))

/-- `soft_trig`. -/
def softTrig (msgVal : BitVec 32) : Code Unit := do
  outGlob .softtrig msgVal
  outGlob .softtrig 0

/-- The word of `1 / x * CONVVOLTSTODACBITS`. -/
def fofbScale (fmt : FloatFormat) (x : ℚ) : Code (BitVec 32) := do
  let conv ← conv
  return if x = 0 then fmt.inf else fmt.word (1 / x * conv)

/-- `Set_dacOpmode`. -/
def setDacOpmode (fmt : FloatFormat) (chan newOpmode : BitVec 32) : Code Unit :=
  if newOpmode = 3 then outChan .dacOpmode chan 3
  else if newOpmode = 2 then do
    let s ← sf chan
    let scale ← fofbScale fmt s.dacDccts
    outChan .fofbScalefactor chan scale
    outChan .dacOpmode chan 2
  else if newOpmode = 0 ∨ newOpmode = 1 then outChan .dacOpmode chan newOpmode
  else pure ()

/-- `Calc_WriteSmooth`. -/
def calcWriteSmooth (chan newSetpt : BitVec 32) : Code Unit := do
  let curSetpt ← inChan .dacCurrsetpt chan
  let s ← sf chan
  let conv ← conv
  let n ← ofExcept (numSamples s.toScaleFactors conv curSetpt newSetpt)
  let inc ← ofExcept (phaseIncOf n)
  outChan .smoothPhaseinc chan (BitVec.ofNat 32 inc)
  outChan .dacSetpt chan newSetpt

/-- `Set_dac`. -/
def setDac (chan : BitVec 32) (newSetptAmps : ℚ) : Code Unit := do
  let dacMode ← inChan .dacOpmode chan
  let s ← sf chan
  let amps :=
    if 99999 / 10000 * s.dacDccts < newSetptAmps then 99999 / 10000 * s.dacDccts
    else if newSetptAmps < -10 * s.dacDccts then -10 * s.dacDccts
    else newSetptAmps
  let conv ← conv
  let newSetpt ← ofExcept (toS32 (amps * conv / s.dacDccts))
  if dacMode.setWidth 2 = (0 : BitVec 2) then calcWriteSmooth chan newSetpt
  else if dacMode.setWidth 2 = (3 : BitVec 2) then outChan .dacSetpt chan newSetpt
  else pure ()

/-- `QspiFlashEraseSect`. -/
def flashErase (chan : BitVec 32) : Code Unit := access (Access.flashErase chan)

/-- `QspiFlashWrite`. -/
def flashWrite (chan : BitVec 32) (buf : Bytes) : Code Unit := access (Access.flashWrite chan buf)

/-- `QspiFlashRead`. -/
def flashRead (chan : BitVec 32) : Code Bytes := access (Access.flashRead chan)

/-- `QspiDisperseData`. -/
def qspiDisperseData (fmt : FloatFormat) (chan : BitVec 32) (buf : Bytes) : Code Unit := do
  qspiRegs.zipIdx.forM fun r => outChan r.1 chan (wordAt buf (r.2 + 1))
  setSf chan fun _ =>
    { ampspersec := fmt.value (wordAt buf 38)
      dacDccts := fmt.value (wordAt buf 39)
      vout := fmt.value (wordAt buf 40)
      ignd := fmt.value (wordAt buf 41)
      spare := fmt.value (wordAt buf 42)
      regulator := fmt.value (wordAt buf 43)
      error := fmt.value (wordAt buf 44) }

/-- The registers of `QspiGatherData`, one after another. -/
def readRegs (chan : BitVec 32) : List ChanReg → Code (List (BitVec 32))
  | [] => pure []
  | reg :: regs => do
    let v ← inChan reg chan
    let vs ← readRegs chan regs
    return v :: vs

/-- `QspiGatherData`. -/
def qspiGatherData (fmt : FloatFormat) (stack : Bytes) (chan : BitVec 32) : Code Bytes := do
  let words ← readRegs chan qspiRegs
  let s ← sf chan
  return qspiRecord fmt stack words s

/-- The case `READ_QSPI_MSG`. -/
def readQspi (fmt : FloatFormat) (chan : BitVec 32) : Code Unit := do
  let buf ← flashRead chan
  qspiDisperseData fmt chan buf

/-- The case `WRITE_QSPI_MSG`. -/
def writeQspi (fmt : FloatFormat) (stack : Bytes) (chan : BitVec 32) : Code Unit := do
  flashErase chan
  let buf ← qspiGatherData fmt stack chan
  flashWrite chan buf
  readQspi fmt chan

/-- `dump_adcs`: what it reads to print it. -/
def dumpAdcs (chan : BitVec 32) : Code Unit := do
  let _ ← inChan .avemode chan
  [0x00, 0x04, 0x08, 0x0C, 0x10, 0x14, 0x18, 0x1C].forM fun offset => do
    let _ ← in32 (offset + chan * 0x200)
    let _ ← sf chan
  let _ ← inChan .dacCurrsetpt chan
  let _ ← inChan .dacCurrsetpt chan
  let _ ← sf chan

/-- The program of each kind of case. -/
def kind (fmt : FloatFormat) (stack : Bytes) (chan data : BitVec 32) : Kind → Code Unit
  | .raw reg => outChan reg chan data
  | .gain reg => do
    let gain ← ofExcept (toU32 (fmt.value data * gain20BitFract))
    outChan reg chan (BitVec.ofNat 32 gain)
  | .scaled reg dac field => do
    let scaled ← scaledVal (fmt.value data) dac chan field
    outChan reg chan scaled
  | .clamped reg field => do
    let scaled ← scaledVal (fmt.value data) false chan field
    outChan reg chan (if (32767 : BitVec 32).sle scaled then 32767 else scaled)
  | .limit reg => do
    let scaled ← ofExcept (toS32 (fmt.value data * sampleRate))
    outChan reg chan scaled
  | .factor set => setSf chan fun s => set s (fmt.value data)
  | .dacOpmode => setDacOpmode fmt chan data
  | .dacSetpt => do
    let _ ← scaledVal (fmt.value data) true chan fun s => s.dacDccts
    setDac chan (fmt.value data)
  | .sfDacDccts => do
    setSf chan fun s => { s with dacDccts := fmt.value data }
    let scale ← fofbScale fmt (fmt.value data)
    outChan .fofbScalefactor chan scale
  | .usrTrig => if data = 1 then softTrig ((1 : BitVec 32) <<< (chan - 1)) else pure ()
  | .writeQspi => if data = 1 then writeQspi fmt stack chan else pure ()
  | .readQspi => if data = 1 then readQspi fmt chan else pure ()
  | .dumpAdcs => dumpAdcs chan

/-- `chan_settings`, given the two words it reads from the message. -/
def chanSettings (fmt : FloatFormat) (stack : Bytes) (chan addr data : BitVec 32) : Code Unit :=
  match ChanMsg.ofCode addr.toNat with
  | some msg => kind fmt stack chan data msg.kind
  | none => pure ()

/-- One pass of the loop of `write_ramptable`. -/
def writePoint (fmt : FloatFormat) (chan : BitVec 32) (msg : Bytes) (pscResolution : BitVec 32)
    (i : ℕ) : Code Unit := do
  let scaled ← scaledVal (fmt.value (msgWord msg i)) true chan fun s => s.dacDccts
  outChan .dacRampaddr chan (BitVec.ofNat 32 i)
  outChan .dacRampdata chan (rampClamp pscResolution scaled)

/-- `write_ramptable`. -/
def writeRamptable (fmt : FloatFormat) (chan : BitVec 32) (msg : Bytes) (msglen : ℕ) : Code Unit :=
  let rampLen := msglen / 4
  if 50000 < rampLen then pure ()
  else do
    outChan .dacRamplen chan (BitVec.ofNat 32 rampLen)
    let pscResolution ← in32 GlobReg.resolution.addr
    let _ ← sf chan
    let _ ← conv
    (List.range rampLen).forM (writePoint fmt chan msg pscResolution)

end Code

/-! ## The programs do what the functions say -/

section Refines

variable (fmt : FloatFormat) (stack : Bytes) (d : Device) (chan : BitVec 32)

theorem exec_bind {α : Type} (p : Code α) (f : α → Code Unit) :
    exec stack (p >>= f) d =
      match run (Access.perform stack) p d with
      | (.ok a, d) => exec stack (f a) d
      | (.error e, _) => .error e := by
  unfold exec
  rw [run_bind]
  rcases run (Access.perform stack) p d with ⟨⟨⟩ | ⟨⟩, d'⟩ <;> rfl

@[simp] theorem run_sf :
    run (Access.perform stack) (Code.sf chan) d = (.ok (d.sf chan), d) := rfl

@[simp] theorem run_conv :
    run (Access.perform stack) Code.conv d = (.ok d.convVoltsToDacBits, d) := rfl

@[simp] theorem run_inChan (reg : ChanReg) :
    run (Access.perform stack) (Code.inChan reg chan) d = (.ok (d.inChan reg chan), d) := rfl

@[simp] theorem run_outChan (reg : ChanReg) (v : BitVec 32) :
    run (Access.perform stack) (Code.outChan reg chan v) d = (.ok (), d.outChan reg chan v) := rfl

@[simp] theorem run_flashErase :
    run (Access.perform stack) (Code.flashErase chan) d =
      (.ok (), { d with flash := qspiFlashEraseSect chan d.flash }) := rfl

@[simp] theorem run_flashWrite (buf : Bytes) :
    run (Access.perform stack) (Code.flashWrite chan buf) d =
      (.ok (), { d with flash := qspiFlashWrite chan buf d.flash }) := rfl

@[simp] theorem run_ofExcept {α : Type} (x : Except Trap α) :
    run (Access.perform stack) (ofExcept x : Code α) d = (x, d) := by
  cases x <;> rfl

@[simp] theorem run_scaledVal (x : ℚ) (dac : Bool) (field : ScaleFactorType → ℚ) :
    run (Access.perform stack) (Code.scaledVal x dac chan field) d =
      (scaledVal x (d.volts dac) (field (d.sf chan)), d) := by
  cases dac
  · exact run_ofExcept stack d _
  · exact run_ofExcept stack d _

theorem run_outChans {α : Type} (l : List α) (reg : α → ChanReg) (v : α → BitVec 32) :
    run (Access.perform stack) (l.forM fun r => Code.outChan (reg r) chan (v r)) d =
      (.ok (), l.foldl (fun d r => d.outChan (reg r) chan (v r)) d) := by
  induction l generalizing d with
  | nil => rfl
  | cons r l ih => exact ih (d.outChan (reg r) chan (v r))

theorem run_readRegs (regs : List ChanReg) :
    run (Access.perform stack) (Code.readRegs chan regs) d =
      (.ok (regs.map fun reg => d.inChan reg chan), d) := by
  induction regs with
  | nil => rfl
  | cons reg regs ih =>
    show run (Access.perform stack) (Code.readRegs chan regs >>= _) d = _
    rw [run_bind, ih]
    rfl

theorem exec_qspiDisperseData (buf : Bytes) :
    exec stack (Code.qspiDisperseData fmt chan buf) d = .ok (qspiDisperseData fmt d chan buf) := by
  rw [Code.qspiDisperseData, exec_bind, run_outChans]
  rfl

theorem exec_readQspi :
    exec stack (Code.readQspi fmt chan) d = .ok (readQspi fmt stack d chan) :=
  exec_qspiDisperseData fmt stack d chan _

@[simp] theorem run_qspiGatherData :
    run (Access.perform stack) (Code.qspiGatherData fmt stack chan) d =
      (.ok (qspiGatherData fmt stack d chan), d) := by
  rw [Code.qspiGatherData, run_bind, run_readRegs]
  rfl

theorem qspiGatherData_flash (flash : ℕ → BitVec 8) :
    qspiGatherData fmt stack { d with flash := flash } chan = qspiGatherData fmt stack d chan := rfl

theorem exec_writeQspi :
    exec stack (Code.writeQspi fmt stack chan) d = .ok (writeQspi fmt stack d chan) := by
  simp only [Code.writeQspi, exec_bind, run_flashErase, run_qspiGatherData, run_flashWrite,
    exec_readQspi]
  rw [qspiGatherData_flash, writeQspi]

theorem exec_calcWriteSmooth (newSetpt : BitVec 32) :
    exec stack (Code.calcWriteSmooth chan newSetpt) d =
      (calcWriteSmooth (d.sf chan).toScaleFactors d.convVoltsToDacBits (d.inChan .dacCurrsetpt chan)
        newSetpt).map
        fun writes => writes.foldl (fun d w => d.outChan (Device.chanReg w.reg) chan w.data) d := by
  unfold Code.calcWriteSmooth calcWriteSmooth
  show exec stack (ofExcept (numSamples (d.sf chan).toScaleFactors d.convVoltsToDacBits
    (d.inChan .dacCurrsetpt chan) newSetpt) >>= _) d = _
  rw [exec_bind, run_ofExcept]
  cases numSamples (d.sf chan).toScaleFactors d.convVoltsToDacBits
    (d.inChan .dacCurrsetpt chan) newSetpt with
  | error e => rfl
  | ok n =>
    show exec stack (ofExcept (phaseIncOf n) >>= _) d = _
    rw [exec_bind, run_ofExcept]
    show _ = (phaseIncOf n >>= _).map _
    cases phaseIncOf n <;> rfl

theorem exec_setDac (amps : ℚ) : exec stack (Code.setDac chan amps) d = d.setDac chan amps := by
  simp only [Code.setDac, exec_bind, run_inChan, run_sf, run_conv, run_ofExcept]
  unfold Device.setDac setDac
  simp only
  generalize toS32 _ = scaled
  cases scaled with
  | error e => rfl
  | ok newSetpt =>
    simp only [Bind.bind, Except.bind]
    split_ifs with h0 h3
    · rw [exec_calcWriteSmooth]
      cases calcWriteSmooth (d.sf chan).toScaleFactors d.convVoltsToDacBits
        (d.inChan .dacCurrsetpt chan) newSetpt <;> rfl
    · rfl
    · rfl

theorem exec_kind (data : BitVec 32) (k : Kind) :
    exec stack (Code.kind fmt stack chan data k) d = k.apply fmt stack d chan data := by
  cases k with
  | raw reg => rfl
  | gain reg =>
    rw [Code.kind, exec_bind, run_ofExcept, Kind.apply, Device.outGain]
    cases toU32 (fmt.value data * gain20BitFract) <;> rfl
  | scaled reg dac field =>
    rw [Code.kind, exec_bind, run_scaledVal, Kind.apply, Device.outScaled]
    cases scaledVal (fmt.value data) (d.volts dac) (field (d.sf chan)) <;> rfl
  | clamped reg field =>
    rw [Code.kind, exec_bind, run_scaledVal, Kind.apply, Device.outClamped]
    show _ = (scaledVal (fmt.value data) (d.volts false) (field (d.sf chan)) >>= _)
    cases scaledVal (fmt.value data) (d.volts false) (field (d.sf chan)) <;> rfl
  | limit reg =>
    rw [Code.kind, exec_bind, run_ofExcept, Kind.apply, Device.outLimit]
    cases toS32 (fmt.value data * sampleRate) <;> rfl
  | factor set => rfl
  | dacOpmode =>
    show exec stack (Code.setDacOpmode fmt chan data) d = .ok (d.setDacOpmode chan fmt data)
    unfold Code.setDacOpmode Device.setDacOpmode
    split_ifs <;> rfl
  | dacSetpt =>
    rw [Code.kind, exec_bind, run_scaledVal, Kind.apply]
    show _ = (scaledVal (fmt.value data) (d.volts true) (d.sf chan).dacDccts >>= _)
    cases scaledVal (fmt.value data) (d.volts true) (d.sf chan).dacDccts with
    | error e => rfl
    | ok v => exact exec_setDac stack d chan (fmt.value data)
  | sfDacDccts => rfl
  | usrTrig =>
    simp only [Code.kind, Kind.apply]
    split_ifs <;> rfl
  | writeQspi =>
    simp only [Code.kind, Kind.apply]
    split_ifs
    · exact exec_writeQspi fmt stack d chan
    · rfl
  | readQspi =>
    simp only [Code.kind, Kind.apply]
    split_ifs
    · exact exec_readQspi fmt stack d chan
    · rfl
  | dumpAdcs => rfl

/-- **`chan_settings`, access by access.** -/
theorem exec_chanSettings (addr data : BitVec 32) :
    exec stack (Code.chanSettings fmt stack chan addr data) d =
      chanSettings fmt stack d chan addr data := by
  unfold Code.chanSettings chanSettings
  cases ChanMsg.ofCode addr.toNat with
  | none => rfl
  | some msg =>
    show exec stack (Code.kind fmt stack chan data msg.kind) d = chanCase fmt stack d chan data msg
    rw [exec_kind, chanCase_kind]

theorem exec_writePoints (msg : Bytes) (res : BitVec 32) (l : List ℕ) :
    exec stack (l.forM (Code.writePoint fmt chan msg res)) d =
      l.foldlM (writePoint fmt chan msg res) d := by
  induction l generalizing d with
  | nil => rfl
  | cons i l ih =>
    show exec stack (Code.writePoint fmt chan msg res i >>= fun _ => _) d = _
    rw [exec_bind, List.foldlM_cons, Code.writePoint, run_bind, run_scaledVal, writePoint]
    show _ =
      ((scaledVal (fmt.value (msgWord msg i)) (d.volts true) (d.sf chan).dacDccts >>= _) >>= _)
    cases scaledVal (fmt.value (msgWord msg i)) (d.volts true) (d.sf chan).dacDccts with
    | error e => rfl
    | ok v => exact ih _

/-- **`write_ramptable`, access by access.** -/
theorem exec_writeRamptable (msg : Bytes) (msglen : ℕ) :
    exec stack (Code.writeRamptable fmt chan msg msglen) d =
      writeRamptable fmt d chan msg msglen := by
  unfold Code.writeRamptable writeRamptable
  simp only
  split_ifs
  · rfl
  · exact exec_writePoints fmt stack _ chan msg _ _

end Refines

/-! ## What a command touches -/

/-- What a command may do: write registers of its channel, read the channel's scale factors and
change them, fire the software trigger, change the channel's sector of the flash. -/
structure Rights where
  writes : ChanReg → Prop
  reads : Prop
  scales : Prop
  triggers : Prop
  saves : Prop

/-- The accesses of a command to a channel that has the rights. -/
def Footprint (chan : BitVec 32) (r : Rights) : Access → Prop
  | .in32 _ | .conv => True
  | .out32 a _ => (∃ reg, r.writes reg ∧ a = reg.addr chan) ∨ a = GlobReg.softtrig.addr ∧ r.triggers
  | .sf i => i = chan - 1 ∧ r.reads
  | .setSf i _ => i = chan - 1 ∧ r.scales
  | .flashErase c | .flashWrite c _ => c = chan ∧ r.saves
  | .flashRead c => c = chan

/-- The rights that each kind of case makes use of. -/
def Kind.rights (data : BitVec 32) : Kind → Rights
  | raw reg | gain reg | limit reg => ⟨fun x => x = reg, False, False, False, False⟩
  | scaled reg _ _ | clamped reg _ => ⟨fun x => x = reg, True, False, False, False⟩
  | factor _ => ⟨fun _ => False, True, True, False, False⟩
  | dacOpmode => ⟨fun x => x = .dacOpmode ∨ x = .fofbScalefactor ∧ data = 2, data = 2, False, False,
      False⟩
  | dacSetpt => ⟨fun x => x = .smoothPhaseinc ∨ x = .dacSetpt, True, False, False, False⟩
  | sfDacDccts => ⟨fun x => x = .fofbScalefactor, True, True, False, False⟩
  | usrTrig => ⟨fun _ => False, False, False, data = 1, False⟩
  | writeQspi => ⟨fun x => x ∈ qspiRegs ∧ data = 1, data = 1, data = 1, False, data = 1⟩
  | readQspi => ⟨fun x => x ∈ qspiRegs ∧ data = 1, data = 1, data = 1, False, False⟩
  | dumpAdcs => ⟨fun _ => False, True, False, False, False⟩

/-- The rights of `chan_settings`. -/
def settingRights (addr data : BitVec 32) : Rights :=
  match ChanMsg.ofCode addr.toNat with
  | some msg => msg.kind.rights data
  | none => ⟨fun _ => False, False, False, False, False⟩

section Touches

variable (fmt : FloatFormat) (stack : Bytes) (chan : BitVec 32) {data : BitVec 32} {r : Rights}

theorem footprint_outChan {reg : ChanReg} (h : r.writes reg) (v : BitVec 32) :
    (Code.outChan reg chan v).Every (Footprint chan r) :=
  ⟨.inl ⟨reg, h, rfl⟩, fun _ => trivial⟩

theorem footprint_sf (h : r.reads) : (Code.sf chan).Every (Footprint chan r) :=
  ⟨⟨rfl, h⟩, fun _ => trivial⟩

theorem footprint_setSf (hr : r.reads) (hs : r.scales) (f : ScaleFactorType → ScaleFactorType) :
    (Code.setSf chan f).Every (Footprint chan r) :=
  ⟨⟨rfl, hr⟩, fun _ => ⟨⟨rfl, hs⟩, fun _ => trivial⟩⟩

theorem footprint_conv : Code.conv.Every (Footprint chan r) := ⟨trivial, fun _ => trivial⟩

theorem footprint_inChan (reg : ChanReg) : (Code.inChan reg chan).Every (Footprint chan r) :=
  ⟨trivial, fun _ => trivial⟩

theorem footprint_scaledVal (h : r.reads) (x : ℚ) (dac : Bool) (field : ScaleFactorType → ℚ) :
    (Code.scaledVal x dac chan field).Every (Footprint chan r) := by
  have hvolts : (Code.volts dac).Every (Footprint chan r) := by
    cases dac
    · trivial
    · exact footprint_conv chan
  exact hvolts.bind fun _ => (footprint_sf chan h).bind fun _ => Every.ofExcept _

theorem footprint_fofbScale (x : ℚ) : (Code.fofbScale fmt x).Every (Footprint chan r) :=
  (footprint_conv chan).bind fun _ => trivial

theorem footprint_setDacOpmode (data : BitVec 32) :
    (Code.setDacOpmode fmt chan data).Every (Footprint chan (Kind.dacOpmode.rights data)) := by
  unfold Code.setDacOpmode
  split_ifs with h3 h2
  · exact footprint_outChan chan (Or.inl rfl) _
  · exact (footprint_sf chan h2).bind fun _ => (footprint_fofbScale fmt chan _).bind fun _ =>
      (footprint_outChan chan (Or.inr ⟨rfl, h2⟩) _).bind fun _ =>
        footprint_outChan chan (Or.inl rfl) _
  · exact footprint_outChan chan (Or.inl rfl) _
  · trivial

theorem footprint_setDac (amps : ℚ) :
    (Code.setDac chan amps).Every (Footprint chan (Kind.dacSetpt.rights data)) := by
  have hsmooth : ∀ v,
      (Code.calcWriteSmooth chan v).Every (Footprint chan (Kind.dacSetpt.rights data)) := fun v =>
    (footprint_inChan chan _).bind fun _ => (footprint_sf chan trivial).bind fun _ =>
      (footprint_conv chan).bind fun _ => (Every.ofExcept _).bind fun _ =>
        (Every.ofExcept _).bind fun _ => (footprint_outChan chan (Or.inl rfl) _).bind fun _ =>
          footprint_outChan chan (Or.inr rfl) _
  refine (footprint_inChan chan _).bind fun _ => (footprint_sf chan trivial).bind fun _ =>
    (footprint_conv chan).bind fun _ => (Every.ofExcept _).bind fun v => ?_
  split_ifs
  · exact hsmooth v
  · exact footprint_outChan chan (Or.inr rfl) v
  · trivial

theorem footprint_readQspi (hw : ∀ reg ∈ qspiRegs, r.writes reg) (hr : r.reads) (hs : r.scales) :
    (Code.readQspi fmt chan).Every (Footprint chan r) := by
  refine ⟨rfl, fun buf => ?_⟩
  show (Code.qspiDisperseData fmt chan buf).Every _
  refine Every.bind (Every.forM fun x hx => ?_) fun _ => footprint_setSf chan hr hs _
  exact footprint_outChan chan (hw x.1 (List.fst_mem_of_mem_zipIdx hx)) _

theorem footprint_readRegs (regs : List ChanReg) :
    (Code.readRegs chan regs).Every (Footprint chan r) := by
  induction regs with
  | nil => trivial
  | cons reg regs ih => exact (footprint_inChan chan reg).bind fun _ => ih.bind fun _ => trivial

theorem footprint_qspiGatherData (hr : r.reads) :
    (Code.qspiGatherData fmt stack chan).Every (Footprint chan r) :=
  (footprint_readRegs chan _).bind fun _ => (footprint_sf chan hr).bind fun _ => trivial

theorem footprint_dumpAdcs :
    (Code.dumpAdcs chan).Every (Footprint chan (Kind.dumpAdcs.rights data)) := by
  refine (footprint_inChan chan _).bind fun _ => (Every.forM fun offset _ => ?_).bind fun _ =>
    (footprint_inChan chan _).bind fun _ => (footprint_inChan chan _).bind fun _ =>
      (footprint_sf chan trivial).bind fun _ => trivial
  exact ⟨trivial, fun _ => (footprint_sf chan trivial).bind fun _ => trivial⟩

/-- A case makes use of the rights of its kind. -/
theorem footprint_kind (data : BitVec 32) (k : Kind) :
    (Code.kind fmt stack chan data k).Every (Footprint chan (k.rights data)) := by
  cases k with
  | raw reg => exact footprint_outChan chan rfl data
  | gain reg => exact (Every.ofExcept _).bind fun _ => footprint_outChan chan rfl _
  | scaled reg dac field =>
    exact (footprint_scaledVal chan trivial _ dac field).bind fun _ => footprint_outChan chan rfl _
  | clamped reg field =>
    exact (footprint_scaledVal chan trivial _ false field).bind fun _ =>
      footprint_outChan chan rfl _
  | limit reg => exact (Every.ofExcept _).bind fun _ => footprint_outChan chan rfl _
  | factor set => exact footprint_setSf chan trivial trivial _
  | dacOpmode => exact footprint_setDacOpmode fmt chan data
  | dacSetpt =>
    exact (footprint_scaledVal chan trivial _ true _).bind fun _ => footprint_setDac chan _
  | sfDacDccts =>
    exact (footprint_setSf chan trivial trivial _).bind fun _ =>
      (footprint_fofbScale fmt chan _).bind fun _ => footprint_outChan chan rfl _
  | usrTrig =>
    simp only [Code.kind]
    split_ifs with h1
    · exact ⟨.inr ⟨rfl, h1⟩, fun _ => ⟨.inr ⟨rfl, h1⟩, fun _ => trivial⟩⟩
    · trivial
  | writeQspi =>
    simp only [Code.kind]
    split_ifs with h1
    · exact ⟨⟨rfl, h1⟩, fun _ => (footprint_qspiGatherData fmt stack chan h1).bind fun _ =>
        ⟨⟨rfl, h1⟩, fun _ => footprint_readQspi fmt chan (fun _ hreg => ⟨hreg, h1⟩) h1 h1⟩⟩
    · trivial
  | readQspi =>
    simp only [Code.kind]
    split_ifs with h1
    · exact footprint_readQspi fmt chan (fun _ hreg => ⟨hreg, h1⟩) h1 h1
    · trivial
  | dumpAdcs => exact footprint_dumpAdcs chan

/-- **The footprint of a channel command.** -/
theorem footprint_chanSettings (addr data : BitVec 32) :
    (Code.chanSettings fmt stack chan addr data).Every
      (Footprint chan (settingRights addr data)) := by
  unfold Code.chanSettings settingRights
  cases ChanMsg.ofCode addr.toNat with
  | none => trivial
  | some msg => exact footprint_kind fmt stack chan data msg.kind

theorem settingRights_saves_iff (addr data : BitVec 32) :
    (settingRights addr data).saves ↔
      ChanMsg.ofCode addr.toNat = some .writeQspi ∧ data = 1 := by
  unfold settingRights
  cases ChanMsg.ofCode addr.toNat with
  | none => simp
  | some msg => cases msg <;> simp [ChanMsg.kind, Kind.rights]

/-- The rights of `write_ramptable`. -/
def rampRights : Rights :=
  ⟨fun x => x = .dacRamplen ∨ x = .dacRampaddr ∨ x = .dacRampdata, True, False, False, False⟩

theorem footprint_writeRamptable (msg : Bytes) (msglen : ℕ) :
    (Code.writeRamptable fmt chan msg msglen).Every (Footprint chan rampRights) := by
  have hpoint : ∀ res i, (Code.writePoint fmt chan msg res i).Every (Footprint chan rampRights) :=
    fun res i => (footprint_scaledVal chan trivial _ true _).bind fun _ =>
      (footprint_outChan chan (Or.inr (Or.inl rfl)) _).bind fun _ =>
        footprint_outChan chan (Or.inr (Or.inr rfl)) _
  unfold Code.writeRamptable
  simp only
  split_ifs
  · trivial
  · exact (footprint_outChan chan (Or.inl rfl) _).bind fun _ => ⟨trivial, fun res =>
      (footprint_sf chan trivial).bind fun _ => (footprint_conv chan).bind fun _ =>
        Every.forM fun i _ => hpoint res i⟩

theorem keeps_of_exec {A : Access → Prop} {I : Device → Prop} {p : Code Unit} (hp : p.Every A)
    (hkeeps : ∀ i d, A i → I d → I (i.perform stack d).2) {d d' : Device}
    (h : exec stack p d = .ok d') (hd : I d) : I d' := by
  have hrun := hp.run_keeps (h := Access.perform stack) hkeeps hd
  unfold exec at h
  rcases hr : run (Access.perform stack) p d with ⟨⟨⟩ | ⟨⟩, d₁⟩
  · rw [hr] at h
    cases h
  · rw [hr] at h hrun
    exact Except.ok.inj h ▸ hrun

variable {stack chan} {I : Device → Prop} {d d' : Device}

theorem chanSettings_keeps {addr data : BitVec 32}
    (hkeeps : ∀ i d, Footprint chan (settingRights addr data) i → I d → I (i.perform stack d).2)
    (h : chanSettings fmt stack d chan addr data = .ok d') (hd : I d) : I d' :=
  keeps_of_exec stack (footprint_chanSettings fmt stack chan addr data) hkeeps
    ((exec_chanSettings fmt stack d chan addr data).trans h) hd

theorem writeRamptable_keeps {msg : Bytes} {msglen : ℕ}
    (hkeeps : ∀ i d, Footprint chan rampRights i → I d → I (i.perform stack d).2)
    (h : writeRamptable fmt d chan msg msglen = .ok d') (hd : I d) : I d' :=
  keeps_of_exec stack (footprint_writeRamptable fmt chan msg msglen) hkeeps
    ((exec_writeRamptable fmt stack d chan msg msglen).trans h) hd

end Touches

end Psc.Control
