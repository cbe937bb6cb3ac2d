import Psc.Control.Binary32
import Psc.Control.Settings

/-!
# The hardware flavor

`i2c.c`: four bytes of an EEPROM tell how many channels the board has, the resolution of its DACs,
the bandwidth and the polarity. `ReadHardwareFlavor` turns them into four registers, two conversion
factors and, on a unipolar board, the pulse enables of the second digital output. It runs at start
(`boot`) and each time the console has changed one of the bytes (`Edit`).

`Flavor.read` is what a reading does to the configuration, and `flavor_history` what a history of
them leaves. A byte that is not valid leaves the conversion factors as they were, and a polarity
other than unipolar leaves the pulse enables.
-/

namespace Psc.Control

/-- The board: the device, the factor `CONVDACBITSTOVOLTS` and the bytes of the EEPROM. -/
structure Board extends Device where
  convDacBitsToVolts : ℚ
  eeprom : BitVec 8 → BitVec 8

/-! ## Reading the EEPROM -/

/-- The registers that a reading sets. -/
inductive FlavorReg where
  | numchans | resolution | bandwidth | polarity
  deriving DecidableEq

namespace FlavorReg

/-- `pl_regs.h`. -/
def addr : FlavorReg → BitVec 32
  | numchans => 0xC
  | resolution => 0x8
  | bandwidth => 0x10
  | polarity => 0x14

/-- The address of its byte in the EEPROM. -/
def byteAddr : FlavorReg → BitVec 8
  | numchans => 0x10
  | resolution => 0x11
  | bandwidth => 0x12
  | polarity => 0x13

end FlavorReg

/-- `DIGOUT_ON2_PULSEENB_REG + chan*CHBASEADDR`. -/
def on2Pulseenb (chan : BitVec 32) : BitVec 32 := 0x108 + chan * 0x200

/-- `CONVVOLTSTO18BITS`. -/
def convVoltsTo18Bits : ℚ := 131072 / 10

/-- `CONVVOLTSTO20BITS`. -/
def convVoltsTo20Bits : ℚ := 524288 / 10

section Read

variable (val : BitVec 8) (b : Board)

/-- `Xil_Out32`. -/
def Board.out (a v : BitVec 32) : Board := { b with toDevice := b.toDevice.xilOut32 a v }

/-- A byte that is 0 or 1 goes to its register, and 2 does if it is neither. -/
def outCode (reg : FlavorReg) : Board :=
  b.out reg.addr (if val = 0 then 0 else if val = 1 then 1 else 2)

/-- 2 or 4 channels. -/
def readNumchans : Board := outCode val b .numchans

/-- Resolution. -/
def readResolution : Board :=
  let b := b.out FlavorReg.resolution.addr (val.setWidth 32)
  if val = 0 then
    { b with
      convVoltsToDacBits := convVoltsTo18Bits
      convDacBitsToVolts := 1 / convVoltsTo18Bits }
  else if val = 1 then
    { b with
      convVoltsToDacBits := convVoltsTo20Bits
      convDacBitsToVolts := 1 / convVoltsTo20Bits }
  else b.out FlavorReg.resolution.addr 2

/-- Bandwidth. -/
def readBandwidth : Board := outCode val b .bandwidth

/-- Polarity. -/
def readPolarity : Board :=
  let b := outCode val b .polarity
  if val = 1 then
    (((b.out (on2Pulseenb 1) 1).out (on2Pulseenb 2) 1).out (on2Pulseenb 3) 1).out (on2Pulseenb 4) 1
  else b

end Read

/-- The four bytes of an EEPROM. -/
def flavorBytes (eeprom : BitVec 8 → BitVec 8) (reg : FlavorReg) : BitVec 8 := eeprom reg.byteAddr

/-- `ReadHardwareFlavor`. -/
def readHardwareFlavor (b : Board) : Board :=
  let rdBuf := flavorBytes b.eeprom
  let b := readNumchans (rdBuf .numchans) b
  let b := readResolution (rdBuf .resolution) b
  let b := readBandwidth (rdBuf .bandwidth) b
  readPolarity (rdBuf .polarity) b

/-! ## Console edits -/

/-- `get_binary_input`. -/
def getBinaryInput (c : Char) : BitVec 8 := if c = '0' then 0 else if c = '1' then 1 else -1

/-- `i2c_eeprom_writeBytes` of one byte. -/
def eepromWriteByte (b : Board) (a val : BitVec 8) : Board :=
  { b with eeprom := Function.update b.eeprom a val }

/-- A byte is set to the answer, unless that is invalid, and the flavor is read. -/
def setFlavor (reg : FlavorReg) (c : Char) (b : Board) : Board :=
  let val := getBinaryInput c
  readHardwareFlavor (if val ≠ -1 then eepromWriteByte b reg.byteAddr val else b)

/-- `set_numchans`. -/
def setNumchans : Char → Board → Board := setFlavor .numchans

/-- `set_resolution`. -/
def setResolution : Char → Board → Board := setFlavor .resolution

/-- `set_bandwidth`. -/
def setBandwidth : Char → Board → Board := setFlavor .bandwidth

/-- `set_polarity`. -/
def setPolarity : Char → Board → Board := setFlavor .polarity

/-- `clear_eeprom`. -/
def clearEeprom (input : String) (b : Board) : Board :=
  if input ≠ "yes" then b
  else (List.range 128).foldl (fun b i => eepromWriteByte b (BitVec.ofNat 8 i) 0xFF) b

/-- `test_eeprom`. -/
def testEeprom (input : String) (b : Board) : Board :=
  if input ≠ "yes" then b
  else (List.range 128).foldl
    (fun b i => eepromWriteByte b (BitVec.ofNat 8 (127 - i)) (BitVec.ofNat 8 i)) b

/-- The entries of the console's menu that change the EEPROM, with what is typed. -/
inductive Edit where
  | setNumchans (c : Char)
  | setResolution (c : Char)
  | setBandwidth (c : Char)
  | setPolarity (c : Char)
  | clearEeprom (input : String)
  | testEeprom (input : String)

/-- What an entry does. -/
def Edit.exec (b : Board) : Edit → Board
  | .setNumchans c => Control.setNumchans c b
  | .setResolution c => Control.setResolution c b
  | .setBandwidth c => Control.setBandwidth c b
  | .setPolarity c => Control.setPolarity c b
  | .clearEeprom input => Control.clearEeprom input b
  | .testEeprom input => Control.testEeprom input b

/-- An entry reads the flavor when it has set a byte. -/
def Edit.reads : Edit → Bool
  | .clearEeprom _ | .testEeprom _ => false
  | _ => true

/-! ## Start -/

section Boot

variable (fmt : FloatFormat) (stack : Bytes)

/-- `InitSettingsfromQspi`. -/
def initSettingsFromQspi (d : Device) : Device :=
  let d := (d.outGlob .evrInjEventnum 10).outGlob .evrPmEventnum 10
  [1, 2, 3, 4].foldl (fun d chan => readQspi fmt stack d chan) d

/-- The board at power-on: what the registers come up with, and cleared variables. -/
def powerOn (reset : BitVec 32 → BitVec 32) (flash : Bytes) (eeprom : BitVec 8 → BitVec 8) :
    Board where
  regs a := stored a (reset a)
  scalefactors _ := ⟨⟨0, 0⟩, 0, 0, 0, 0, 0⟩
  convVoltsToDacBits := 0
  flash := flash
  bus := []
  convDacBitsToVolts := 0
  eeprom := eeprom

/-- The register writes of `main`, with the reading of the flavor. -/
def mainInit (b : Board) : Board :=
  let b := b.out 0x18 427853
  let b := readHardwareFlavor b
  let b := (b.out GlobReg.evrReset.addr 0xFF).out GlobReg.evrReset.addr 0
  let b := b.out GlobReg.fofbIpaddr.addr 0x0A008E64
  [1, 2, 3, 4].foldl (fun b i => b.out (ChanReg.faultMask.addr i) 0x1FEF) b

/-- From power-on to the start of the server. -/
def boot (reset : BitVec 32 → BitVec 32) (flash : Bytes) (eeprom : BitVec 8 → BitVec 8) : Board :=
  let b := mainInit (powerOn reset flash eeprom)
  { b with toDevice := initSettingsFromQspi fmt stack b.toDevice }

end Boot

/-! ## The configuration -/

/-- The four registers, the pulse enables and the two conversion factors. -/
@[ext]
structure Flavor where
  codes : FlavorReg → BitVec 32
  pulseenb : Ps → BitVec 32
  convVoltsToDacBits : ℚ
  convDacBitsToVolts : ℚ

/-- The configuration of a board. -/
def Board.flavor (b : Board) : Flavor where
  codes reg := b.regs reg.addr
  pulseenb ps := b.regs (on2Pulseenb ps.chan)
  convVoltsToDacBits := b.convVoltsToDacBits
  convDacBitsToVolts := b.convDacBitsToVolts

/-- What a reading of four bytes does to a configuration. -/
def Flavor.read (f : Flavor) (bytes : FlavorReg → BitVec 8) : Flavor where
  codes reg := if bytes reg = 0 then 0 else if bytes reg = 1 then 1 else 2
  pulseenb := if bytes .polarity = 1 then fun _ => 1 else f.pulseenb
  convVoltsToDacBits :=
    if bytes .resolution = 0 then convVoltsTo18Bits
    else if bytes .resolution = 1 then convVoltsTo20Bits
    else f.convVoltsToDacBits
  convDacBitsToVolts :=
    if bytes .resolution = 0 then 1 / convVoltsTo18Bits
    else if bytes .resolution = 1 then 1 / convVoltsTo20Bits
    else f.convDacBitsToVolts

/-- The bytes that the readings of a history find, in order. -/
def readings (b : Board) : List Edit → List (FlavorReg → BitVec 8)
  | [] => []
  | e :: es =>
    if e.reads then flavorBytes (e.exec b).eeprom :: readings (e.exec b) es
    else readings (e.exec b) es

/-! ### Writes and the configuration -/

section Writes

variable (b : Board)

/-- The addresses of the configuration. -/
def flavorAddrs : List (BitVec 32) :=
  [FlavorReg.numchans.addr, FlavorReg.resolution.addr, FlavorReg.bandwidth.addr,
    FlavorReg.polarity.addr, on2Pulseenb 1, on2Pulseenb 2, on2Pulseenb 3, on2Pulseenb 4]

theorem mem_flavorAddrs_addr (reg : FlavorReg) : reg.addr ∈ flavorAddrs := by
  cases reg <;> decide

theorem mem_flavorAddrs_on2Pulseenb (ps : Ps) : on2Pulseenb ps.chan ∈ flavorAddrs := by
  cases ps <;> decide

theorem Board.flavor_congr {b b' : Board} (hregs : ∀ a ∈ flavorAddrs, b'.regs a = b.regs a)
    (hconv : b'.convVoltsToDacBits = b.convVoltsToDacBits)
    (hdac : b'.convDacBitsToVolts = b.convDacBitsToVolts) : b'.flavor = b.flavor :=
  Flavor.ext (funext fun reg => hregs _ (mem_flavorAddrs_addr reg))
    (funext fun ps => hregs _ (mem_flavorAddrs_on2Pulseenb ps)) hconv hdac

theorem Board.flavor_out_of_notMem {a : BitVec 32} (ha : a ∉ flavorAddrs) (v : BitVec 32) :
    (b.out a v).flavor = b.flavor :=
  flavor_congr (fun _ ha' => b.xilOut32_regs_of_ne (ne_of_mem_of_not_mem ha' ha) v) rfl rfl

theorem Board.flavor_out_addr (reg : FlavorReg) {v : BitVec 32} (hv : v.toNat < 2 ^ 8) :
    (b.out reg.addr v).flavor =
      { b.flavor with codes := Function.update b.flavor.codes reg v } := by
  have hstored : stored reg.addr v = v := by
    refine BitVec.eq_of_toNat_eq ?_
    rw [toNat_stored (w := 8) (by cases reg <;> decide) (by norm_num), Nat.mod_eq_of_lt hv]
  refine Flavor.ext (funext fun reg' => ?_) (funext fun ps => ?_) rfl rfl
  · show Function.update b.regs reg.addr (stored reg.addr v) reg'.addr =
      Function.update b.flavor.codes reg v reg'
    by_cases h : reg' = reg
    · rw [h, Function.update_self, Function.update_self, hstored]
    · have haddr : reg'.addr ≠ reg.addr := by
        cases reg <;> cases reg' <;> first | exact absurd rfl h | decide
      rw [Function.update_of_ne haddr, Function.update_of_ne h]
      rfl
  · have haddr : on2Pulseenb ps.chan ≠ reg.addr := by cases reg <;> cases ps <;> decide
    exact b.xilOut32_regs_of_ne haddr v

theorem Board.flavor_out_on2Pulseenb (ps : Ps) {chan : BitVec 32} (h : ps.chan = chan) :
    (b.out (on2Pulseenb chan) 1).flavor =
      { b.flavor with pulseenb := Function.update b.flavor.pulseenb ps 1 } := by
  subst h
  have hstored : stored (on2Pulseenb ps.chan) 1 = 1 := by cases ps <;> decide
  refine Flavor.ext (funext fun reg => ?_) (funext fun ps' => ?_) rfl rfl
  · have haddr : reg.addr ≠ on2Pulseenb ps.chan := by cases reg <;> cases ps <;> decide
    exact b.xilOut32_regs_of_ne haddr 1
  · generalize (1 : BitVec 32) = v at *
    show Function.update b.regs (on2Pulseenb ps.chan) (stored (on2Pulseenb ps.chan) v)
      (on2Pulseenb ps'.chan) = Function.update b.flavor.pulseenb ps v ps'
    by_cases h : ps' = ps
    · rw [h, Function.update_self, Function.update_self, hstored]
    · have haddr : on2Pulseenb ps'.chan ≠ on2Pulseenb ps.chan := by
        cases ps <;> cases ps' <;> first | exact absurd rfl h | decide
      rw [Function.update_of_ne haddr, Function.update_of_ne h]
      rfl

end Writes

/-! ### A reading -/

section Reading

variable (val : BitVec 8) (b : Board)

/-- The code of a byte. -/
def codeOf : BitVec 32 := if val = 0 then 0 else if val = 1 then 1 else 2

theorem codeOf_lt : (codeOf val).toNat < 2 ^ 8 := by
  unfold codeOf
  split_ifs <;> decide

theorem flavor_outCode (reg : FlavorReg) :
    (outCode val b reg).flavor =
      { b.flavor with codes := Function.update b.flavor.codes reg (codeOf val) } :=
  b.flavor_out_addr reg (codeOf_lt val)

theorem flavor_readResolution :
    (readResolution val b).flavor =
      { b.flavor with
        codes := Function.update b.flavor.codes .resolution (codeOf val)
        convVoltsToDacBits :=
          if val = 0 then convVoltsTo18Bits else if val = 1 then convVoltsTo20Bits
          else b.flavor.convVoltsToDacBits
        convDacBitsToVolts :=
          if val = 0 then 1 / convVoltsTo18Bits else if val = 1 then 1 / convVoltsTo20Bits
          else b.flavor.convDacBitsToVolts } := by
  have hval : (val.setWidth 32).toNat < 2 ^ 8 := by
    rw [BitVec.toNat_setWidth_of_le (by norm_num)]
    exact val.isLt
  have hout := b.flavor_out_addr .resolution hval
  unfold readResolution codeOf
  by_cases h0 : val = 0
  · subst h0
    exact congrArg (fun f : Flavor => { f with
      convVoltsToDacBits := convVoltsTo18Bits
      convDacBitsToVolts := 1 / convVoltsTo18Bits }) hout
  by_cases h1 : val = 1
  · subst h1
    exact congrArg (fun f : Flavor => { f with
      convVoltsToDacBits := convVoltsTo20Bits
      convDacBitsToVolts := 1 / convVoltsTo20Bits }) hout
  · simp only [h0, h1, if_false]
    rw [Board.flavor_out_addr _ _ (by decide), hout]
    simp only [Function.update_idem]

theorem flavor_readPolarity :
    (readPolarity val b).flavor =
      { b.flavor with
        codes := Function.update b.flavor.codes .polarity (codeOf val)
        pulseenb := if val = 1 then fun _ => 1 else b.flavor.pulseenb } := by
  have hcode := flavor_outCode val b .polarity
  unfold readPolarity
  by_cases h1 : val = 1
  · simp only [h1, if_true] at hcode ⊢
    rw [Board.flavor_out_on2Pulseenb _ .ps4 (show _ = 4 from rfl),
      Board.flavor_out_on2Pulseenb _ .ps3 (show _ = 3 from rfl),
      Board.flavor_out_on2Pulseenb _ .ps2 (show _ = 2 from rfl),
      Board.flavor_out_on2Pulseenb _ .ps1 (show _ = 1 from rfl), hcode]
    refine Flavor.ext rfl (funext fun ps => ?_) rfl rfl
    cases ps <;> rfl
  · simp only [h1, if_false]
    exact hcode

theorem flavor_readHardwareFlavor :
    (readHardwareFlavor b).flavor = b.flavor.read (flavorBytes b.eeprom) := by
  unfold readHardwareFlavor readNumchans readBandwidth
  simp only [flavor_readPolarity, flavor_outCode, flavor_readResolution]
  refine Flavor.ext (funext fun reg => ?_) rfl rfl rfl
  cases reg <;> rfl

/-- What a reading does: it writes registers of the configuration and sets the two factors. -/
theorem keeps_readHardwareFlavor {I : Board → Prop}
    (hout : ∀ b a v, a ∈ flavorAddrs → I b → I (b.out a v))
    (hconv : ∀ (b : Board) c c', I b →
      I { b with convVoltsToDacBits := c, convDacBitsToVolts := c' })
    {b : Board} (hb : I b) : I (readHardwareFlavor b) := by
  have haddr := fun b reg v hb => hout b _ v (mem_flavorAddrs_addr reg) hb
  have hres : ∀ val b, I b → I (readResolution val b) := by
    intro val b hb
    unfold readResolution
    dsimp only
    split_ifs
    · exact hconv _ _ _ (haddr _ _ _ hb)
    · exact hconv _ _ _ (haddr _ _ _ hb)
    · exact haddr _ _ _ (haddr _ _ _ hb)
  have hpol : ∀ val b, I b → I (readPolarity val b) := by
    intro val b hb
    unfold readPolarity
    dsimp only
    split_ifs
    · refine hout _ _ _ (mem_flavorAddrs_on2Pulseenb .ps4) ?_
      refine hout _ _ _ (mem_flavorAddrs_on2Pulseenb .ps3) ?_
      refine hout _ _ _ (mem_flavorAddrs_on2Pulseenb .ps2) ?_
      exact hout _ _ _ (mem_flavorAddrs_on2Pulseenb .ps1) (haddr _ _ _ hb)
    · exact haddr _ _ _ hb
  exact hpol _ _ (haddr _ .bandwidth _ (hres _ _ (haddr _ .numchans _ hb)))

theorem eeprom_readHardwareFlavor : (readHardwareFlavor b).eeprom = b.eeprom :=
  keeps_readHardwareFlavor (I := fun b' : Board => b'.eeprom = b.eeprom) (fun _ _ _ _ hb => hb)
    (fun _ _ _ hb => hb) rfl

end Reading

/-! ### Histories -/

section Histories

variable (b : Board)

@[simp] theorem flavor_eepromWriteByte (a val : BitVec 8) :
    (eepromWriteByte b a val).flavor = b.flavor := rfl

theorem flavor_setFlavor (reg : FlavorReg) (c : Char) :
    (setFlavor reg c b).flavor = b.flavor.read (flavorBytes (setFlavor reg c b).eeprom) := by
  unfold setFlavor
  dsimp only
  rw [flavor_readHardwareFlavor, eeprom_readHardwareFlavor]
  split_ifs <;> rfl

theorem flavor_eepromWrites (a val : ℕ → BitVec 8) (is : List ℕ) :
    (is.foldl (fun b i => eepromWriteByte b (a i) (val i)) b).flavor = b.flavor := by
  induction is generalizing b with
  | nil => rfl
  | cons i is ih => exact ih _

theorem flavor_exec (e : Edit) :
    (e.exec b).flavor =
      if e.reads then b.flavor.read (flavorBytes (e.exec b).eeprom) else b.flavor := by
  cases e
  case clearEeprom input =>
    show (clearEeprom input b).flavor = b.flavor
    unfold clearEeprom
    split_ifs
    · rfl
    · exact flavor_eepromWrites b ..
  case testEeprom input =>
    show (testEeprom input b).flavor = b.flavor
    unfold testEeprom
    split_ifs
    · rfl
    · exact flavor_eepromWrites b ..
  all_goals exact flavor_setFlavor b _ _

/-- What a history does to the configuration. -/
theorem flavor_history (es : List Edit) :
    (es.foldl Edit.exec b).flavor = (readings b es).foldl Flavor.read b.flavor := by
  induction es generalizing b with
  | nil => rfl
  | cons e es ih =>
    rw [List.foldl_cons, ih, flavor_exec, readings]
    split_ifs <;> rfl

end Histories

section Start

variable (fmt : FloatFormat) (stack : Bytes)

theorem regs_outChans_of_ne (chan : BitVec 32) (v : ChanReg × ℕ → BitVec 32) {a : BitVec 32}
    (rs : List (ChanReg × ℕ)) (d : Device) (ha : ∀ r ∈ rs, a ≠ r.1.addr chan) :
    (rs.foldl (fun d r => d.outChan r.1 chan (v r)) d).regs a = d.regs a := by
  induction rs generalizing d with
  | nil => rfl
  | cons r rs ih =>
    rw [List.foldl_cons, ih _ fun r' hr' => ha r' (List.mem_cons_of_mem _ hr')]
    exact d.xilOut32_regs_of_ne (ha r List.mem_cons_self) _

theorem readQspi_regs_of_ne (d : Device) {chan a : BitVec 32}
    (ha : ∀ reg ∈ qspiRegs, a ≠ reg.addr chan) :
    (readQspi fmt stack d chan).regs a = d.regs a := by
  have hwrites := regs_outChans_of_ne chan
    (fun r => wordAt (qspiFlashRead stack chan d.flash) (r.2 + 1)) qspiRegs.zipIdx d
    fun _ hr => ha _ (List.fst_mem_of_mem_zipIdx hr)
  exact hwrites

theorem addr_notMem_flavorAddrs {reg : ChanReg} (hreg : reg ∈ qspiRegs) {chan : BitVec 32}
    (hchan : chan ∈ [1, 2, 3, 4]) : reg.addr chan ∉ flavorAddrs := by
  have hall : ([1, 2, 3, 4].all fun chan => qspiRegs.all fun reg =>
      !flavorAddrs.contains (reg.addr chan)) = true := by decide +kernel
  have h := List.all_eq_true.mp (List.all_eq_true.mp hall chan hchan) reg hreg
  simpa using h

theorem regs_initSettingsFromQspi (d : Device) {a : BitVec 32} (ha : a ∈ flavorAddrs) :
    (initSettingsFromQspi fmt stack d).regs a = d.regs a := by
  have hchan : ∀ chan ∈ [1, 2, 3, 4], ∀ d : Device,
      (readQspi fmt stack d chan).regs a = d.regs a := fun chan hchan d =>
    readQspi_regs_of_ne fmt stack d fun reg hreg =>
      ne_of_mem_of_not_mem ha (addr_notMem_flavorAddrs hreg hchan)
  have hinj : a ≠ GlobReg.evrInjEventnum.addr := ne_of_mem_of_not_mem ha (by decide)
  have hpm : a ≠ GlobReg.evrPmEventnum.addr := ne_of_mem_of_not_mem ha (by decide)
  show (readQspi fmt stack (readQspi fmt stack (readQspi fmt stack (readQspi fmt stack
    ((d.outGlob .evrInjEventnum 10).outGlob .evrPmEventnum 10) 1) 2) 3) 4).regs a = d.regs a
  rw [hchan 4 (by simp), hchan 3 (by simp), hchan 2 (by simp), hchan 1 (by simp)]
  exact (Device.xilOut32_regs_of_ne _ hpm _).trans (Device.xilOut32_regs_of_ne _ hinj _)

theorem convVolts_readQspi (d : Device) (chan : BitVec 32) :
    (readQspi fmt stack d chan).convVoltsToDacBits = d.convVoltsToDacBits := by
  unfold readQspi qspiDisperseData
  generalize qspiRegs.zipIdx = rs
  exact List.foldlRecOn rs _ (motive := fun d' : Device =>
    d'.convVoltsToDacBits = d.convVoltsToDacBits) rfl fun _ hd' _ _ => hd'

theorem convVolts_initSettingsFromQspi (d : Device) :
    (initSettingsFromQspi fmt stack d).convVoltsToDacBits = d.convVoltsToDacBits := by
  unfold initSettingsFromQspi
  simp only [List.foldl_cons, List.foldl_nil, convVolts_readQspi]
  rfl

theorem flavor_boot (reset : BitVec 32 → BitVec 32) (flash : Bytes)
    (eeprom : BitVec 8 → BitVec 8) :
    (boot fmt stack reset flash eeprom).flavor =
      (powerOn reset flash eeprom).flavor.read (flavorBytes eeprom) := by
  have hinit : (boot fmt stack reset flash eeprom).flavor =
      (mainInit (powerOn reset flash eeprom)).flavor :=
    Board.flavor_congr (fun _ ha => regs_initSettingsFromQspi fmt stack _ ha)
      (convVolts_initSettingsFromQspi fmt stack _) rfl
  rw [hinit]
  unfold mainInit
  simp only [List.foldl_cons, List.foldl_nil]
  rw [Board.flavor_out_of_notMem _ (by decide), Board.flavor_out_of_notMem _ (by decide),
    Board.flavor_out_of_notMem _ (by decide), Board.flavor_out_of_notMem _ (by decide),
    Board.flavor_out_of_notMem _ (by decide), Board.flavor_out_of_notMem _ (by decide),
    Board.flavor_out_of_notMem _ (by decide), flavor_readHardwareFlavor,
    Board.flavor_out_of_notMem _ (by decide)]
  rfl

end Start

/-! ## What a history leaves -/

namespace Flavor

/-- The two conversion factors. -/
def factors (f : Flavor) : ℚ × ℚ := (f.convVoltsToDacBits, f.convDacBitsToVolts)

section Read

variable (f g : Flavor) (bytes : FlavorReg → BitVec 8)

/-- The polarity byte is that of a unipolar board. -/
def Unipolar : Prop := bytes .polarity = 1

/-- The resolution byte is valid. -/
def Resolves : Prop := bytes .resolution = 0 ∨ bytes .resolution = 1

theorem factors_read_of_resolves (h : Resolves bytes) :
    (f.read bytes).factors = (g.read bytes).factors ∧ (f.read bytes).factors ≠ (0, 0) := by
  obtain h | h := h
  · have h18 : convVoltsTo18Bits ≠ 0 := by norm_num [convVoltsTo18Bits]
    simp [factors, read, h, h18]
  · have h20 : convVoltsTo20Bits ≠ 0 := by norm_num [convVoltsTo20Bits]
    simp [factors, read, h, h20]

theorem factors_read_of_not_resolves (h : ¬Resolves bytes) :
    (f.read bytes).factors = f.factors := by
  unfold Resolves at h
  push Not at h
  simp only [factors, read, if_neg h.1, if_neg h.2]

theorem pulseenb_read_of_unipolar (h : Unipolar bytes) :
    (f.read bytes).pulseenb = fun _ => 1 :=
  if_pos h

theorem pulseenb_read_of_not_unipolar (h : ¬Unipolar bytes) :
    (f.read bytes).pulseenb = f.pulseenb :=
  if_neg h

theorem read_eq_read_iff :
    f.read bytes = g.read bytes ↔
      (Unipolar bytes ∨ f.pulseenb = g.pulseenb) ∧
        (Resolves bytes ∨ f.factors = g.factors) := by
  have hsplit : f.read bytes = g.read bytes ↔ (f.read bytes).pulseenb = (g.read bytes).pulseenb ∧
      (f.read bytes).factors = (g.read bytes).factors := by
    rw [Flavor.ext_iff, factors, factors, Prod.mk.injEq]
    exact ⟨fun h => h.2, fun h => ⟨rfl, h⟩⟩
  rw [hsplit]
  refine and_congr ?_ ?_
  · by_cases h : Unipolar bytes
    · simp [pulseenb_read_of_unipolar _ _ h, h]
    · simp [pulseenb_read_of_not_unipolar _ _ h, h]
  · by_cases h : Resolves bytes
    · exact iff_of_true (factors_read_of_resolves f g bytes h).1 (Or.inl h)
    · simp [factors_read_of_not_resolves _ _ h, h]

end Read

section Run

variable (f : Flavor) (rs : List (FlavorReg → BitVec 8))

theorem pulseenb_foldl_read_iff :
    (rs.foldl read f).pulseenb = f.pulseenb ↔
      (∀ r ∈ rs, ¬Unipolar r) ∨ f.pulseenb = fun _ => 1 := by
  have hfold : ((∀ r ∈ rs, ¬Unipolar r) → (rs.foldl read f).pulseenb = f.pulseenb) ∧
      (¬(∀ r ∈ rs, ¬Unipolar r) → (rs.foldl read f).pulseenb = fun _ => 1) := by
    induction rs using List.reverseRecOn with
    | nil => simp
    | append_singleton rs r ih =>
      rw [List.foldl_concat]
      by_cases h : Unipolar r
      · simp [pulseenb_read_of_unipolar _ _ h, h]
      · simpa [pulseenb_read_of_not_unipolar _ _ h, h, or_imp, forall_and] using ih
  by_cases h : ∀ r ∈ rs, ¬Unipolar r
  · exact iff_of_true (hfold.1 h) (Or.inl h)
  · rw [hfold.2 h, or_iff_right h]
    exact eq_comm

theorem factors_foldl_read_iff (hf : f.factors = (0, 0)) :
    (rs.foldl read f).factors = (0, 0) ↔ ∀ r ∈ rs, ¬Resolves r := by
  induction rs using List.reverseRecOn with
  | nil => simp [hf]
  | append_singleton rs r ih =>
    rw [List.foldl_concat]
    by_cases h : Resolves r
    · have hne := (factors_read_of_resolves (rs.foldl read f) f r h).2
      simp [hne, h]
    · rw [factors_read_of_not_resolves _ _ h, ih]
      simp [or_imp, forall_and, h]

end Run

end Flavor

open Flavor

/-- **Hardware flavor.** After any history of console edits the configuration is that of a fresh
boot on the bytes that the last reading found exactly if two things hold. The last reading is
unipolar, or none was, or the pulse enables come up set; and the last resolution is valid, or none
was. -/
theorem flavor_fresh_iff (fmt : FloatFormat) (stack : Bytes) (reset : BitVec 32 → BitVec 32)
    (flash : Bytes) (eeprom : BitVec 8 → BitVec 8) (es : List Edit) :
    let b := boot fmt stack reset flash eeprom
    let found := flavorBytes eeprom :: readings b es
    let last := found.getLast (List.cons_ne_nil _ _)
    (∀ stack' flash' eeprom', flavorBytes eeprom' = last →
        (es.foldl Edit.exec b).flavor = (boot fmt stack' reset flash' eeprom').flavor) ↔
      (Unipolar last ∨ (∀ bytes ∈ found, ¬Unipolar bytes) ∨
          ∀ ps : Ps, (powerOn reset flash eeprom).regs (on2Pulseenb ps.chan) = 1) ∧
        (Resolves last ∨ ∀ bytes ∈ found, ¬Resolves bytes) := by
  intro b found last
  set f := (powerOn reset flash eeprom).flavor with hf
  have hfound : found = found.dropLast ++ [last] :=
    (List.dropLast_append_getLast (List.cons_ne_nil _ _)).symm
  have hrun : (es.foldl Edit.exec b).flavor = (found.dropLast.foldl read f).read last := by
    have hfold :
        found.foldl read f = (readings b es).foldl read (f.read (flavorBytes eeprom)) := rfl
    rw [flavor_history, flavor_boot, ← hf, ← hfold, hfound, List.foldl_concat, ← hfound]
  have hfresh : ∀ stack' flash' eeprom', flavorBytes eeprom' = last →
      (boot fmt stack' reset flash' eeprom').flavor = f.read last := fun stack' flash' eeprom' h => by
    rw [flavor_boot, h]
    rfl
  -- an EEPROM with the bytes last found
  obtain ⟨eeprom', heeprom'⟩ : ∃ eeprom', flavorBytes eeprom' = last :=
    ⟨fun a => if a = 0x10 then last .numchans else if a = 0x11 then last .resolution
      else if a = 0x12 then last .bandwidth else last .polarity,
      funext fun reg => by cases reg <;> rfl⟩
  have hiff : (∀ stack' flash' eeprom', flavorBytes eeprom' = last →
      (es.foldl Edit.exec b).flavor = (boot fmt stack' reset flash' eeprom').flavor) ↔
      (found.dropLast.foldl read f).read last = f.read last := by
    refine ⟨fun h => ?_, fun h stack' flash' eeprom'' he => ?_⟩
    · rw [← hrun, h stack flash eeprom' heeprom', hfresh _ _ _ heeprom']
    · rw [hrun, h, hfresh _ _ _ he]
  rw [hiff, read_eq_read_iff, pulseenb_foldl_read_iff, show f.factors = (0, 0) from rfl,
    factors_foldl_read_iff f _ rfl]
  have hall : ∀ P : (FlavorReg → BitVec 8) → Prop,
      (P last ∨ ∀ r ∈ found.dropLast, ¬P r) ↔ (P last ∨ ∀ r ∈ found, ¬P r) := fun P => by
    by_cases h : P last
    · simp [h]
    · conv_rhs => rw [hfound]
      simp [h, or_imp, forall_and]
  have hset : f.pulseenb = (fun _ => 1) ↔
      ∀ ps : Ps, (powerOn reset flash eeprom).regs (on2Pulseenb ps.chan) = 1 := funext_iff
  rw [hall Resolves, ← or_assoc, hall Unipolar, or_assoc, hset]

/-! ### Two edits -/

/-- A bipolar board with two channels, a resolution of 18 bits, and nothing else in its memories. -/
def bipolarBoard : Board := boot binary32 (fun _ => 0) (fun _ => 0) (fun _ => 0xFF) (fun _ => 0)

/-- Polarity set to unipolar and back. The bytes are those of the boot again, but the second digital
outputs go on pulsing. -/
theorem pulses_left_over :
    readings bipolarBoard [.setPolarity '1', .setPolarity '0'] =
        [fun reg => if reg = .polarity then 1 else 0, flavorBytes bipolarBoard.eeprom] ∧
      bipolarBoard.flavor.pulseenb .ps1 = 0 ∧
      ([Edit.setPolarity '1', .setPolarity '0'].foldl Edit.exec bipolarBoard).flavor.pulseenb .ps1 =
        1 := by
  have hfound : readings bipolarBoard [.setPolarity '1', .setPolarity '0'] =
      [fun reg => if reg = .polarity then 1 else 0, flavorBytes bipolarBoard.eeprom] := by
    refine congrArg₂ (fun x y => [x, y]) (funext fun reg => ?_) (funext fun reg => ?_) <;>
      cases reg <;> decide +kernel
  refine ⟨hfound, ?_, ?_⟩
  · rw [bipolarBoard, flavor_boot]
    decide +kernel
  · rw [flavor_history, hfound]
    decide +kernel

end Psc.Control
