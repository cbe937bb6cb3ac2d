import Psc.Control.FofbScale

/-!
# Settings read back

`sadata_push` sends ten times a second what the board knows of its channels (`SaField`): readings of
the converters, settings, limits, digital signals and scale factors. A setting is scaled to the bits
of its register in `chan_settings` and back here, each time with a conversion and a scale factor
written out in the source (`ChanMsg.kind`, `SaField.read`).

`readback_iff`: a setting comes back to less than one bit, and no other field moves. The threshold
of the ground current is written with the factor of the loop error and read with its own
(`ground_threshold_misread`).
-/

namespace Psc.Control

open Program Program.Prog Net Transition

/-! ## The message -/

/-- The fields of `SAdataChan`. -/
inductive SaField where
  | dcct1 | dcct1Offset | dcct1Gain | dcct2 | dcct2Offset | dcct2Gain
  | dacmon | dacmonOffset | dacmonGain | volt | voltOffset | voltGain
  | gnd | gndOffset | gndGain | spare | spareOffset | spareGain
  | reg | regOffset | regGain | error | errorOffset | errorGain
  | dacSetpt | dacSetptOffset | dacSetptGain | dacRampactive
  | ovc1Thresh | ovc2Thresh | ovvThresh | err1Thresh | err2Thresh | igndThresh
  | ovc1Cntlim | ovc2Cntlim | ovvCntlim | err1Cntlim | err2Cntlim | igndCntlim | dcctCntlim
  | flt1Cntlim | flt2Cntlim | flt3Cntlim | onCntlim | heartbeatCntlim
  | faultClear | faultMask | digoutOn1 | digoutOn2 | digoutReset | digoutSpare | digoutPark
  | digin | faultsLive | faultsLatched
  | sfAmpspersec | sfDacDccts | sfVout | sfIgnd | sfSpare | sfRegulator | sfError
  | dacSetptRaw | fofbDacsetpt
  deriving DecidableEq

/-- How a field is computed, from a register of the channel or from a scale factor. Bits become
volts with `CONVDACBITSTOVOLTS` or with `CONV16BITSTOVOLTS`. -/
inductive SaRead where
  /-- `ReadAccumSA`, to volts, times a factor. -/
  | accum (offset : BitVec 32) (dac : Bool) (field : ScaleFactorType → ℚ)
  /-- A signed word, to volts, times a factor. -/
  | signed (offset : BitVec 32) (dac : Bool) (field : ScaleFactorType → ℚ)
  /-- An unsigned word, to volts, times a factor. -/
  | unsigned (offset : BitVec 32) (field : ScaleFactorType → ℚ)
  /-- A gain. -/
  | gain (offset : BitVec 32)
  /-- A count of samples, to seconds. -/
  | seconds (offset : BitVec 32)
  | word (offset : BitVec 32)
  /-- A word that is a float. -/
  | float (offset : BitVec 32)
  | factor (field : ScaleFactorType → ℚ)

/-- `sadata_push`, the fields of a channel. -/
def SaField.read : SaField → SaRead
  | dcct1 => .accum 0x00 true fun s => s.dacDccts
  | dcct1Offset => .signed ChanReg.dcct1Offset.offset true fun s => s.dacDccts
  | dcct1Gain => .gain ChanReg.dcct1Gain.offset
  | dcct2 => .accum 0x04 true fun s => s.dacDccts
  | dcct2Offset => .signed ChanReg.dcct2Offset.offset true fun s => s.dacDccts
  | dcct2Gain => .gain ChanReg.dcct2Gain.offset
  | dacmon => .accum 0x08 false fun s => s.dacDccts
  | dacmonOffset => .signed ChanReg.dacmonOffset.offset false fun s => s.dacDccts
  | dacmonGain => .gain ChanReg.dacmonGain.offset
  | volt => .accum 0x0C false fun s => s.vout
  | voltOffset => .signed ChanReg.voltOffset.offset false fun s => s.vout
  | voltGain => .gain ChanReg.voltGain.offset
  | gnd => .accum 0x10 false fun s => s.ignd
  | gndOffset => .signed ChanReg.gndOffset.offset false fun s => s.ignd
  | gndGain => .gain ChanReg.gndGain.offset
  | spare => .accum 0x14 false fun s => s.spare
  | spareOffset => .signed ChanReg.spareOffset.offset false fun s => s.spare
  | spareGain => .gain ChanReg.spareGain.offset
  | reg => .accum 0x18 false fun s => s.regulator
  | regOffset => .signed ChanReg.regOffset.offset false fun s => s.regulator
  | regGain => .gain ChanReg.regGain.offset
  | error => .accum 0x1C false fun s => s.error
  | errorOffset => .signed ChanReg.errOffset.offset false fun s => s.error
  | errorGain => .gain ChanReg.errGain.offset
  | dacSetpt => .signed ChanReg.dacCurrsetpt.offset true fun s => s.dacDccts
  | dacSetptRaw => .word ChanReg.dacCurrsetpt.offset
  | dacSetptOffset => .signed ChanReg.dacSetptOffset.offset true fun s => s.dacDccts
  | dacSetptGain => .gain ChanReg.dacSetptGain.offset
  | dacRampactive => .word 0x48
  | ovc1Thresh => .signed ChanReg.ovc1Thresh.offset true fun s => s.dacDccts
  | ovc2Thresh => .signed ChanReg.ovc2Thresh.offset true fun s => s.dacDccts
  | ovvThresh => .unsigned ChanReg.ovvThresh.offset fun s => s.vout
  | err1Thresh => .unsigned ChanReg.err1Thresh.offset fun s => s.error
  | err2Thresh => .unsigned ChanReg.err2Thresh.offset fun s => s.error
  | igndThresh => .unsigned ChanReg.igndThresh.offset fun s => s.ignd
  | ovc1Cntlim => .seconds ChanReg.ovc1Cntlim.offset
  | ovc2Cntlim => .seconds ChanReg.ovc2Cntlim.offset
  | ovvCntlim => .seconds ChanReg.ovvCntlim.offset
  | err1Cntlim => .seconds ChanReg.err1Cntlim.offset
  | err2Cntlim => .seconds ChanReg.err2Cntlim.offset
  | igndCntlim => .seconds ChanReg.igndCntlim.offset
  | dcctCntlim => .seconds ChanReg.dcctCntlim.offset
  | flt1Cntlim => .seconds ChanReg.flt1Cntlim.offset
  | flt2Cntlim => .seconds ChanReg.flt2Cntlim.offset
  | flt3Cntlim => .seconds ChanReg.flt3Cntlim.offset
  | onCntlim => .seconds ChanReg.onCntlim.offset
  | heartbeatCntlim => .seconds ChanReg.heartbeatCntlim.offset
  | faultClear => .word ChanReg.faultClear.offset
  | faultMask => .word ChanReg.faultMask.offset
  | digoutOn1 => .word ChanReg.digoutOn1.offset
  | digoutOn2 => .word ChanReg.digoutOn1.offset
  | digoutReset => .word ChanReg.digoutOn1.offset
  | digoutSpare => .word ChanReg.digoutReset.offset
  | digoutPark => .word ChanReg.digoutPark.offset
  | digin => .word 0xF4
  | faultsLive => .word 0xF8
  | faultsLatched => .word 0xFC
  | sfAmpspersec => .factor fun s => s.ampspersec
  | sfDacDccts => .factor fun s => s.dacDccts
  | sfVout => .factor fun s => s.vout
  | sfIgnd => .factor fun s => s.ignd
  | sfSpare => .factor fun s => s.spare
  | sfRegulator => .factor fun s => s.regulator
  | sfError => .factor fun s => s.error
  | fofbDacsetpt => .float 0x124

/-- The contents of a field: a word, or a float that is a number or is none. -/
inductive SaValue where
  | word (w : BitVec 32)
  | float (x : Option ℚ)

/-- `ReadAccumSA`, of the word of the register. -/
def readAccumSa (raw aveMode : BitVec 32) : Option ℚ :=
  if aveMode = 0 then some raw.toInt
  else if aveMode = 1 then some (raw.toInt / 167)
  else if aveMode = 2 then some (raw.toInt / 500)
  else none

/-- `CONV16BITSTOVOLTS`. -/
def conv16BitsToVolts : ℚ := 1 / convVoltsTo16Bits

section Message

variable (fmt : FloatFormat) (b : Board) (chan : BitVec 32)

/-- `Xil_In32(base + offset)`. -/
def Board.inOffset (offset : BitVec 32) : BitVec 32 := b.regs (offset + chan * 0x200)

/-- The conversion to volts. -/
def Board.bitsToVolts (dac : Bool) : ℚ := if dac then b.convDacBitsToVolts else conv16BitsToVolts

/-- What a field is computed to. -/
def SaRead.value : SaRead → SaValue
  | accum offset dac field =>
    .float ((readAccumSa (b.inOffset chan offset) (b.inOffset chan ChanReg.avemode.offset)).map
      fun x => x * b.bitsToVolts dac * field (b.sf chan))
  | signed offset dac field =>
    .float (some ((b.inOffset chan offset).toInt * b.bitsToVolts dac * field (b.sf chan)))
  | unsigned offset field =>
    .float (some ((b.inOffset chan offset).toNat * conv16BitsToVolts * field (b.sf chan)))
  | gain offset => .float (some ((b.inOffset chan offset).toInt / gain20BitFract))
  | seconds offset => .float (some ((b.inOffset chan offset).toNat / sampleRate))
  | word offset => .word (b.inOffset chan offset)
  | float offset => .float (some (fmt.value (b.inOffset chan offset)))
  | factor field => .float (some (field (b.sf chan)))

/-- The message, at a field of a channel. -/
def saData (field : SaField) : SaValue := field.read.value fmt b chan

end Message

/-! ## The settings -/

/-- What has an offset and a gain. -/
inductive Quantity where
  | dacSetpt | dcct1 | dcct2 | dacmon | volt | gnd | spare | reg | err
  deriving DecidableEq

/-- What has a threshold. -/
inductive Threshold where
  | ovc1 | ovc2 | ovv | err1 | err2 | ignd
  deriving DecidableEq

/-- The settings that are scaled. -/
inductive Setting where
  | offset (q : Quantity)
  | gain (q : Quantity)
  | thresh (t : Threshold)
  deriving DecidableEq

namespace Setting

/-- The address of the command that sets it. -/
def code : Setting → BitVec 32
  | gain .dacSetpt => 116
  | offset .dacSetpt => 120
  | offset .dcct1 => 124
  | gain .dcct1 => 128
  | offset .dcct2 => 132
  | gain .dcct2 => 136
  | offset .dacmon => 140
  | gain .dacmon => 144
  | offset .volt => 148
  | gain .volt => 152
  | offset .gnd => 156
  | gain .gnd => 160
  | offset .spare => 164
  | gain .spare => 168
  | offset .reg => 172
  | gain .reg => 176
  | offset .err => 180
  | gain .err => 184
  | thresh .ovc1 => 188
  | thresh .ovc2 => 192
  | thresh .ovv => 196
  | thresh .err1 => 200
  | thresh .err2 => 204
  | thresh .ignd => 208

/-- The field that has its name. -/
def field : Setting → SaField
  | offset .dacSetpt => .dacSetptOffset
  | gain .dacSetpt => .dacSetptGain
  | offset .dcct1 => .dcct1Offset
  | gain .dcct1 => .dcct1Gain
  | offset .dcct2 => .dcct2Offset
  | gain .dcct2 => .dcct2Gain
  | offset .dacmon => .dacmonOffset
  | gain .dacmon => .dacmonGain
  | offset .volt => .voltOffset
  | gain .volt => .voltGain
  | offset .gnd => .gndOffset
  | gain .gnd => .gndGain
  | offset .spare => .spareOffset
  | gain .spare => .spareGain
  | offset .reg => .regOffset
  | gain .reg => .regGain
  | offset .err => .errorOffset
  | gain .err => .errorGain
  | thresh .ovc1 => .ovc1Thresh
  | thresh .ovc2 => .ovc2Thresh
  | thresh .ovv => .ovvThresh
  | thresh .err1 => .err1Thresh
  | thresh .err2 => .err2Thresh
  | thresh .ignd => .igndThresh

end Setting

namespace Setting

/-- The register of a setting. -/
def reg : Setting → ChanReg
  | offset .dacSetpt => .dacSetptOffset
  | gain .dacSetpt => .dacSetptGain
  | offset .dcct1 => .dcct1Offset
  | gain .dcct1 => .dcct1Gain
  | offset .dcct2 => .dcct2Offset
  | gain .dcct2 => .dcct2Gain
  | offset .dacmon => .dacmonOffset
  | gain .dacmon => .dacmonGain
  | offset .volt => .voltOffset
  | gain .volt => .voltGain
  | offset .gnd => .gndOffset
  | gain .gnd => .gndGain
  | offset .spare => .spareOffset
  | gain .spare => .spareGain
  | offset .reg => .regOffset
  | gain .reg => .regGain
  | offset .err => .errOffset
  | gain .err => .errGain
  | thresh .ovc1 => .ovc1Thresh
  | thresh .ovc2 => .ovc2Thresh
  | thresh .ovv => .ovvThresh
  | thresh .err1 => .err1Thresh
  | thresh .err2 => .err2Thresh
  | thresh .ignd => .igndThresh

/-- The largest count a setting can have: what a signed word shows, what the 20 bits hold, and the
bound of the 16-bit thresholds. -/
def maximum : Setting → ℕ
  | offset _ | gain _ => 2 ^ 31 - 1
  | thresh .ovc1 | thresh .ovc2 => 2 ^ 20 - 1
  | thresh _ => 32767

/-- The width of the field of the register. -/
def width : Setting → ℕ
  | offset _ | gain _ => 32
  | thresh .ovc1 | thresh .ovc2 => 20
  | thresh _ => 16

end Setting

/-- What one bit of the register is worth in the message. -/
def SaRead.lsb (b : Board) (chan : BitVec 32) : SaRead → ℚ
  | signed _ dac field => b.bitsToVolts dac * field (b.sf chan)
  | unsigned _ field => conv16BitsToVolts * field (b.sf chan)
  | gain _ => 1 / gain20BitFract
  | _ => 0

/-- What one bit is worth of what is shown for a setting. -/
def Setting.lsb (b : Board) (chan : BitVec 32) (st : Setting) : ℚ := st.field.read.lsb b chan

/-- The settings in bits of the DAC. -/
def Setting.InDacBits : Setting → Prop
  | offset .dacSetpt | offset .dcct1 | offset .dcct2 | thresh .ovc1 | thresh .ovc2 => True
  | _ => False

/-- When a setting comes back. The threshold of the ground current is stored as a count of the loop
error's bits, which has to agree with the count `y` of its own. The others come back, those in bits
of the DAC if a resolution has been read. -/
def Setting.ReadsBack (b : Board) (chan : BitVec 32) (x : ℚ) : Setting → Prop
  | thresh .ignd =>
    let y := x * convVoltsTo16Bits / (b.sf chan).ignd
    let u := x * convVoltsTo16Bits / (b.sf chan).error
    ⌊y⌋ ≤ u ∧ (u < ⌈y⌉ + 1 ∨ 32766 < y ∧ u < 2 ^ 31)
  | st => st.InDacBits → b.convVoltsToDacBits ≠ 0

/-- The two conversion factors agree. -/
structure Board.Calibrated (b : Board) : Prop where
  nonneg : 0 ≤ b.convVoltsToDacBits
  inverse : b.convDacBitsToVolts = 1 / b.convVoltsToDacBits

/-! ## Fields and registers -/

/-- The registers that a field is computed from. -/
def SaRead.offsets : SaRead → List (BitVec 32)
  | accum offset _ _ => [offset, ChanReg.avemode.offset]
  | signed offset _ _ | unsigned offset _ | gain offset | seconds offset | word offset
  | float offset => [offset]
  | factor _ => []

/-- All fields. -/
def saFields : List SaField :=
  [.dcct1, .dcct1Offset, .dcct1Gain, .dcct2, .dcct2Offset, .dcct2Gain, .dacmon, .dacmonOffset,
    .dacmonGain, .volt, .voltOffset, .voltGain, .gnd, .gndOffset, .gndGain, .spare, .spareOffset,
    .spareGain, .reg, .regOffset, .regGain, .error, .errorOffset, .errorGain, .dacSetpt,
    .dacSetptOffset, .dacSetptGain, .dacRampactive, .ovc1Thresh, .ovc2Thresh, .ovvThresh,
    .err1Thresh, .err2Thresh, .igndThresh, .ovc1Cntlim, .ovc2Cntlim, .ovvCntlim, .err1Cntlim,
    .err2Cntlim, .igndCntlim, .dcctCntlim, .flt1Cntlim, .flt2Cntlim, .flt3Cntlim, .onCntlim,
    .heartbeatCntlim, .faultClear, .faultMask, .digoutOn1, .digoutOn2, .digoutReset, .digoutSpare,
    .digoutPark, .digin, .faultsLive, .faultsLatched, .sfAmpspersec, .sfDacDccts, .sfVout, .sfIgnd,
    .sfSpare, .sfRegulator, .sfError, .dacSetptRaw, .fofbDacsetpt]

theorem mem_saFields (f : SaField) : f ∈ saFields := by
  cases f <;> exact List.mem_of_elem_eq_true rfl

theorem offsets_lt {f : SaField} {offset : BitVec 32} (h : offset ∈ f.read.offsets) :
    offset.toNat < 0x200 := by
  have hall : (saFields.all fun f => f.read.offsets.all fun o => o.toNat < 0x200) = true := by
    decide +kernel
  simpa using List.all_eq_true.mp (List.all_eq_true.mp hall f (mem_saFields f)) offset h

theorem eq_field_of_mem_offsets {st : Setting} {f : SaField}
    (h : st.reg.offset ∈ f.read.offsets) : f = st.field := by
  have hall : ∀ st : Setting,
      (saFields.all fun f => !f.read.offsets.contains st.reg.offset || f == st.field) = true := by
    intro st
    rcases st with q | q | t
    · cases q <;> decide +kernel
    · cases q <;> decide +kernel
    · cases t <;> decide +kernel
  have hf := List.all_eq_true.mp (hall st) f (mem_saFields f)
  rw [Bool.or_eq_true, Bool.not_eq_true', beq_iff_eq] at hf
  rcases hf with hf | hf
  · rw [List.contains_iff_mem.mpr h] at hf
    cases hf
  · exact hf

theorem offset_add_inj {o o' : BitVec 32} (ho : o.toNat < 0x200) (ho' : o'.toNat < 0x200)
    {ps ps' : Ps} (h : o + ps.chan * 0x200 = o' + ps'.chan * 0x200) : o = o' ∧ ps = ps' := by
  have hchan : ∀ ps : Ps, (ps.chan * 0x200).toNat = 0x200 * (ps.idx + 1) := by
    intro ps
    cases ps <;> decide
  have hnat := congrArg BitVec.toNat h
  have h1 := ps.idx_lt
  have h2 := ps'.idx_lt
  rw [BitVec.toNat_add, BitVec.toNat_add, hchan, hchan] at hnat
  exact ⟨BitVec.eq_of_toNat_eq (by omega), Ps.idx_injective (by omega)⟩

section Frame

variable (fmt : FloatFormat) {b b' : Board} {chan : BitVec 32}

theorem SaRead.value_congr {r : SaRead}
    (hregs : ∀ o ∈ r.offsets, b'.inOffset chan o = b.inOffset chan o)
    (hsf : b'.sf chan = b.sf chan) (hconv : b'.convDacBitsToVolts = b.convDacBitsToVolts) :
    r.value fmt b' chan = r.value fmt b chan := by
  have hvolts : ∀ dac, b'.bitsToVolts dac = b.bitsToVolts dac := fun dac => by
    rw [Board.bitsToVolts, hconv, Board.bitsToVolts]
  cases r with
  | accum o dac field =>
    simp only [SaRead.value, hsf, hvolts, hregs o (by simp [SaRead.offsets]),
      hregs ChanReg.avemode.offset (by simp [SaRead.offsets])]
  | factor field => simp only [SaRead.value, hsf]
  | _ o => simp only [SaRead.value, hsf, hvolts, hregs o (by simp [SaRead.offsets])]

theorem saData_outChan_of_ne (b : Board) (st : Setting) (ps : Ps) (v : BitVec 32) {ps' : Ps}
    {f : SaField} (h : ps' = ps → f ≠ st.field) :
    saData fmt { b with toDevice := b.outChan st.reg ps.chan v } ps'.chan f =
      saData fmt b ps'.chan f := by
  refine SaRead.value_congr fmt (fun o ho => ?_) rfl rfl
  refine b.xilOut32_regs_of_ne (fun heq => ?_) v
  have hreg : st.reg.offset.toNat < 0x200 := by
    generalize st.reg = reg
    cases reg <;> decide
  obtain ⟨rfl, hps⟩ := offset_add_inj (offsets_lt ho) hreg heq
  exact h hps (eq_field_of_mem_offsets ho)

end Frame

/-! ## The count and the value -/

section Counts

variable {x lsb : ℚ}

theorem abs_floor_mul_sub_lt (hx : 0 ≤ x) (hlsb : 0 < lsb) :
    |(⌊x / lsb⌋₊ : ℚ) * lsb - x| < lsb := by
  have hle : (⌊x / lsb⌋₊ : ℚ) ≤ x / lsb := Nat.floor_le (by positivity)
  have hlt : x / lsb < ⌊x / lsb⌋₊ + 1 := Nat.lt_floor_add_one _
  rw [le_div_iff₀ hlsb] at hle
  rw [div_lt_iff₀ hlsb] at hlt
  rw [abs_lt]
  constructor <;> linarith

theorem abs_mul_sub_lt_iff (hlsb : 0 < lsb) (N : ℕ) :
    |(N : ℚ) * lsb - x| < lsb ↔ ⌊x / lsb⌋ ≤ N ∧ (N : ℤ) ≤ ⌈x / lsb⌉ := by
  have hx : x = x / lsb * lsb := (div_mul_cancel₀ x hlsb.ne').symm
  have hscale : |(N : ℚ) * lsb - x| < lsb ↔ |(N : ℚ) - x / lsb| < 1 := by
    conv_lhs => rw [hx, ← sub_mul, abs_mul, abs_of_pos hlsb, mul_lt_iff_lt_one_left hlsb]
  rw [hscale, abs_sub_lt_iff, and_comm]
  refine and_congr ?_ ?_
  · rw [← Int.lt_add_one_iff, Int.floor_lt]
    push_cast
    constructor <;> intro h <;> linarith
  · rw [← Int.sub_one_lt_iff, Int.lt_ceil]
    push_cast
    constructor <;> intro h <;> linarith

end Counts

theorem conv16BitsToVolts_pos : 0 < conv16BitsToVolts := by
  norm_num [conv16BitsToVolts, convVoltsTo16Bits]

theorem Setting.read_cases (st : Setting) :
    (∃ dac field, st.field.read = .signed st.reg.offset dac field) ∨
      (∃ field, st.field.read = .unsigned st.reg.offset field) ∨
        st.field.read = .gain st.reg.offset := by
  rcases st with q | q | t
  · exact Or.inl (by cases q <;> exact ⟨_, _, rfl⟩)
  · exact Or.inr (Or.inr (by cases q <;> rfl))
  · cases t
    case ovc1 | ovc2 => exact Or.inl ⟨_, _, rfl⟩
    all_goals exact Or.inr (Or.inl ⟨_, rfl⟩)

theorem Setting.fieldWidth_reg (st : Setting) (ps : Ps) :
    fieldWidth (st.reg.addr ps.chan) = st.width := by
  rcases st with q | q | t
  · cases q <;> cases ps <;> rfl
  · cases q <;> cases ps <;> rfl
  · cases t <;> cases ps <;> rfl

theorem Setting.maximum_lt (st : Setting) :
    st.maximum < 2 ^ st.width ∧ st.maximum < 2 ^ 31 ∧ st.width ≤ 32 := by
  rcases st with q | q | t
  · exact ⟨by norm_num [maximum, width], by norm_num [maximum], le_rfl⟩
  · exact ⟨by norm_num [maximum, width], by norm_num [maximum], le_rfl⟩
  · cases t <;> exact ⟨by norm_num [maximum, width], by norm_num [maximum], by norm_num [width]⟩

/-- **The reader.** A count that the register holds is shown as so many bits. -/
theorem saData_outChan (fmt : FloatFormat) (b : Board) (st : Setting) (ps : Ps) {N : ℕ}
    (hN : N ≤ st.maximum) :
    saData fmt { b with toDevice := b.outChan st.reg ps.chan (BitVec.ofNat 32 N) } ps.chan
      st.field = .float (some (N * st.lsb b ps.chan)) := by
  obtain ⟨hwidth, h31, h32⟩ := st.maximum_lt
  obtain ⟨b', hb'⟩ : ∃ b' : Board,
      b' = { b with toDevice := b.outChan st.reg ps.chan (BitVec.ofNat 32 N) } := ⟨_, rfl⟩
  have hword : (b'.inOffset ps.chan st.reg.offset).toNat = N := by
    have hreg : b'.inOffset ps.chan st.reg.offset =
        stored (st.reg.addr ps.chan) (BitVec.ofNat 32 N) := hb' ▸ b.outChan_regs st.reg ps.chan _
    rw [hreg, toNat_stored (st.fieldWidth_reg ps) h32, BitVec.toNat_ofNat,
      Nat.mod_eq_of_lt (by omega : N < 2 ^ 32), Nat.mod_eq_of_lt (by omega)]
  have hint : (b'.inOffset ps.chan st.reg.offset).toInt = N := by
    rw [BitVec.toInt_eq_toNat_of_lt (by omega), hword]
  have hsf : b'.sf ps.chan = b.sf ps.chan := by rw [hb']; rfl
  have hvolts : ∀ dac, b'.bitsToVolts dac = b.bitsToVolts dac := fun dac => by rw [hb']; rfl
  rw [← hb', saData, Setting.lsb]
  obtain ⟨dac, field, hread⟩ | ⟨field, hread⟩ | hread := st.read_cases
  · rw [hread, SaRead.value, SaRead.lsb, hint, hvolts, hsf, Int.cast_natCast, mul_assoc]
  · rw [hread, SaRead.value, SaRead.lsb, hword, hsf, mul_assoc]
  · rw [hread, SaRead.value, SaRead.lsb, hint, Int.cast_natCast, mul_one_div]

/-! ## Writing -/

section Write

variable (fmt : FloatFormat) (stack : Bytes) {b : Board} {ps : Ps} {data : BitVec 32}

theorem volts_mul_bitsToVolts (hcal : b.Calibrated) {dac : Bool} (hdac : b.volts dac ≠ 0) :
    b.bitsToVolts dac = 1 / b.volts dac ∧ 0 < b.volts dac := by
  cases dac with
  | false => exact ⟨rfl, convVoltsTo16Bits_pos⟩
  | true => exact ⟨hcal.inverse, lt_of_le_of_ne hcal.nonneg (Ne.symm hdac)⟩

theorem outScaled_eq (hcal : b.Calibrated) (hx : 0 ≤ fmt.value data) (dac : Bool)
    (hdac : b.volts dac ≠ 0) {s : ℚ} (hs : 0 < s)
    (hfit : fmt.value data / (b.bitsToVolts dac * s) < 2 ^ 31) (reg : ChanReg) :
    b.outScaled reg ps.chan (fmt.value data) (b.volts dac) s =
      .ok (b.outChan reg ps.chan
        (BitVec.ofNat 32 ⌊fmt.value data / (b.bitsToVolts dac * s)⌋₊)) := by
  obtain ⟨hinv, hpos⟩ := volts_mul_bitsToVolts hcal hdac
  have hcount : fmt.value data / (b.bitsToVolts dac * s) = fmt.value data * b.volts dac / s := by
    rw [hinv, one_div_mul_eq_div, div_div_eq_mul_div]
  rw [hcount] at hfit ⊢
  rw [Device.outScaled, scaledVal_eq hx hpos hs hfit]
  rfl

theorem outClamped_eq (hx : 0 ≤ fmt.value data) {s : ℚ} (hs : 0 < s)
    (hfit : fmt.value data * convVoltsTo16Bits / s < 2 ^ 31) (reg : ChanReg) :
    b.outClamped reg ps.chan (fmt.value data) convVoltsTo16Bits s =
      .ok (b.outChan reg ps.chan
        (BitVec.ofNat 32 (min ⌊fmt.value data * convVoltsTo16Bits / s⌋₊ 32767))) := by
  have hN : ⌊fmt.value data * convVoltsTo16Bits / s⌋₊ < 2 ^ 31 := by
    have hpos := convVoltsTo16Bits_pos
    rw [Nat.floor_lt (by positivity)]
    exact_mod_cast hfit
  rw [Device.outClamped, scaledVal_eq hx convVoltsTo16Bits_pos hs hfit, ← clamp_eq hN]
  rfl

theorem outGain_eq (hx : 0 ≤ fmt.value data)
    (hfit : fmt.value data / (1 / gain20BitFract) < 2 ^ 31) (reg : ChanReg) :
    b.outGain reg ps.chan (fmt.value data) =
      .ok (b.outChan reg ps.chan (BitVec.ofNat 32 ⌊fmt.value data / (1 / gain20BitFract)⌋₊)) := by
  have hgain : (0 : ℚ) < gain20BitFract := by norm_num [gain20BitFract]
  rw [div_div_eq_mul_div, div_one] at hfit ⊢
  have h0 : 0 ≤ fmt.value data * gain20BitFract := by positivity
  rw [Device.outGain, toU32, if_pos ⟨by linarith, by linarith⟩, Int.floor_toNat]
  rfl

/-- The scale factors of a channel are positive. -/
def PositiveFactors (d : Device) (ps : Ps) : Prop := ∀ x ∈ (d.sf ps.chan).members, 0 < x

variable (st : Setting)

/-- Without a resolution, a bit of the DAC is worth nothing. -/
theorem lsb_pos_iff (hcal : b.Calibrated) (hpos : PositiveFactors b.toDevice ps) :
    0 < st.lsb b ps.chan ↔ (st.InDacBits → b.convVoltsToDacBits ≠ 0) := by
  have hmem : ∀ x ∈ (b.sf ps.chan).members, 0 < x := hpos
  simp only [ScaleFactorType.members, List.forall_mem_cons, List.not_mem_nil, IsEmpty.forall_iff,
    implies_true, and_true] at hmem
  obtain ⟨-, hdac, hvout, hignd, hspare, hreg, herr⟩ := hmem
  have h16 := conv16BitsToVolts_pos
  have hgain : (0 : ℚ) < 1 / gain20BitFract := by norm_num [gain20BitFract]
  have hconv : 0 < b.convDacBitsToVolts ↔ b.convVoltsToDacBits ≠ 0 := by
    rw [hcal.inverse, one_div, inv_pos]
    exact ⟨ne_of_gt, fun h => lt_of_le_of_ne hcal.nonneg h.symm⟩
  have hbits : 0 < b.convDacBitsToVolts * (b.sf ps.chan).dacDccts ↔
      (True → b.convVoltsToDacBits ≠ 0) := by
    rw [mul_pos_iff_of_pos_right hdac, hconv, true_imp_iff]
  rcases st with q | q | t
  · cases q
    case dacSetpt | dcct1 | dcct2 => exact hbits
    all_goals exact iff_of_true (mul_pos h16 ‹_›) fun h => h.elim
  · cases q <;> exact iff_of_true hgain fun h => h.elim
  · cases t
    case ovc1 | ovc2 => exact hbits
    all_goals exact iff_of_true (mul_pos h16 ‹_›) fun h => h.elim

/-- **The writer.** All settings but the threshold of the ground current are stored as the count
that the message shows. -/
theorem chanSettings_count (hcal : b.Calibrated) (hpos : PositiveFactors b.toDevice ps)
    (hst : st ≠ .thresh .ignd) (hlsb : 0 < st.lsb b ps.chan) (hx : 0 ≤ fmt.value data)
    (hrange : fmt.value data / st.lsb b ps.chan < st.maximum + 1) :
    chanSettings fmt stack b.toDevice ps.chan st.code data =
      .ok (b.outChan st.reg ps.chan
        (BitVec.ofNat 32 ⌊fmt.value data / st.lsb b ps.chan⌋₊)) := by
  have hmem : ∀ x ∈ (b.sf ps.chan).members, 0 < x := hpos
  simp only [ScaleFactorType.members, List.forall_mem_cons, List.not_mem_nil, IsEmpty.forall_iff,
    implies_true, and_true] at hmem
  obtain ⟨-, hdac, hvout, hignd, hspare, hreg, herr⟩ := hmem
  have hfit : fmt.value data / st.lsb b ps.chan < 2 ^ 31 := by
    have hmax := st.maximum_lt.2.1
    have hcast : (st.maximum : ℚ) + 1 ≤ 2 ^ 31 := by exact_mod_cast hmax
    linarith
  have hres := (lsb_pos_iff st hcal hpos).mp hlsb
  have h16 : b.volts false ≠ 0 := convVoltsTo16Bits_pos.ne'
  have hclamped : ∀ {s : ℚ} (reg : ChanReg), 0 < s →
      fmt.value data / (conv16BitsToVolts * s) < 32767 + 1 →
      b.outClamped reg ps.chan (fmt.value data) convVoltsTo16Bits s =
        .ok (b.outChan reg ps.chan
          (BitVec.ofNat 32 ⌊fmt.value data / (conv16BitsToVolts * s)⌋₊)) := by
    intro s reg hs hlt
    have hcount : fmt.value data / (conv16BitsToVolts * s) =
        fmt.value data * convVoltsTo16Bits / s := by
      rw [conv16BitsToVolts, one_div_mul_eq_div, div_div_eq_mul_div]
    rw [hcount] at hlt ⊢
    have hfloor : ⌊fmt.value data * convVoltsTo16Bits / s⌋₊ < 32768 := by
      have hpos := convVoltsTo16Bits_pos
      rw [Nat.floor_lt (by positivity)]
      norm_num at hlt ⊢
      exact hlt
    rw [outClamped_eq fmt hx hs (by linarith), min_eq_left (by omega)]
  rcases st with q | q | t
  · cases q
    case dacSetpt | dcct1 | dcct2 =>
      exact outScaled_eq fmt hcal hx true (hres trivial) hdac hfit _
    case dacmon => exact outScaled_eq fmt hcal hx false h16 hdac hfit _
    all_goals exact outScaled_eq fmt hcal hx false h16 ‹_› hfit _
  · cases q <;> exact outGain_eq fmt hx hfit _
  · cases t
    case ovc1 | ovc2 => exact outScaled_eq fmt hcal hx true (hres trivial) hdac hfit _
    case ovv => exact hclamped .ovvThresh hvout hrange
    case err1 => exact hclamped .err1Thresh herr hrange
    case err2 => exact hclamped .err2Thresh herr hrange
    case ignd => exact absurd rfl hst

end Write

/-! ## The factors of a board -/

theorem calibrated_read {b b' : Board} {bytes : FlavorReg → BitVec 8}
    (h : b'.flavor = b.flavor.read bytes) (hb : b.Calibrated) : b'.Calibrated := by
  have hconv : b'.convVoltsToDacBits = (b.flavor.read bytes).convVoltsToDacBits :=
    congrArg Flavor.convVoltsToDacBits h
  have hinv : b'.convDacBitsToVolts = (b.flavor.read bytes).convDacBitsToVolts :=
    congrArg Flavor.convDacBitsToVolts h
  refine ⟨?_, ?_⟩
  · rw [hconv, Flavor.read]
    dsimp only
    split_ifs
    · norm_num [convVoltsTo18Bits]
    · norm_num [convVoltsTo20Bits]
    · exact hb.nonneg
  · rw [hconv, hinv, Flavor.read]
    dsimp only
    split_ifs
    · rfl
    · rfl
    · exact hb.inverse

theorem convVolts_flash (d : Device) (f : Bytes) :
    Device.convVoltsToDacBits { d with flash := f } = d.convVoltsToDacBits := rfl

theorem convVolts_perform (stack : Bytes) (i : Access) (d : Device) :
    (i.perform stack d).2.convVoltsToDacBits = d.convVoltsToDacBits := by
  cases i with
  | flashErase c => exact convVolts_flash d _
  | flashWrite c buf => exact convVolts_flash d _
  | _ => rfl

theorem convVolts_clientMsg {fmt : FloatFormat} {stack : Bytes} {d d' : Device}
    {msgid : BitVec 16} {msglen : ℕ} {msg : Bytes}
    (h : clientMsg fmt stack d msgid msglen msg = .ok d') :
    d'.convVoltsToDacBits = d.convVoltsToDacBits := by
  have hblink : (blink d).convVoltsToDacBits = d.convVoltsToDacBits := rfl
  have hglob : ∀ addr data, (globSettings (blink d) addr data).convVoltsToDacBits =
      (blink d).convVoltsToDacBits := fun addr data => by
    unfold globSettings
    split <;> rfl
  unfold clientMsg at h
  split_ifs at h
  · exact Except.ok.inj h ▸ (hglob _ _).trans hblink
  · exact chanSettings_keeps fmt (I := fun d' => d'.convVoltsToDacBits = d.convVoltsToDacBits)
      (fun i d' _ hd' => (convVolts_perform stack i d').trans hd') h hblink
  · exact writeRamptable_keeps fmt (I := fun d' => d'.convVoltsToDacBits = d.convVoltsToDacBits)
      (fun i d' _ hd' => (convVolts_perform (fun _ => 0) i d').trans hd') h hblink
  · exact Except.ok.inj h ▸ hblink

theorem calibrated_boot {fmt : FloatFormat} {reset : BitVec 32 → BitVec 32} (stack flash : Bytes)
    (eeprom : BitVec 8 → BitVec 8) : (boot fmt stack reset flash eeprom).Calibrated := by
  have hon : (powerOn reset flash eeprom).Calibrated := ⟨le_rfl, by norm_num [powerOn]⟩
  exact calibrated_read (flavor_boot fmt stack reset flash eeprom) hon

/-- **The factors of a board.** In every state of every run the two conversion factors agree. -/
theorem calibrated_of_reach {fmt : FloatFormat} {reset : BitVec 32 → BitVec 32} {s : Board}
    (hs : Reach (Board.step fmt reset) (fun _ _ => True)
      (fun b => ∃ stack flash eeprom, b = boot fmt stack reset flash eeprom) s) :
    s.Calibrated := by
  refine Reach.invariant (I := fun s : Board => s.Calibrated) hs ?_ ?_
  · rintro _ ⟨stack, flash, eeprom, rfl⟩
    exact calibrated_boot stack flash eeprom
  · intro b c b' hb _ h
    have hcommand : ∀ d' : Device, d'.convVoltsToDacBits = b.convVoltsToDacBits →
        Board.Calibrated { b with toDevice := d' } := fun d' hd' =>
      ⟨hd'.symm ▸ hb.nonneg, hb.inverse.trans (congrArg (1 / ·) hd'.symm)⟩
    cases c with
    | client stack msgid msglen msg =>
      obtain ⟨d', hd', rfl⟩ := Board.command_eq_some h
      exact hcommand d' (convVolts_clientMsg hd')
    | console stack chan addr data =>
      obtain ⟨d', hd', rfl⟩ := Board.command_eq_some h
      exact hcommand d' (chanSettings_keeps fmt
        (I := fun d' => d'.convVoltsToDacBits = b.convVoltsToDacBits)
        (fun i d' _ hd' => (convVolts_perform stack i d').trans hd') hd' rfl)
    | edit e =>
      obtain rfl := Option.some.inj h
      have hflavor := flavor_exec b e
      by_cases he : e.reads
      · rw [if_pos he] at hflavor
        exact calibrated_read hflavor hb
      · rw [if_neg he] at hflavor
        have hconv : (e.exec b).convVoltsToDacBits = b.convVoltsToDacBits :=
          congrArg Flavor.convVoltsToDacBits hflavor
        have hinv : (e.exec b).convDacBitsToVolts = b.convDacBitsToVolts :=
          congrArg Flavor.convDacBitsToVolts hflavor
        exact ⟨hconv ▸ hb.nonneg, by rw [hinv, hconv, hb.inverse]⟩
    | restart stack =>
      obtain rfl := Option.some.inj h
      exact calibrated_boot stack b.flash b.eeprom

/-! ## The round trip -/

section RoundTrip

variable (fmt : FloatFormat) (stack : Bytes) {b : Board} {ps : Ps} {data : BitVec 32}

theorem chanSettings_ignd (hpos : PositiveFactors b.toDevice ps) (hx : 0 ≤ fmt.value data)
    {u : ℚ} (hu : u = fmt.value data * convVoltsTo16Bits / (b.sf ps.chan).error) :
    chanSettings fmt stack b.toDevice ps.chan (Setting.thresh .ignd).code data =
      if u < 2 ^ 31 then
        .ok (b.outChan (Setting.thresh .ignd).reg ps.chan (BitVec.ofNat 32 (min ⌊u⌋₊ 32767)))
      else .error .conversion := by
  have herr : 0 < (b.sf ps.chan).error := hpos _ (by simp [ScaleFactorType.members])
  have hcase : chanSettings fmt stack b.toDevice ps.chan (Setting.thresh .ignd).code data =
      b.outClamped .igndThresh ps.chan (fmt.value data) convVoltsTo16Bits (b.sf ps.chan).error :=
    rfl
  rw [hcase]
  subst hu
  split_ifs with hfit
  · exact outClamped_eq fmt hx herr hfit .igndThresh
  · rw [Device.outClamped, scaledVal, if_neg herr.ne', toS32, if_neg fun h => hfit h.2]
    rfl

/-- When the threshold of the ground current comes back. -/
theorem ignd_count_iff {y u : ℚ} (hy : y < 32768) (hu0 : 0 ≤ u) :
    (u < 2 ^ 31 ∧ ⌊y⌋ ≤ (min ⌊u⌋₊ 32767 : ℕ) ∧ ((min ⌊u⌋₊ 32767 : ℕ) : ℤ) ≤ ⌈y⌉) ↔
      ⌊y⌋ ≤ u ∧ (u < ⌈y⌉ + 1 ∨ 32766 < y ∧ u < 2 ^ 31) := by
  have hfloor : (⌊u⌋₊ : ℤ) = ⌊u⌋ := Int.natCast_floor_eq_floor hu0
  have hyfloor : ⌊y⌋ < 32768 := by
    rw [Int.floor_lt]
    exact_mod_cast hy
  have hyceil : ⌈y⌉ ≤ 32768 := by
    rw [Int.ceil_le]
    exact_mod_cast hy.le
  have hlow : (⌊y⌋ : ℚ) ≤ u ↔ ⌊y⌋ ≤ ⌊u⌋ := Int.le_floor.symm
  have hhigh : u < ⌈y⌉ + 1 ↔ ⌊u⌋ ≤ ⌈y⌉ := by
    rw [← Int.lt_add_one_iff, Int.floor_lt]
    push_cast
    rfl
  have hbound : 32766 < y ↔ 32767 ≤ ⌈y⌉ := by
    rw [← Int.sub_one_lt_iff, Int.lt_ceil]
    norm_num
  have hfit : u < 2 ^ 31 ↔ ⌊u⌋ < 2 ^ 31 := by
    rw [Int.floor_lt]
    norm_num
  rw [hlow, hhigh, hbound, hfit]
  push_cast
  rw [hfloor]
  omega

end RoundTrip

/-- **Settings read back.** With positive scale factors, a setting that is not negative and in range
is stored, comes back in the message to less than one bit, and no other field of the message moves,
exactly if it is one that reads back. -/
theorem readback_iff (fmt : FloatFormat) (stack : Bytes) (b : Board) (hcal : b.Calibrated) (ps : Ps)
    (hpos : PositiveFactors b.toDevice ps) (st : Setting) (data : BitVec 32)
    (hx : 0 ≤ fmt.value data) (hrange : fmt.value data / st.lsb b ps.chan < st.maximum + 1) :
    (∃ d', chanSettings fmt stack b.toDevice ps.chan st.code data = .ok d' ∧
      (∃ y, saData fmt { b with toDevice := d' } ps.chan st.field = .float (some y) ∧
        |y - fmt.value data| < st.lsb b ps.chan) ∧
      ∀ ps' f, (ps' = ps → f ≠ st.field) →
        saData fmt { b with toDevice := d' } ps'.chan f = saData fmt b ps'.chan f) ↔
    st.ReadsBack b ps.chan (fmt.value data) := by
  by_cases hst : st = .thresh .ignd
  · subst hst
    have hignd : 0 < (b.sf ps.chan).ignd := hpos _ (by simp [ScaleFactorType.members])
    have herr : 0 < (b.sf ps.chan).error := hpos _ (by simp [ScaleFactorType.members])
    have hlsb : 0 < (Setting.thresh .ignd).lsb b ps.chan := mul_pos conv16BitsToVolts_pos hignd
    obtain ⟨u, hu⟩ : ∃ u, u = fmt.value data * convVoltsTo16Bits / (b.sf ps.chan).error := ⟨_, rfl⟩
    have hu0 : 0 ≤ u := by
      have := convVoltsTo16Bits_pos
      rw [hu]
      positivity
    have hy : fmt.value data / (Setting.thresh .ignd).lsb b ps.chan =
        fmt.value data * convVoltsTo16Bits / (b.sf ps.chan).ignd := by
      have hlsb' : (Setting.thresh .ignd).lsb b ps.chan =
          1 / convVoltsTo16Bits * (b.sf ps.chan).ignd := rfl
      rw [hlsb', one_div_mul_eq_div, div_div_eq_mul_div]
    have hrange' : fmt.value data / (Setting.thresh .ignd).lsb b ps.chan < 32768 := by
      have hmax : ((Setting.thresh .ignd).maximum : ℚ) + 1 = 32768 := by norm_num [Setting.maximum]
      linarith
    have hset := chanSettings_ignd fmt stack hpos hx hu
    have hwindow := ignd_count_iff hrange' hu0
    obtain ⟨N, hN⟩ : ∃ N, N = min ⌊u⌋₊ 32767 := ⟨_, rfl⟩
    rw [← hN] at hset hwindow
    have hshown := saData_outChan fmt b (.thresh .ignd) ps
      (hN ▸ min_le_right ⌊u⌋₊ 32767 : N ≤ (Setting.thresh .ignd).maximum)
    rw [Setting.ReadsBack, ← hu, ← hy, ← hwindow, hset, ← abs_mul_sub_lt_iff hlsb]
    generalize Setting.thresh .ignd = st at *
    constructor
    · rintro ⟨d', hd', ⟨y, hy, hlt⟩, -⟩
      split_ifs at hd' with hfit
      obtain rfl := Except.ok.inj hd'
      obtain rfl : _ = y := by simpa using hshown.symm.trans hy
      exact ⟨hfit, hlt⟩
    · rintro ⟨hfit, hlt⟩
      rw [if_pos hfit]
      exact ⟨_, rfl, ⟨_, hshown, hlt⟩, fun ps' f h => saData_outChan_of_ne fmt b _ ps _ h⟩
  · have hback : st.ReadsBack b ps.chan (fmt.value data) ↔ 0 < st.lsb b ps.chan := by
      rw [lsb_pos_iff st hcal hpos]
      rcases st with q | q | t
      · exact Iff.rfl
      · exact Iff.rfl
      · cases t <;> first | exact absurd rfl hst | exact Iff.rfl
    rw [hback]
    constructor
    · rintro ⟨d', -, ⟨y, -, hlt⟩, -⟩
      exact (abs_nonneg _).trans_lt hlt
    intro hlsb
    have hcount : ⌊fmt.value data / st.lsb b ps.chan⌋₊ ≤ st.maximum := by
      rw [← Nat.lt_add_one_iff, Nat.floor_lt (div_nonneg hx hlsb.le)]
      exact_mod_cast hrange
    exact ⟨_, chanSettings_count fmt stack st hcal hpos hst hlsb hx hrange,
      ⟨_, saData_outChan fmt b st ps hcount, abs_floor_mul_sub_lt hx hlsb⟩,
      fun ps' f h => saData_outChan_of_ne fmt b st ps _ h⟩

/-! ### One ampere -/

/-- A 20-bit board whose loop error has twice the scale of the ground current. -/
def groundBoard : Board where
  toDevice := { blankDevice with scalefactors := fun _ => ⟨⟨1, 1⟩, 1, 1, 1, 1, 2⟩ }
  convDacBitsToVolts := 10 / 524288
  eeprom _ := 0

theorem calibrated_groundBoard : groundBoard.Calibrated :=
  ⟨by norm_num [groundBoard, blankDevice], by norm_num [groundBoard, blankDevice]⟩

theorem positiveFactors_groundBoard : PositiveFactors groundBoard.toDevice .ps1 := by
  simp [PositiveFactors, ScaleFactorType.members, groundBoard, Device.sf]

theorem binary32_one : binary32.value 0x3F800000 = 1 := by decide +kernel

/-- An offset of one ampere comes back. -/
theorem offset_reads_back : ∃ d',
    chanSettings binary32 (fun _ => 0) groundBoard.toDevice Ps.ps1.chan 124 0x3F800000 = .ok d' ∧
      (∃ y, saData binary32 { groundBoard with toDevice := d' } Ps.ps1.chan .dcct1Offset =
          .float (some y) ∧
        |y - binary32.value 0x3F800000| < (Setting.offset .dcct1).lsb groundBoard Ps.ps1.chan) ∧
      ∀ ps' f, (ps' = Ps.ps1 → f ≠ .dcct1Offset) →
        saData binary32 { groundBoard with toDevice := d' } ps'.chan f =
          saData binary32 groundBoard ps'.chan f := by
  have hx : 0 ≤ binary32.value 0x3F800000 := by rw [binary32_one]; exact zero_le_one
  have hrange : binary32.value 0x3F800000 / (Setting.offset .dcct1).lsb groundBoard Ps.ps1.chan <
      (Setting.offset .dcct1).maximum + 1 := by
    have hlsb : (Setting.offset .dcct1).lsb groundBoard Ps.ps1.chan = 10 / 524288 * 1 := rfl
    rw [binary32_one, hlsb]
    norm_num [Setting.maximum]
  have hback : (Setting.offset .dcct1).ReadsBack groundBoard Ps.ps1.chan
      (binary32.value 0x3F800000) := fun _ => by norm_num [groundBoard, blankDevice]
  exact (readback_iff binary32 (fun _ => 0) groundBoard calibrated_groundBoard .ps1
    positiveFactors_groundBoard (.offset .dcct1) 0x3F800000 hx hrange).mpr hback

/-- A threshold of one ampere to ground comes back as half an ampere. -/
theorem ground_threshold_misread :
    groundBoard.Calibrated ∧ PositiveFactors groundBoard.toDevice .ps1 ∧
      binary32.value 0x3F800000 / (Setting.thresh .ignd).lsb groundBoard Ps.ps1.chan <
        (Setting.thresh .ignd).maximum + 1 ∧
      ∃ d', chanSettings binary32 (fun _ => 0) groundBoard.toDevice Ps.ps1.chan 208 0x3F800000 =
          .ok d' ∧
      ∃ y, saData binary32 { groundBoard with toDevice := d' } Ps.ps1.chan .igndThresh =
          .float (some y) ∧
        y = 1638 / 3276.8 ∧
        (Setting.thresh .ignd).lsb groundBoard Ps.ps1.chan = 1 / 3276.8 ∧
        (Setting.thresh .ignd).lsb groundBoard Ps.ps1.chan ≤
          |y - binary32.value 0x3F800000| := by
  have hx : 0 ≤ binary32.value 0x3F800000 := by rw [binary32_one]; exact zero_le_one
  have hlsb : (Setting.thresh .ignd).lsb groundBoard Ps.ps1.chan = 1 / 3276.8 := by
    have hlsb : (Setting.thresh .ignd).lsb groundBoard Ps.ps1.chan = 1 / (32768 / 10) * 1 := rfl
    rw [hlsb]
    norm_num
  have hu : (1638.4 : ℚ) = binary32.value 0x3F800000 * convVoltsTo16Bits /
      (groundBoard.sf Ps.ps1.chan).error := by
    have herr : (groundBoard.sf Ps.ps1.chan).error = 2 := rfl
    rw [binary32_one, herr]
    norm_num [convVoltsTo16Bits]
  have hcount : min ⌊(1638.4 : ℚ)⌋₊ 32767 = 1638 := by
    have hfloor : ⌊(1638.4 : ℚ)⌋₊ = 1638 := by
      rw [Nat.floor_eq_iff (by norm_num)]
      norm_num
    rw [hfloor]
    rfl
  have hset := chanSettings_ignd binary32 (fun _ => 0) positiveFactors_groundBoard hx hu
  rw [if_pos (by norm_num), hcount] at hset
  have hshown := saData_outChan binary32 groundBoard (.thresh .ignd) .ps1 (N := 1638)
    (by norm_num [Setting.maximum])
  refine ⟨calibrated_groundBoard, positiveFactors_groundBoard, ?_, _, hset, _, hshown, ?_, hlsb, ?_⟩
  · rw [hlsb, binary32_one]
    norm_num [Setting.maximum]
  · rw [hlsb]
    norm_num
  · rw [hlsb, binary32_one]
    norm_num [abs_of_neg]

end Psc.Control
