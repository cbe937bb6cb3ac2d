import Psc.Control.Settings
import Psc.Net.Framing

/-!
# Ramp table upload

`control.c`: `write_ramptable` takes the points of a ramp as floats, scales them to the DAC and
sends them to the fabric, the length first and then an address and a word for each point. A table of
more than 50000 points is refused before any register is written (`writeRamptable_long`); for any
other, `writeRamptable_ok` gives the writes.
-/

namespace Psc.Control

open Net

/-- `htonl(msgptr[k])`. -/
def msgWord (msg : Bytes) (k : ℕ) : BitVec 32 := htonl (wordAt msg k)

/-- The saturation check on a point. -/
def rampClamp (pscResolution scaled : BitVec 32) : BitVec 32 :=
  if pscResolution = 1 ∧ (0x100000 : BitVec 32).slt scaled.abs then
    if (0 : BitVec 32).slt scaled then 0xFFFFF else -0x100000
  else if pscResolution = 0 ∧ (0x40000 : BitVec 32).slt scaled.abs then
    if (0 : BitVec 32).slt scaled then 0x3FFFF else -0x40000
  else scaled

/-- One pass of the loop of `write_ramptable`. -/
def writePoint (fmt : FloatFormat) (chan : BitVec 32) (msg : Bytes) (pscResolution : BitVec 32)
    (d : Device) (i : ℕ) : Except Trap Device := do
  let scaled ← scaledVal (fmt.value (msgWord msg i)) d.convVoltsToDacBits (d.sf chan).dacDccts
  return (d.outChan .dacRampaddr chan (BitVec.ofNat 32 i)).outChan .dacRampdata chan
    (rampClamp pscResolution scaled)

/-- `write_ramptable`. -/
def writeRamptable (fmt : FloatFormat) (d : Device) (chan : BitVec 32) (msg : Bytes) (msglen : ℕ) :
    Except Trap Device :=
  let rampLen := msglen / 4
  if 50000 < rampLen then .ok d
  else
    let d := d.outChan .dacRamplen chan (BitVec.ofNat 32 rampLen)
    (List.range rampLen).foldlM (writePoint fmt chan msg (d.regs GlobReg.resolution.addr)) d

/-! ## The writes -/

/-- What is sent for the points `pts`. -/
def pointWrites (chan : BitVec 32) (pts : ℕ → BitVec 32) (n : ℕ) : List BusWrite :=
  (List.range n).flatMap fun i =>
    [⟨ChanReg.dacRampaddr.addr chan, BitVec.ofNat 32 i⟩, ⟨ChanReg.dacRampdata.addr chan, pts i⟩]

/-- What is sent for a table. -/
def tableWrites (chan : BitVec 32) (pts : ℕ → BitVec 32) (n : ℕ) : List BusWrite :=
  ⟨ChanReg.dacRamplen.addr chan, BitVec.ofNat 32 n⟩ :: pointWrites chan pts n

/-- The range of the DAC: 18 bits at resolution 0, 20 bits at any other. -/
def InDacRange (pscResolution : BitVec 32) (v : ℤ) : Prop :=
  if pscResolution = 0 then -2 ^ 17 ≤ v ∧ v < 2 ^ 17 else -2 ^ 19 ≤ v ∧ v < 2 ^ 19

theorem InDacRange.twenty {res : BitVec 32} {v : ℤ} (h : InDacRange res v) :
    -2 ^ 19 ≤ v ∧ v < 2 ^ 19 := by
  unfold InDacRange at h
  split_ifs at h <;> omega

theorem rampClamp_of_inRange {res v : BitVec 32} (h : InDacRange res v.toInt) :
    rampClamp res v = v := by
  have habs : v.abs.toInt ≤ v.toInt.natAbs := by
    rw [BitVec.toInt_abs_eq_natAbs]
    split_ifs with hmin
    · rw [hmin]; decide
    · exact le_rfl
  have h1 : ¬(res = 1 ∧ (0x100000 : BitVec 32).slt v.abs = true) := by
    rintro ⟨-, hlt⟩
    rw [BitVec.slt_iff_toInt_lt, show (0x100000 : BitVec 32).toInt = 2 ^ 20 from rfl] at hlt
    have := h.twenty
    omega
  have h0 : ¬(res = 0 ∧ (0x40000 : BitVec 32).slt v.abs = true) := by
    rintro ⟨rfl, hlt⟩
    rw [BitVec.slt_iff_toInt_lt, show (0x40000 : BitVec 32).toInt = 2 ^ 18 from rfl] at hlt
    rw [InDacRange, if_pos rfl] at h
    omega
  rw [rampClamp, if_neg h1, if_neg h0]

section Upload

variable (fmt : FloatFormat) (msg : Bytes)

/-- The points of a table: what a message holds is scaled to values in the range of the DAC. -/
def Scales (d : Device) (chan : BitVec 32) (pts : ℕ → BitVec 32) (n : ℕ) : Prop :=
  ∀ i < n, scaledVal (fmt.value (msgWord msg i)) d.convVoltsToDacBits (d.sf chan).dacDccts =
    .ok (pts i) ∧ InDacRange (d.regs GlobReg.resolution.addr) (pts i).toInt

theorem writePoint_ok {chan : BitVec 32} (res : BitVec 32) {d : Device} {i : ℕ} {v : BitVec 32}
    (hval : scaledVal (fmt.value (msgWord msg i)) d.convVoltsToDacBits (d.sf chan).dacDccts =
      .ok v) :
    writePoint fmt chan msg res d i =
      .ok ((d.outChan .dacRampaddr chan (BitVec.ofNat 32 i)).outChan .dacRampdata chan
        (rampClamp res v)) := by
  rw [writePoint, hval]
  rfl

/-- The loop leaves the scale factors as they are, so each point is scaled alike. -/
theorem writePoints_ok (chan res : BitVec 32) (d : Device) (pts : ℕ → BitVec 32) (n : ℕ)
    (hpts : ∀ i < n, scaledVal (fmt.value (msgWord msg i)) d.convVoltsToDacBits
      (d.sf chan).dacDccts = .ok (pts i)) :
    ∃ d', (List.range n).foldlM (writePoint fmt chan msg res) d = .ok d' ∧
      d'.bus = d.bus ++ pointWrites chan (fun i => rampClamp res (pts i)) n ∧
      d'.convVoltsToDacBits = d.convVoltsToDacBits ∧ d'.scalefactors = d.scalefactors := by
  induction n with
  | zero => exact ⟨d, rfl, by simp [pointWrites], rfl, rfl⟩
  | succ n ih =>
    obtain ⟨d', hfold, hbus, hconv, hsf⟩ := ih fun i hi => hpts i (by omega)
    have hval : scaledVal (fmt.value (msgWord msg n)) d'.convVoltsToDacBits
        (d'.sf chan).dacDccts = .ok (pts n) := by
      rw [hconv, Device.sf, hsf]
      exact hpts n (by omega)
    have hpoint := writePoint_ok fmt msg res hval
    refine ⟨(d'.outChan .dacRampaddr chan (BitVec.ofNat 32 n)).outChan .dacRampdata chan
      (rampClamp res (pts n)), ?_, ?_, hconv, hsf⟩
    · rw [List.range_succ, List.foldlM_append, hfold]
      show (writePoint fmt chan msg res d' n >>= pure) = _
      rw [hpoint]
      rfl
    · show (d'.bus ++ [_]) ++ [_] = _
      rw [hbus, pointWrites, pointWrites, List.range_succ, List.flatMap_append]
      simp

/-- A table of at most 50000 points is sent, each point as the saturation check leaves it. -/
theorem writeRamptable_clamped (d : Device) (pts : ℕ → BitVec 32) (msglen : ℕ)
    (hlen : msglen / 4 ≤ 50000)
    (hpts : ∀ i < msglen / 4, scaledVal (fmt.value (msgWord msg i)) d.convVoltsToDacBits
      (d.sf 1).dacDccts = .ok (pts i)) :
    ∃ d', writeRamptable fmt d 1 msg msglen = .ok d' ∧
      d'.bus = d.bus ++ tableWrites 1
        (fun i => rampClamp (d.regs GlobReg.resolution.addr) (pts i)) (msglen / 4) := by
  have hres : (d.outChan .dacRamplen 1 (BitVec.ofNat 32 (msglen / 4))).regs
      GlobReg.resolution.addr = d.regs GlobReg.resolution.addr :=
    d.xilOut32_regs_of_ne (by decide) _
  obtain ⟨d', hfold, hbus, -, -⟩ := writePoints_ok fmt msg 1 (d.regs GlobReg.resolution.addr)
    (d.outChan .dacRamplen 1 (BitVec.ofNat 32 (msglen / 4))) pts (msglen / 4) hpts
  refine ⟨d', ?_, ?_⟩
  · rw [writeRamptable, if_neg (by omega)]
    simp only [hres]
    exact hfold
  · rw [hbus]
    show d.bus ++ [_] ++ _ = _
    rw [List.append_assoc]
    rfl

theorem tableWrites_congr {pts pts' : ℕ → BitVec 32} {n : ℕ} (chan : BitVec 32)
    (h : ∀ i < n, pts i = pts' i) : tableWrites chan pts n = tableWrites chan pts' n := by
  unfold tableWrites pointWrites
  congr 1
  refine List.flatMap_congr fun i hi => ?_
  rw [h i (List.mem_range.mp hi)]

/-- A table of at most 50000 points in the range of the DAC is sent as it is. -/
theorem writeRamptable_ok (d : Device) (pts : ℕ → BitVec 32) (msglen : ℕ)
    (hlen : msglen / 4 ≤ 50000) (hpts : Scales fmt msg d 1 pts (msglen / 4)) :
    ∃ d', writeRamptable fmt d 1 msg msglen = .ok d' ∧
      d'.bus = d.bus ++ tableWrites 1 pts (msglen / 4) := by
  obtain ⟨d', hok, hbus⟩ := writeRamptable_clamped fmt msg d pts msglen hlen
    fun i hi => (hpts i hi).1
  refine ⟨d', hok, ?_⟩
  rw [hbus, tableWrites_congr 1 fun i hi => rampClamp_of_inRange (hpts i hi).2]

/-- A longer table is refused. -/
theorem writeRamptable_long (d : Device) (chan : BitVec 32) {msglen : ℕ}
    (hlen : 50000 < msglen / 4) : writeRamptable fmt d chan msg msglen = .ok d := by
  rw [writeRamptable]
  exact if_pos hlen

end Upload

end Psc.Control
