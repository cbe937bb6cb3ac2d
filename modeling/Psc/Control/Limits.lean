import Psc.Control.Settings
import Psc.Fault.Reset

/-!
# Fault settings

From the command that sets a fault threshold or a count limit to what the fault block compares: the
value is scaled, written to a register, cut to the width of its field and wired to a parameter.

1. The count limits of ten sources arrive, that of the DCCT status does not: `ps_io.vhd` has no line
   for it (`cntlim_takes_effect_iff`).
2. The 16-bit thresholds are bounded before they are written. The 20-bit ones and the limits are
   not, and wrap (`saturates_iff`).
-/

namespace Psc.Control

open Clocked FaultBlock

theorem toS32_of_nonneg {x : ℚ} (h0 : 0 ≤ x) (h1 : x < 2 ^ 31) :
    toS32 x = .ok (BitVec.ofNat 32 ⌊x⌋₊) := by
  have hfloor : ⌊x⌋ = (⌊x⌋₊ : ℤ) := (Int.natCast_floor_eq_floor h0).symm
  rw [toS32, if_pos ⟨by linarith, h1⟩, if_pos h0, hfloor, BitVec.ofInt_natCast]

/-! ## Count limits -/

/-- The message that sets the count limit of a source. -/
def cntlimCode : Source → BitVec 32
  | .ovc1 => 212
  | .ovc2 => 216
  | .ovv => 220
  | .err1 => 224
  | .err2 => 228
  | .ignd => 232
  | .dcct => 236
  | .flt1 => 240
  | .flt2 => 244
  | .flt3 => 248
  | .on => 252

/-- The register of the count limit of a source. -/
def cntlimReg : Source → ChanReg
  | .ovc1 => .ovc1Cntlim
  | .ovc2 => .ovc2Cntlim
  | .ovv => .ovvCntlim
  | .err1 => .err1Cntlim
  | .err2 => .err2Cntlim
  | .ignd => .igndCntlim
  | .dcct => .dcctCntlim
  | .flt1 => .flt1Cntlim
  | .flt2 => .flt2Cntlim
  | .flt3 => .flt3Cntlim
  | .on => .onCntlim

section Wiring

variable (fmt : FloatFormat) (stack : Bytes) (d : Device) (ps : Ps) (src : Source)

theorem chanSettings_cntlim (data : BitVec 32) :
    chanSettings fmt stack d ps.chan (cntlimCode src) data =
      d.outLimit (cntlimReg src) ps.chan (fmt.value data) := by
  cases src <;> rfl

theorem fieldWidth_cntlim : fieldWidth ((cntlimReg src).addr ps.chan) = 16 := by
  cases src <;> cases ps <;> rfl

theorem cntlim_psIo (regs : BitVec 32 → BitVec 32) (undriven : BitVec 16) :
    src.cntlim (psIo regs undriven ps) =
      if src = .dcct then undriven.toNat
      else ((regs ((cntlimReg src).addr ps.chan)).setWidth 16).toNat := by
  cases src with
  | dcct => rfl
  | _ => cases ps <;> rfl

variable {d ps src} in
theorem cntlim_lt_of_chanSettings {data : BitVec 32} {d' : Device}
    (h : chanSettings fmt stack d ps.chan (cntlimCode src) data = .ok d') :
    (d'.regs ((cntlimReg src).addr ps.chan)).toNat < 2 ^ 16 := by
  rw [chanSettings_cntlim, Device.outLimit] at h
  cases hv : toS32 (fmt.value data * sampleRate) with
  | error e => rw [hv] at h; exact absurd h (by simp [bind, Except.bind])
  | ok v =>
    rw [hv] at h
    obtain rfl : d.outChan (cntlimReg src) ps.chan v = d' := by
      simpa [bind, Except.bind, pure, Except.pure] using h
    rw [Device.outChan_regs, toNat_stored (fieldWidth_cntlim ps src) (by norm_num)]
    exact Nat.mod_lt _ (by norm_num)

end Wiring

/-- With `v` in the limit register of a source, and its trip condition held from a cleared counter
on, the live bit is up exactly after `v + 1` ticks. -/
def TakesEffect (undriven : BitVec 16) (ps : Ps) (src : Source) (v : BitVec 32) : Prop :=
  ∀ (regs : ℕ → BitVec 32 → BitVec 32) (s : State) (inp : ℕ → Input),
    (∀ n, (inp n).faultParams = psIo (regs n) undriven ps) → (∀ n, (inp n).reset = false) →
    (∀ n, regs n ((cntlimReg src).addr ps.chan) = v) → src.counter s = ⟨0, false⟩ →
    (∀ n, src.trips (run step s inp n) (inp n) = true) →
    ∀ n, src.live (run step s inp n) = true ↔
      v.toNat + 1 ≤ tickCount (fun k => (run step s inp k).tenKhzPulse) n

theorem live_iff_of_held {src : Source} {s : State} {inp : ℕ → Input} {L : ℕ}
    (hr : ∀ n, (inp n).reset = false) (hlim : ∀ n, src.cntlim (inp n).faultParams = L)
    (h0 : src.counter s = ⟨0, false⟩) (htrips : ∀ n, src.trips (run step s inp n) (inp n) = true)
    (n : ℕ) :
    src.live (run step s inp n) = true ↔
      L + 1 ≤ tickCount (fun k => (run step s inp k).tenKhzPulse) n := by
  have hL : L < src.modulus := by
    rw [← hlim 0]
    exact src.cntlim_lt _
  exact TripCounter.live_iff_le_tickCount (counter_follows hr s src) htrips hlim hL h0 n

theorem takesEffect_of_wired {undriven : BitVec 16} {ps : Ps} {src : Source} {v : BitVec 32}
    (hv : v.toNat < 2 ^ 16) (h : src ≠ .dcct ∨ v.toNat = undriven.toNat) :
    TakesEffect undriven ps src v := by
  intro regs s inp hparams hr hregs h0 htrips n
  refine live_iff_of_held hr (fun k => ?_) h0 htrips n
  rw [hparams, cntlim_psIo, hregs, BitVec.toNat_setWidth, Nat.mod_eq_of_lt hv]
  split_ifs with hsrc
  · rcases h with h | h
    · exact absurd hsrc h
    · exact h.symm
  · rfl

/-! The DCCT status is faulty from the start, with a tick at every clock and `v` in the limit
register. -/

/-- The registers: all zero but the limit. -/
def dcctRegs (ps : Ps) (v : BitVec 32) : BitVec 32 → BitVec 32 :=
  Function.update (fun _ => 0) ((cntlimReg .dcct).addr ps.chan) v

/-- The inputs of the fault block. -/
def dcctHeld (undriven : BitVec 16) (ps : Ps) (v : BitVec 32) : Input :=
  { restInput 0 with
    tenkhzTrig := true
    dcctFault := false
    faultParams := psIo (dcctRegs ps v) undriven ps }

section DcctHeld

variable (undriven : BitVec 16) (ps : Ps) (v : BitVec 32)

theorem clear_dcctHeld : (dcctHeld undriven ps v).faultParams.clear = false := by
  have hne : rdlAddr ps 0xD4 ≠ (cntlimReg .dcct).addr ps.chan := by
    cases ps <;> decide
  show (dcctRegs ps v (rdlAddr ps 0xD4)).getLsbD 0 = false
  rw [dcctRegs, Function.update_of_ne hne]
  rfl

theorem trips_dcctHeld (n : ℕ) :
    Source.trips (run step restState (fun _ => dcctHeld undriven ps v) n)
      (dcctHeld undriven ps v) .dcct = true := by
  have hlow : (run step restState (fun _ => dcctHeld undriven ps v) n).clearPulse = false ∧
      (run step restState (fun _ => dcctHeld undriven ps v) n).re = false := by
    induction n with
    | zero => exact ⟨rfl, rfl⟩
    | succ n ih =>
      refine ⟨?_, clear_dcctHeld undriven ps v⟩
      rw [run_succ, clearPulse_step, risen, ih.1, ih.2]
      rfl
  show (true && true && !_) = true
  rw [hlow.1]
  rfl

theorem not_takesEffect_dcct (hne : v.toNat ≠ undriven.toNat) :
    ¬TakesEffect undriven ps .dcct v := by
  intro h
  have hv := h (fun _ => dcctRegs ps v) restState (fun _ => dcctHeld undriven ps v) (fun _ => rfl)
    (fun _ => rfl) (fun _ => Function.update_self ..) rfl (trips_dcctHeld undriven ps v)
  have hu : ∀ n, Source.live (run step restState (fun _ => dcctHeld undriven ps v) n) .dcct = true ↔
      undriven.toNat + 1 ≤ tickCount _ n :=
    live_iff_of_held (fun _ => rfl) (fun _ => rfl) rfl (trips_dcctHeld undriven ps v)
  have hticks : ∀ n, ∃ u, n ≤ u ∧
      (run step restState (fun _ => dcctHeld undriven ps v) u).tenKhzPulse = true :=
    fun n => ⟨n + 3, by omega, tenKhzPulse_run restState (fun _ => dcctHeld undriven ps v) n⟩
  -- after as many ticks as the smaller of the two asks for, they differ
  obtain ⟨n, hn, -⟩ := exists_tickCount_eq hticks (min v.toNat undriven.toNat + 1)
  have hboth := (hv n).symm.trans (hu n)
  rw [hn] at hboth
  omega

end DcctHeld

/-- **Count limits end to end.** A limit command leaves a 16-bit value in the register of its
source, and that value takes effect exactly if the source is not the DCCT status, or the value
happens to be the one the undriven field has. -/
theorem cntlim_takes_effect_iff (fmt : FloatFormat) (stack : Bytes) (undriven : BitVec 16)
    (d d' : Device) (ps : Ps) (src : Source) (data : BitVec 32)
    (h : chanSettings fmt stack d ps.chan (cntlimCode src) data = .ok d') :
    (d'.regs ((cntlimReg src).addr ps.chan)).toNat < 2 ^ 16 ∧
      (TakesEffect undriven ps src (d'.regs ((cntlimReg src).addr ps.chan)) ↔
        src ≠ .dcct ∨ (d'.regs ((cntlimReg src).addr ps.chan)).toNat = undriven.toNat) := by
  have hlt := cntlim_lt_of_chanSettings fmt stack h
  refine ⟨hlt, ?_, takesEffect_of_wired hlt⟩
  intro heff
  by_contra hne
  push Not at hne
  obtain ⟨rfl, hne⟩ := hne
  exact not_takesEffect_dcct undriven ps _ hne heff

/-- A device with all registers zero, unit scale factors and a 20-bit DAC. -/
def blankDevice : Device where
  regs _ := 0
  scalefactors _ := ⟨⟨1, 1⟩, 1, 1, 1, 1, 1⟩
  convVoltsToDacBits := 524288 / 10
  flash _ := 0xFF
  bus := []

/-- Single-precision words, for commands that only read them. -/
def readFloats : FloatFormat := ⟨binary32Value, fun _ => 0, 0x7F800000⟩

theorem readFloats_value {w : BitVec 32} {m e : ℕ} (hs : w.msb = false)
    (hm : (w.extractLsb' 0 23).toNat = m) (he : (w.extractLsb' 23 8).toNat = e) (h0 : e ≠ 0) :
    readFloats.value w = (2 ^ 23 + m) * 2 ^ e / 2 ^ 150 := by
  show binary32Value w = _
  simp only [binary32Value, hm, he, hs, if_neg h0]
  norm_num

theorem readFloats_one : readFloats.value 0x3F800000 = 1 := by
  rw [readFloats_value (m := 0) (e := 127) (by decide) (by decide) (by decide) (by norm_num)]
  norm_num

theorem chanSettings_one_second (src : Source) :
    chanSettings readFloats (fun _ => 0) blankDevice Ps.ps1.chan (cntlimCode src) 0x3F800000 =
      .ok (blankDevice.outChan (cntlimReg src) Ps.ps1.chan 10000) := by
  have hlim : toS32 (1 * sampleRate) = .ok 10000 := by
    rw [sampleRate, toS32_of_nonneg (by norm_num) (by norm_num)]
    norm_num
    rfl
  rw [chanSettings_cntlim, Device.outLimit, readFloats_one, hlim]
  rfl

/-- The limit of the first supply's ground current takes effect. -/
theorem ignd_limit_takes_effect :
    TakesEffect 0 .ps1 .ignd
      ((blankDevice.outChan .igndCntlim Ps.ps1.chan 10000).regs
        (ChanReg.addr .igndCntlim Ps.ps1.chan)) :=
  (cntlim_takes_effect_iff readFloats (fun _ => 0) 0 blankDevice _ .ps1 .ignd 0x3F800000
    (chanSettings_one_second .ignd)).2.mpr (Or.inl (by decide))

/-- With the undriven field at zero, a second for the DCCT status is no delay: the register holds
10000, and the fault block trips at the first tick. -/
theorem dcct_limit_ignored :
    chanSettings readFloats (fun _ => 0) blankDevice Ps.ps1.chan (cntlimCode .dcct) 0x3F800000 =
        .ok (blankDevice.outChan .dcctCntlim Ps.ps1.chan 10000) ∧
      (blankDevice.outChan .dcctCntlim Ps.ps1.chan 10000).regs
        (ChanReg.addr .dcctCntlim Ps.ps1.chan) = 10000 ∧
      ¬TakesEffect 0 .ps1 .dcct 10000 :=
  ⟨chanSettings_one_second .dcct, by decide, not_takesEffect_dcct 0 .ps1 10000 (by decide)⟩

/-! ## Saturation -/

/-- The settings of the fault block that are given as a quantity. -/
inductive FaultSetting where
  | ovc1Thresh | ovc2Thresh | ovvThresh | err1Thresh | err2Thresh | igndThresh
  | cntlim (src : Source)
  | heartCntlim
  deriving DecidableEq

namespace FaultSetting

/-- The message of a setting. -/
def code : FaultSetting → BitVec 32
  | ovc1Thresh => 188
  | ovc2Thresh => 192
  | ovvThresh => 196
  | err1Thresh => 200
  | err2Thresh => 204
  | igndThresh => 208
  | cntlim src => cntlimCode src
  | heartCntlim => 256

/-- The register of a setting. -/
def reg : FaultSetting → ChanReg
  | ovc1Thresh => .ovc1Thresh
  | ovc2Thresh => .ovc2Thresh
  | ovvThresh => .ovvThresh
  | err1Thresh => .err1Thresh
  | err2Thresh => .err2Thresh
  | igndThresh => .igndThresh
  | cntlim src => cntlimReg src
  | heartCntlim => .heartbeatCntlim

/-- The scaled value of a quantity, before it is converted. -/
def scaled (d : Device) (chan : BitVec 32) (x : ℚ) : FaultSetting → ℚ
  | ovc1Thresh | ovc2Thresh => x * d.convVoltsToDacBits / (d.sf chan).dacDccts
  | ovvThresh => x * convVoltsTo16Bits / (d.sf chan).vout
  | err1Thresh | err2Thresh | igndThresh => x * convVoltsTo16Bits / (d.sf chan).error
  | cntlim _ | heartCntlim => x * sampleRate

/-- The largest magnitude the field can hold. -/
def maximum : FaultSetting → ℕ
  | ovc1Thresh | ovc2Thresh => 2 ^ 19 - 1
  | ovvThresh | err1Thresh | err2Thresh | igndThresh => 2 ^ 15 - 1
  | cntlim _ | heartCntlim => 65535

/-- The magnitude the fault block has to compare with. -/
def compared (regs : BitVec 32 → BitVec 32) (undriven : BitVec 16) (ps : Ps) : FaultSetting → ℕ
  | ovc1Thresh => (psIo regs undriven ps).ovc1Thresh.toInt.natAbs
  | ovc2Thresh => (psIo regs undriven ps).ovc2Thresh.toInt.natAbs
  | ovvThresh => (psIo regs undriven ps).ovvThresh.toInt.natAbs
  | err1Thresh => (psIo regs undriven ps).err1Thresh.toInt.natAbs
  | err2Thresh => (psIo regs undriven ps).err2Thresh.toInt.natAbs
  | igndThresh => (psIo regs undriven ps).igndThresh.toInt.natAbs
  | cntlim src => src.cntlim (psIo regs undriven ps)
  | heartCntlim => (Control.heartCntlim regs ps).toNat

/-- The scaled value `N` is not distorted by its way to the fault block. -/
def Undistorted (undriven : BitVec 16) (N : ℕ) : FaultSetting → Prop
  | ovc1Thresh | ovc2Thresh =>
    N ≤ 2 ^ 19 - 1 ∨ N % 2 ^ 20 = 2 ^ 19 - 1 ∨ N % 2 ^ 20 = 2 ^ 19 + 1
  | ovvThresh | err1Thresh | err2Thresh | igndThresh => True
  | cntlim .dcct => undriven.toNat = min N 65535
  | cntlim _ | heartCntlim => N ≤ 65535 ∨ N % 2 ^ 16 = 65535

end FaultSetting

theorem natAbs_toInt_setWidth {w : ℕ} {v : BitVec 32} {n : ℕ} (hv : v.toNat = n % 2 ^ w) :
    (v.setWidth w).toInt.natAbs =
      if 2 * (n % 2 ^ w) < 2 ^ w then n % 2 ^ w else 2 ^ w - n % 2 ^ w := by
  have hlt : n % 2 ^ w < 2 ^ w := Nat.mod_lt _ (by positivity)
  rw [BitVec.toInt_eq_toNat_cond, BitVec.toNat_setWidth, hv, Nat.mod_mod]
  split_ifs
  · exact Int.natAbs_natCast _
  · rw [← Int.natAbs_neg, neg_sub, ← Nat.cast_sub hlt.le, Int.natAbs_natCast]

section Fields

variable {v : BitVec 32} {N : ℕ}

theorem thresh20_iff (hv : v.toNat = N % 2 ^ 20) :
    (v.setWidth 20).toInt.natAbs = min N (2 ^ 19 - 1) ↔
      N ≤ 2 ^ 19 - 1 ∨ N % 2 ^ 20 = 2 ^ 19 - 1 ∨ N % 2 ^ 20 = 2 ^ 19 + 1 := by
  rw [natAbs_toInt_setWidth hv]
  split_ifs
  · omega
  · omega

theorem thresh16_eq (hv : v.toNat = min N 32767 % 2 ^ 16) :
    (v.setWidth 16).toInt.natAbs = min N (2 ^ 15 - 1) := by
  rw [natAbs_toInt_setWidth hv]
  split_ifs
  · omega
  · omega

theorem limit16_iff (hv : v.toNat = N % 2 ^ 16) :
    (v.setWidth 16).toNat = min N 65535 ↔ N ≤ 65535 ∨ N % 2 ^ 16 = 65535 := by
  rw [BitVec.toNat_setWidth, hv, Nat.mod_mod]
  omega

end Fields

/-- What is written for the scaled value `N`. -/
def FaultSetting.written (N : ℕ) : FaultSetting → ℕ
  | ovvThresh | err1Thresh | err2Thresh | igndThresh => min N 32767
  | _ => N

/-- The scale factors of a channel are positive. -/
structure PositiveScales (d : Device) (chan : BitVec 32) : Prop where
  conv : 0 < d.convVoltsToDacBits
  dacDccts : 0 < (d.sf chan).dacDccts
  vout : 0 < (d.sf chan).vout
  error : 0 < (d.sf chan).error

theorem scaledVal_eq {x conv sf : ℚ} (hx : 0 ≤ x) (hconv : 0 < conv) (hsf : 0 < sf)
    (hfit : x * conv / sf < 2 ^ 31) :
    scaledVal x conv sf = .ok (BitVec.ofNat 32 ⌊x * conv / sf⌋₊) := by
  rw [scaledVal, if_neg hsf.ne', toS32_of_nonneg (by positivity) hfit]

theorem convVoltsTo16Bits_pos : 0 < convVoltsTo16Bits := by norm_num [convVoltsTo16Bits]

theorem clamp_eq {N : ℕ} (hN : N < 2 ^ 31) :
    (if (32767 : BitVec 32).sle (BitVec.ofNat 32 N) then 32767 else BitVec.ofNat 32 N) =
      BitVec.ofNat 32 (min N 32767) := by
  have hint : (BitVec.ofNat 32 N).toInt = N := by
    rw [BitVec.toInt_ofNat', Int.bmod_eq_of_le_mul_two]
    · push_cast; omega
    · push_cast; omega
  have hle : (32767 : BitVec 32).sle (BitVec.ofNat 32 N) = decide (32767 ≤ N) := by
    rw [BitVec.sle_eq_decide, hint, decide_eq_decide]
    exact Nat.cast_le (α := ℤ) (m := 32767)
  rw [hle]
  by_cases h : 32767 ≤ N
  · rw [if_pos (decide_eq_true h), min_eq_right h]
    rfl
  · rw [if_neg (by simpa using h), min_eq_left (by omega)]

section Saturation

variable (fmt : FloatFormat) (stack : Bytes) {d : Device} {ps : Ps} {data : BitVec 32}
  (st : FaultSetting)

/-- The command succeeds and writes the scaled value. -/
theorem chanSettings_setting (hpos : PositiveScales d ps.chan) (hx : 0 ≤ fmt.value data)
    (hfit : st.scaled d ps.chan (fmt.value data) < 2 ^ 31) :
    chanSettings fmt stack d ps.chan st.code data =
      .ok (d.outChan st.reg ps.chan
        (BitVec.ofNat 32 (st.written ⌊st.scaled d ps.chan (fmt.value data)⌋₊))) := by
  have hscaled : ∀ reg conv sf, 0 < conv → 0 < sf → fmt.value data * conv / sf < 2 ^ 31 →
      d.outScaled reg ps.chan (fmt.value data) conv sf =
        .ok (d.outChan reg ps.chan (BitVec.ofNat 32 ⌊fmt.value data * conv / sf⌋₊)) := by
    intro reg conv sf hconv hsf hlt
    rw [Device.outScaled, scaledVal_eq hx hconv hsf hlt]
    rfl
  have hclamped : ∀ reg sf, 0 < sf → fmt.value data * convVoltsTo16Bits / sf < 2 ^ 31 →
      d.outClamped reg ps.chan (fmt.value data) convVoltsTo16Bits sf =
        .ok (d.outChan reg ps.chan
          (BitVec.ofNat 32 (min ⌊fmt.value data * convVoltsTo16Bits / sf⌋₊ 32767))) := by
    intro reg sf hsf hlt
    have hN : ⌊fmt.value data * convVoltsTo16Bits / sf⌋₊ < 2 ^ 31 := by
      have h0 : 0 ≤ fmt.value data * convVoltsTo16Bits / sf := by
        have := convVoltsTo16Bits_pos
        positivity
      rw [Nat.floor_lt h0]
      exact_mod_cast hlt
    rw [Device.outClamped, scaledVal_eq hx convVoltsTo16Bits_pos hsf hlt, ← clamp_eq hN]
    rfl
  have hlimit : ∀ reg, fmt.value data * sampleRate < 2 ^ 31 →
      d.outLimit reg ps.chan (fmt.value data) =
        .ok (d.outChan reg ps.chan (BitVec.ofNat 32 ⌊fmt.value data * sampleRate⌋₊)) := by
    intro reg hlt
    have h0 : 0 ≤ fmt.value data * sampleRate := mul_nonneg hx (by norm_num [sampleRate])
    rw [Device.outLimit, toS32_of_nonneg h0 hlt]
    rfl
  cases st with
  | ovc1Thresh => exact hscaled .ovc1Thresh _ _ hpos.conv hpos.dacDccts hfit
  | ovc2Thresh => exact hscaled .ovc2Thresh _ _ hpos.conv hpos.dacDccts hfit
  | ovvThresh => exact hclamped .ovvThresh _ hpos.vout hfit
  | err1Thresh => exact hclamped .err1Thresh _ hpos.error hfit
  | err2Thresh => exact hclamped .err2Thresh _ hpos.error hfit
  | igndThresh => exact hclamped .igndThresh _ hpos.error hfit
  | cntlim src => exact (chanSettings_cntlim fmt stack d ps src data).trans (hlimit _ hfit)
  | heartCntlim => exact hlimit .heartbeatCntlim hfit

/-- The width of the field of a setting. -/
def FaultSetting.width : FaultSetting → ℕ
  | ovc1Thresh | ovc2Thresh => 20
  | _ => 16

theorem fieldWidth_setting (ps : Ps) : fieldWidth (st.reg.addr ps.chan) = st.width := by
  cases st with
  | cntlim src => exact fieldWidth_cntlim ps src
  | _ => cases ps <;> rfl

/-- What the fault block compares with, after `w` was written to the register of the setting. -/
theorem compared_outChan (undriven : BitVec 16) (d : Device) (ps : Ps) (N : ℕ) (hN : N < 2 ^ 31) :
    st.compared (d.outChan st.reg ps.chan (BitVec.ofNat 32 (st.written N))).regs undriven ps =
        min N st.maximum ↔ st.Undistorted undriven N := by
  have hreg : ((d.outChan st.reg ps.chan (BitVec.ofNat 32 (st.written N))).regs
      (st.reg.addr ps.chan)).toNat = st.written N % 2 ^ st.width := by
    have hlt : st.written N < 2 ^ 32 := by
      cases st <;> simp only [FaultSetting.written] <;> omega
    rw [Device.outChan_regs, toNat_stored (fieldWidth_setting st ps)
      (by cases st <;> norm_num [FaultSetting.width]),
      BitVec.toNat_ofNat, Nat.mod_eq_of_lt hlt]
  generalize (d.outChan st.reg ps.chan (BitVec.ofNat 32 (st.written N))).regs = regs at hreg ⊢
  cases st with
  | ovc1Thresh => cases ps <;> exact thresh20_iff hreg
  | ovc2Thresh => cases ps <;> exact thresh20_iff hreg
  | ovvThresh => cases ps <;> exact iff_true_intro (thresh16_eq hreg)
  | err1Thresh => cases ps <;> exact iff_true_intro (thresh16_eq hreg)
  | err2Thresh => cases ps <;> exact iff_true_intro (thresh16_eq hreg)
  | igndThresh => cases ps <;> exact iff_true_intro (thresh16_eq hreg)
  | heartCntlim => cases ps <;> exact limit16_iff hreg
  | cntlim src =>
    show src.cntlim (psIo regs undriven ps) = min N 65535 ↔ _
    rw [cntlim_psIo]
    cases src with
    | dcct => exact Iff.rfl
    | _ => exact limit16_iff hreg

end Saturation

/-- **Saturation.** With positive scale factors, a quantity that is not negative and whose scaled
value fits an `s32` is accepted; what the fault block then compares with is the scaled value,
bounded by the largest the field can hold, exactly if the value is not distorted on its way: for the
20-bit thresholds and the limits, if it fits the field or wraps to its largest magnitude; for the
limit of the DCCT status, if the undriven field happens to have it. -/
theorem saturates_iff (fmt : FloatFormat) (stack : Bytes) (undriven : BitVec 16) (d : Device)
    (ps : Ps) (st : FaultSetting) (data : BitVec 32) (hpos : PositiveScales d ps.chan)
    (hx : 0 ≤ fmt.value data) (hfit : st.scaled d ps.chan (fmt.value data) < 2 ^ 31) :
    ∃ d', chanSettings fmt stack d ps.chan st.code data = .ok d' ∧
      (st.compared d'.regs undriven ps =
          min ⌊st.scaled d ps.chan (fmt.value data)⌋₊ st.maximum ↔
        st.Undistorted undriven ⌊st.scaled d ps.chan (fmt.value data)⌋₊) := by
  refine ⟨_, chanSettings_setting fmt stack st hpos hx hfit, compared_outChan st undriven d ps _ ?_⟩
  exact_mod_cast (Nat.floor_lt' (by norm_num)).mpr (by exact_mod_cast hfit)

theorem positiveScales_blankDevice : PositiveScales blankDevice Ps.ps1.chan :=
  ⟨by norm_num [blankDevice], one_pos, one_pos, one_pos⟩

theorem readFloats_eleven : readFloats.value 0x41300000 = 11 := by
  rw [readFloats_value (m := 3145728) (e := 130) (by decide) (by decide) (by decide) (by norm_num)]
  norm_num

theorem readFloats_seven : readFloats.value 0x40E00000 = 7 := by
  rw [readFloats_value (m := 6291456) (e := 129) (by decide) (by decide) (by decide) (by norm_num)]
  norm_num

/-- Eleven volts for the voltage threshold are bounded. -/
theorem ovv_saturates :
    ∃ d', chanSettings readFloats (fun _ => 0) blankDevice Ps.ps1.chan 196 0x41300000 = .ok d' ∧
      FaultSetting.compared d'.regs 0 .ps1 .ovvThresh = 32767 := by
  have hscaled : FaultSetting.scaled blankDevice Ps.ps1.chan 11 .ovvThresh = 11 * 32768 / 10 := by
    show 11 * convVoltsTo16Bits / 1 = _
    norm_num [convVoltsTo16Bits]
  have hval := readFloats_eleven
  obtain ⟨d', hd', h⟩ := saturates_iff readFloats (fun _ => 0) 0 blankDevice .ps1 .ovvThresh
    0x41300000 positiveScales_blankDevice (by rw [hval]; norm_num)
    (by rw [hval, hscaled]; norm_num)
  refine ⟨d', hd', ?_⟩
  rw [h.mpr trivial, hval, hscaled]
  exact min_eq_right (Nat.le_floor (by norm_num [FaultSetting.maximum]))

/-- Eleven amps for an over-current threshold of at most ten become nine; seven seconds for a limit
of at most six and a half become less than half a second. -/
theorem settings_wrap :
    (∃ d', chanSettings readFloats (fun _ => 0) blankDevice Ps.ps1.chan 188 0x41300000 = .ok d' ∧
      FaultSetting.scaled blankDevice Ps.ps1.chan (readFloats.value 0x41300000) .ovc1Thresh =
        576716 + 4 / 5 ∧
      FaultSetting.compared d'.regs 0 .ps1 .ovc1Thresh = 471860) ∧
    (∃ d', chanSettings readFloats (fun _ => 0) blankDevice Ps.ps1.chan 212 0x40E00000 = .ok d' ∧
      FaultSetting.scaled blankDevice Ps.ps1.chan (readFloats.value 0x40E00000) (.cntlim .ovc1) =
        70000 ∧
      FaultSetting.compared d'.regs 0 .ps1 (.cntlim .ovc1) = 4464) := by
  have hthresh : FaultSetting.scaled blankDevice Ps.ps1.chan (readFloats.value 0x41300000)
      .ovc1Thresh = 576716 + 4 / 5 := by
    rw [readFloats_eleven]
    show (11 : ℚ) * (524288 / 10) / 1 = _
    norm_num
  have hlimit : FaultSetting.scaled blankDevice Ps.ps1.chan (readFloats.value 0x40E00000)
      (.cntlim .ovc1) = 70000 := by
    rw [readFloats_seven]
    show (7 : ℚ) * sampleRate = _
    norm_num [sampleRate]
  refine ⟨⟨_, chanSettings_setting readFloats (fun _ => 0) .ovc1Thresh positiveScales_blankDevice
      (by rw [readFloats_eleven]; norm_num) (by rw [hthresh]; norm_num), hthresh, ?_⟩,
    ⟨_, chanSettings_setting readFloats (fun _ => 0) (.cntlim .ovc1) positiveScales_blankDevice
      (by rw [readFloats_seven]; norm_num) (by rw [hlimit]; norm_num), hlimit, ?_⟩⟩
  · rw [hthresh, (Nat.floor_eq_iff (by norm_num)).mpr
      (show ((576716 : ℕ) : ℚ) ≤ 576716 + 4 / 5 ∧ _ by norm_num)]
    decide
  · rw [hlimit, show ⌊(70000 : ℚ)⌋₊ = 70000 by norm_num]
    decide

end Psc.Control
