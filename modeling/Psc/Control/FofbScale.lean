import Psc.Control.Restore

/-!
# The FOFB scale factor

In FOFB mode the fabric takes amps from the network and turns them into bits with the register
`FOFB_SCALEFACTOR_REG`. The software computes its word from `CONVVOLTSTODACBITS` and the factor
`dac_dccts` of the channel, in `Set_dacOpmode` and in `SF_DAC_DCCTS_MSG`.

A restore from the flash and another resolution change what the word is computed from and leave the
word, and a number that addresses the registers of a channel need not be that of its scale factors.
`ChanMsg.Steady` and `Command.Steady` say when each command is harmless (`tracks_step_iff`), and
`scale_tracks` is the run.
-/

namespace Psc.Control

open Program Program.Prog Net Transition

/-! ## What the register has to hold -/

/-- The word of `CONVVOLTSTODACBITS / dac_dccts`. -/
def scaleWord (fmt : FloatFormat) (conv dccts : ℚ) : BitVec 32 :=
  if dccts = 0 then fmt.inf else fmt.word (conv / dccts)

/-- The mode of a channel, its scale factor register, and what that is computed from. -/
@[ext]
structure FofbView where
  mode : BitVec 32
  scale : BitVec 32
  dccts : ℚ
  conv : ℚ

/-- The FOFB side of a channel. -/
def Device.fofb (d : Device) (ps : Ps) : FofbView where
  mode := d.inChan .dacOpmode ps.chan
  scale := d.inChan .fofbScalefactor ps.chan
  dccts := (d.sf ps.chan).dacDccts
  conv := d.convVoltsToDacBits

/-- In FOFB mode the register holds the word of its variables. -/
def FofbView.Tracks (fmt : FloatFormat) (v : FofbView) : Prop :=
  v.mode = 2 → v.scale = scaleWord fmt v.conv v.dccts

theorem fofbScale_eq (fmt : FloatFormat) (d : Device) (x : ℚ) :
    d.fofbScale fmt x = scaleWord fmt d.convVoltsToDacBits x := by
  rw [Device.fofbScale, scaleWord, one_div_mul_eq_div]

/-! ## When a command is harmless -/

/-- A number addresses the registers of a channel. -/
def Addresses (n : BitVec 32) (ps : Ps) : Prop := n.toNat % 2 ^ 23 = ps.chan.toNat

/-- The word of `dac_dccts` in the record of a channel in the flash. -/
def savedDccts (n : BitVec 32) (flash : Bytes) : BitVec 32 :=
  wordAt (fun k => flash (sectorAddr n + k)) 38

/-- A setting leaves a channel in FOFB mode with the word of its variables. A change of mode takes
the factor of the number; a factor computes the word for all that the number addresses; a restore
does not compute it. -/
def ChanMsg.Steady (fmt : FloatFormat) (d : Device) (ps : Ps) (n data : BitVec 32) :
    ChanMsg → Prop
  | .dacOpmode => data = 2 → Addresses n ps →
      scaleWord fmt d.convVoltsToDacBits (d.sf n).dacDccts =
        scaleWord fmt d.convVoltsToDacBits (d.sf ps.chan).dacDccts
  | .sfDacDccts => Addresses n ps → n ≠ ps.chan → (d.fofb ps).mode = 2 →
      scaleWord fmt d.convVoltsToDacBits (fmt.value data) =
        scaleWord fmt d.convVoltsToDacBits (d.sf ps.chan).dacDccts
  | .readQspi => data = 1 → n = ps.chan → (d.fofb ps).mode = 2 →
      scaleWord fmt d.convVoltsToDacBits (fmt.value (savedDccts n d.flash)) =
        scaleWord fmt d.convVoltsToDacBits (d.sf ps.chan).dacDccts
  | _ => True

/-- The setting that a command makes of a channel: the number, the message and the data. -/
def Command.setting : Command → Option (BitVec 32 × BitVec 32 × BitVec 32)
  | .client _ msgid _ m =>
    if msgid = 1 ∨ msgid = 2 ∨ msgid = 3 ∨ msgid = 4 then
      some (msgid.setWidth 32, msgWord m 0, msgWord m 1)
    else none
  | .console _ chan addr data => some (chan, addr, data)
  | _ => none

/-- The resolution byte that an entry of the menu leaves. -/
def Edit.resolutionByte (b : Board) : Edit → BitVec 8
  | .setResolution c =>
    if getBinaryInput c ≠ -1 then getBinaryInput c else b.eeprom FlavorReg.resolution.byteAddr
  | _ => b.eeprom FlavorReg.resolution.byteAddr

/-- The factor `CONVVOLTSTODACBITS` after a resolution byte is read. -/
def factorOf (val : BitVec 8) (conv : ℚ) : ℚ :=
  if val = 0 then convVoltsTo18Bits else if val = 1 then convVoltsTo20Bits else conv

/-- A command leaves a channel in FOFB mode with the word of its variables. After a power cycle the
mode is not FOFB yet. -/
def Command.Steady (fmt : FloatFormat) (reset : BitVec 32 → BitVec 32) (ps : Ps) (b : Board) :
    Command → Prop
  | .edit e => e.reads → (b.fofb ps).mode = 2 →
      scaleWord fmt (factorOf (e.resolutionByte b) b.convVoltsToDacBits) (b.sf ps.chan).dacDccts =
        scaleWord fmt b.convVoltsToDacBits (b.sf ps.chan).dacDccts
  | .restart _ => ((powerOn reset b.flash b.eeprom).fofb ps).mode ≠ 2
  | c => ∀ n addr data msg, c.setting = some (n, addr, data) →
      ChanMsg.ofCode addr.toNat = some msg → msg.Steady fmt b.toDevice ps n data

/-! ## Addresses -/

/-- A register of a number is one of a channel's if the offsets agree and the number addresses the
channel. -/
theorem ChanReg.addr_eq_iff (reg reg' : ChanReg) (n : BitVec 32) (ps : Ps) :
    reg.addr n = reg'.addr ps.chan ↔ reg.offset = reg'.offset ∧ Addresses n ps := by
  have hoffset : reg.offset.toNat < 0x200 := by cases reg <;> decide
  have hoffset' : reg'.offset.toNat < 0x200 := by cases reg' <;> decide
  have hchan : ps.chan.toNat < 5 := by cases ps <;> decide
  have h200 : (0x200 : BitVec 32).toNat = 0x200 := rfl
  rw [ChanReg.addr, ChanReg.addr, Addresses, ← BitVec.toNat_inj, ← BitVec.toNat_inj,
    BitVec.toNat_add, BitVec.toNat_add, BitVec.toNat_mul, BitVec.toNat_mul, h200]
  omega

theorem addresses_self (ps : Ps) : Addresses ps.chan ps := by cases ps <;> rfl

theorem offset_eq_dacOpmode {reg : ChanReg} :
    reg.offset = ChanReg.dacOpmode.offset ↔ reg = .dacOpmode := by
  cases reg <;> decide

theorem offset_eq_fofbScalefactor {reg : ChanReg} :
    reg.offset = ChanReg.fofbScalefactor.offset ↔ reg = .fofbScalefactor := by
  cases reg <;> decide

theorem stored_dacOpmode (ps : Ps) :
    stored (ChanReg.dacOpmode.addr ps.chan) 2 = 2 := by
  cases ps <;> decide

theorem stored_fofbScalefactor (ps : Ps) (v : BitVec 32) :
    stored (ChanReg.fofbScalefactor.addr ps.chan) v = v := by
  have hwidth : fieldWidth (ChanReg.fofbScalefactor.addr ps.chan) = 32 := by cases ps <;> decide
  refine BitVec.eq_of_toNat_eq ?_
  rw [toNat_stored hwidth le_rfl, Nat.mod_eq_of_lt v.isLt]

/-! ## What the accesses change -/

section Changes

variable (d : Device) {n : BitVec 32} {ps : Ps}

theorem fofb_xilOut32_of_ne {a : BitVec 32} (hmode : ChanReg.dacOpmode.addr ps.chan ≠ a)
    (hscale : ChanReg.fofbScalefactor.addr ps.chan ≠ a) (v : BitVec 32) :
    (d.xilOut32 a v).fofb ps = d.fofb ps :=
  FofbView.ext (d.xilOut32_regs_of_ne hmode v) (d.xilOut32_regs_of_ne hscale v) rfl rfl

theorem fofb_outGlob (glob : GlobReg) (v : BitVec 32) : (d.outGlob glob v).fofb ps = d.fofb ps :=
  fofb_xilOut32_of_ne d (ChanReg.addr_ne_glob _ ps glob) (ChanReg.addr_ne_glob _ ps glob) v

theorem Device.fofb_flash (f : Bytes) : Device.fofb { d with flash := f } ps = d.fofb ps := rfl

theorem fofb_blink : (blink d).fofb ps = d.fofb ps :=
  (fofb_outGlob _ .iocAccess 0).trans (fofb_outGlob d .iocAccess 1)

theorem fofb_outChan_of_ne {reg : ChanReg} (hmode : reg ≠ .dacOpmode)
    (hscale : reg ≠ .fofbScalefactor) (v : BitVec 32) : (d.outChan reg n v).fofb ps = d.fofb ps :=
  fofb_xilOut32_of_ne d
    (fun h => hmode (offset_eq_dacOpmode.mp ((ChanReg.addr_eq_iff ..).mp h.symm).1))
    (fun h => hscale (offset_eq_fofbScalefactor.mp ((ChanReg.addr_eq_iff ..).mp h.symm).1)) v

theorem fofb_outChan_of_not_addresses (h : ¬Addresses n ps) (reg : ChanReg) (v : BitVec 32) :
    (d.outChan reg n v).fofb ps = d.fofb ps :=
  fofb_xilOut32_of_ne d (fun heq => h ((ChanReg.addr_eq_iff ..).mp heq.symm).2)
    (fun heq => h ((ChanReg.addr_eq_iff ..).mp heq.symm).2) v

theorem fofb_outChan_dacOpmode (h : Addresses n ps) (v : BitVec 32) :
    (d.outChan .dacOpmode n v).fofb ps =
      { d.fofb ps with mode := stored (ChanReg.dacOpmode.addr ps.chan) v } := by
  have haddr : ChanReg.dacOpmode.addr n = ChanReg.dacOpmode.addr ps.chan :=
    (ChanReg.addr_eq_iff ..).mpr ⟨rfl, h⟩
  have hne : ChanReg.fofbScalefactor.addr ps.chan ≠ ChanReg.dacOpmode.addr ps.chan := fun heq =>
    absurd ((ChanReg.addr_eq_iff ..).mp heq).1 (by decide)
  unfold Device.outChan
  rw [haddr]
  exact FofbView.ext (d.outChan_regs ..) (d.xilOut32_regs_of_ne hne v) rfl rfl

theorem fofb_outChan_fofbScalefactor (h : Addresses n ps) (v : BitVec 32) :
    (d.outChan .fofbScalefactor n v).fofb ps = { d.fofb ps with scale := v } := by
  have haddr : ChanReg.fofbScalefactor.addr n = ChanReg.fofbScalefactor.addr ps.chan :=
    (ChanReg.addr_eq_iff ..).mpr ⟨rfl, h⟩
  have hne : ChanReg.dacOpmode.addr ps.chan ≠ ChanReg.fofbScalefactor.addr ps.chan := fun heq =>
    absurd ((ChanReg.addr_eq_iff ..).mp heq).1 (by decide)
  unfold Device.outChan
  rw [haddr]
  exact FofbView.ext (d.xilOut32_regs_of_ne hne v)
    ((d.outChan_regs ..).trans (stored_fofbScalefactor ps v)) rfl rfl

theorem fofb_setSf_self (s : ScaleFactorType) :
    (d.setSf ps.chan s).fofb ps = { d.fofb ps with dccts := s.dacDccts } :=
  FofbView.ext rfl rfl (congrArg (fun s : ScaleFactorType => s.dacDccts) (Function.update_self ..))
    rfl

theorem fofb_setSf_of_ne (h : n ≠ ps.chan) (s : ScaleFactorType) :
    (d.setSf n s).fofb ps = d.fofb ps := by
  have hne : ps.chan - 1 ≠ n - 1 := fun heq => h ((BitVec.sub_left_inj _).mp heq).symm
  exact FofbView.ext rfl rfl
    (congrArg (fun s : ScaleFactorType => s.dacDccts) (Function.update_of_ne hne ..)) rfl

theorem fofb_perform {r : Rights} (hmode : ¬r.writes .dacOpmode)
    (hscale : ¬r.writes .fofbScalefactor) (hsf : ¬r.scales) (stack : Bytes) (i : Access)
    (hi : Footprint n r i) : (i.perform stack d).2.fofb ps = d.fofb ps := by
  cases i with
  | out32 a v =>
    obtain ⟨reg, hreg, rfl⟩ | ⟨rfl, -⟩ := hi
    · exact fofb_outChan_of_ne d (fun h => hmode (h ▸ hreg)) (fun h => hscale (h ▸ hreg)) v
    · exact fofb_outGlob d .softtrig v
  | setSf j s => exact (hsf hi.2).elim
  | flashErase c => exact d.fofb_flash _
  | flashWrite c buf => exact d.fofb_flash _
  | _ => rfl

theorem fofb_chanSettings {fmt : FloatFormat} {stack : Bytes} {d d' : Device}
    {addr data : BitVec 32} (hmode : ¬(settingRights addr data).writes .dacOpmode)
    (hscale : ¬(settingRights addr data).writes .fofbScalefactor)
    (hsf : ¬(settingRights addr data).scales)
    (h : chanSettings fmt stack d n addr data = .ok d') : d'.fofb ps = d.fofb ps :=
  chanSettings_keeps fmt (I := fun d' => d'.fofb ps = d.fofb ps)
    (fun i d' hi hd' => (fofb_perform d' hmode hscale hsf stack i hi).trans hd') h rfl

theorem fofb_writeRamptable {fmt : FloatFormat} {d d' : Device} {msg : Bytes} {msglen : ℕ}
    (h : writeRamptable fmt d n msg msglen = .ok d') : d'.fofb ps = d.fofb ps :=
  writeRamptable_keeps fmt (I := fun d' => d'.fofb ps = d.fofb ps)
    (fun i d' hi hd' => (fofb_perform d' (by simp [rampRights]) (by simp [rampRights]) (fun h => h)
      (fun _ => 0) i hi).trans hd') h rfl

/-! ### The flash -/

theorem wordAt_qspiFlashRead (stack flash : Bytes) :
    wordAt (qspiFlashRead stack n flash) 39 = savedDccts n flash := by
  simp [wordAt, savedDccts, qspiFlashRead]

variable (fmt : FloatFormat) (stack : Bytes)

theorem addr_ne_of_mem_qspiRegs {reg reg' : ChanReg} (hreg : reg ∈ qspiRegs)
    (hreg' : reg' = .dacOpmode ∨ reg' = .fofbScalefactor) (n : BitVec 32) (ps : Ps) :
    reg'.addr ps.chan ≠ reg.addr n := by
  intro h
  have hoffset := ((ChanReg.addr_eq_iff ..).mp h.symm).1
  rcases hreg' with rfl | rfl
  · obtain rfl := offset_eq_dacOpmode.mp hoffset
    exact absurd hreg (by decide)
  · obtain rfl := offset_eq_fofbScalefactor.mp hoffset
    exact absurd hreg (by decide)

theorem fofb_of_regs {d d' : Device}
    (hmode : d'.regs (ChanReg.dacOpmode.addr ps.chan) = d.regs (ChanReg.dacOpmode.addr ps.chan))
    (hscale : d'.regs (ChanReg.fofbScalefactor.addr ps.chan) =
      d.regs (ChanReg.fofbScalefactor.addr ps.chan))
    (hconv : d'.convVoltsToDacBits = d.convVoltsToDacBits) :
    d'.fofb ps = { d.fofb ps with dccts := (d'.sf ps.chan).dacDccts } :=
  FofbView.ext hmode hscale rfl hconv

theorem fofb_readQspi (n : BitVec 32) (ps : Ps) :
    (readQspi fmt stack d n).fofb ps =
      { d.fofb ps with dccts := ((readQspi fmt stack d n).sf ps.chan).dacDccts } := by
  have hregs : ∀ reg', reg' = ChanReg.dacOpmode ∨ reg' = ChanReg.fofbScalefactor →
      (readQspi fmt stack d n).regs (reg'.addr ps.chan) = d.regs (reg'.addr ps.chan) :=
    fun reg' h => readQspi_regs_of_ne fmt stack d fun _ hreg => addr_ne_of_mem_qspiRegs hreg h n ps
  have hconv := convVolts_readQspi fmt stack d n
  generalize readQspi fmt stack d n = d' at *
  exact fofb_of_regs (hregs _ (Or.inl rfl)) (hregs _ (Or.inr rfl)) hconv

theorem fofb_readQspi_self (ps : Ps) :
    (readQspi fmt stack d ps.chan).fofb ps =
      { d.fofb ps with dccts := fmt.value (savedDccts ps.chan d.flash) } := by
  rw [fofb_readQspi, sf_readQspi, wordAt_qspiFlashRead]

theorem fofb_readQspi_of_ne (h : n ≠ ps.chan) :
    (readQspi fmt stack d n).fofb ps = d.fofb ps := by
  have hne : ps.chan - 1 ≠ n - 1 := fun heq => h ((BitVec.sub_left_inj _).mp heq).symm
  have hsf : (readQspi fmt stack d n).sf ps.chan = d.sf ps.chan := by
    unfold Device.sf
    rw [scalefactors_readQspi, Function.update_of_ne hne]
  rw [fofb_readQspi, hsf]
  rfl

theorem fofb_writeQspi {d : Device} (hd : d.Held fmt) (n : BitVec 32) (ps : Ps) :
    (writeQspi fmt stack d n).fofb ps = d.fofb ps := by
  have hsaved := saved_write n fmt stack d d.flash stack 39 (by norm_num) (by norm_num)
  rw [wordAt_qspiFlashRead] at hsaved
  unfold writeQspi
  dsimp only
  generalize qspiFlashWrite n (qspiGatherData fmt stack d n) (qspiFlashEraseSect n d.flash) = f at *
  by_cases hn : n = ps.chan
  · subst hn
    have hword : (qspiWords fmt d ps.chan).getD (39 - 1) 0 = fmt.word (d.sf ps.chan).dacDccts := rfl
    have hheld : fmt.value (fmt.word (d.sf ps.chan).dacDccts) = (d.sf ps.chan).dacDccts :=
      congrArg (fun s : ScaleFactorType => s.dacDccts) (hd.sf ps)
    rw [fofb_readQspi_self, d.fofb_flash, hsaved, hword, hheld]
    rfl
  · rw [fofb_readQspi_of_ne _ _ _ hn, d.fofb_flash]

end Changes

/-! ## Commands -/

section Commands

variable {fmt : FloatFormat} {stack : Bytes} {d d' : Device} {n addr data : BitVec 32} {ps : Ps}

/-- A change to FOFB mode leaves the word of its variables exactly if it is steady, whatever the
mode was. -/
theorem tracks_setDacOpmode_two (hn : Addresses n ps) :
    ((d.setDacOpmode n fmt 2).fofb ps).Tracks fmt ↔ ChanMsg.dacOpmode.Steady fmt d ps n 2 := by
  rw [Device.setDacOpmode, if_neg (by decide), if_pos rfl, fofb_outChan_dacOpmode _ hn,
    fofb_outChan_fofbScalefactor _ hn, fofbScale_eq]
  refine ⟨fun h _ _ => h (stored_dacOpmode ps), fun h _ => h rfl hn⟩

theorem stored_dacOpmode_ne {v : BitVec 32} (hv : v = 0 ∨ v = 1 ∨ v = 3) (ps : Ps) :
    stored (ChanReg.dacOpmode.addr ps.chan) v ≠ 2 := by
  rcases hv with rfl | rfl | rfl <;> cases ps <;> decide

theorem tracks_setDacOpmode_of_ne (h2 : data ≠ 2) (hd : (d.fofb ps).Tracks fmt) :
    ((d.setDacOpmode n fmt data).fofb ps).Tracks fmt := by
  have hmode : ∀ v, v = 0 ∨ v = 1 ∨ v = 3 →
      ((d.outChan .dacOpmode n v).fofb ps).Tracks fmt := fun v hv => by
    by_cases hn : Addresses n ps
    · rw [fofb_outChan_dacOpmode d hn]
      exact fun h => absurd h (stored_dacOpmode_ne hv ps)
    · rw [fofb_outChan_of_not_addresses d hn]
      exact hd
  unfold Device.setDacOpmode
  split_ifs with h3 h01
  · exact hmode 3 (Or.inr (Or.inr rfl))
  · exact hmode data (by tauto)
  · exact hd

/-- **A setting.** A channel that tracks its variables does so after a setting exactly if the
setting is steady. -/
theorem tracks_chanSettings_iff (hheld : d.Held fmt) {msg : ChanMsg}
    (hmsg : ChanMsg.ofCode addr.toNat = some msg)
    (h : chanSettings fmt stack d n addr data = .ok d') (hd : (d.fofb ps).Tracks fmt) :
    (d'.fofb ps).Tracks fmt ↔ msg.Steady fmt d ps n data := by
  have hcase : chanCase fmt stack d n data msg = .ok d' := by
    rw [← h, chanSettings, hmsg]
  have hsame : d'.fofb ps = d.fofb ps → msg.Steady fmt d ps n data →
      ((d'.fofb ps).Tracks fmt ↔ msg.Steady fmt d ps n data) := fun heq hs =>
    iff_of_true (heq ▸ hd) hs
  cases msg
  case dacOpmode =>
    obtain rfl := Except.ok.inj hcase
    by_cases h2 : data = 2
    · subst h2
      by_cases hn : Addresses n ps
      · exact tracks_setDacOpmode_two hn
      · refine hsame ?_ fun _ hn' => absurd hn' hn
        rw [Device.setDacOpmode, if_neg (by decide), if_pos rfl,
          fofb_outChan_of_not_addresses _ hn, fofb_outChan_of_not_addresses _ hn]
    · exact iff_of_true (tracks_setDacOpmode_of_ne h2 hd) fun h => absurd h h2
  case sfDacDccts =>
    obtain rfl := Except.ok.inj hcase
    dsimp only
    rw [fofbScale_eq]
    by_cases hn : Addresses n ps
    · rw [fofb_outChan_fofbScalefactor _ hn]
      by_cases hself : n = ps.chan
      · subst hself
        rw [fofb_setSf_self]
        exact iff_of_true (fun _ => rfl) fun _ hne => absurd rfl hne
      · rw [fofb_setSf_of_ne _ hself]
        exact ⟨fun h _ _ hm => h hm, fun h hm => h hn hself hm⟩
    · rw [fofb_outChan_of_not_addresses _ hn, fofb_setSf_of_ne]
      · exact iff_of_true hd fun hn' => absurd hn' hn
      · rintro rfl
        exact hn (addresses_self ps)
  case readQspi =>
    rw [chanCase] at hcase
    obtain rfl := Except.ok.inj hcase
    by_cases h1 : data = 1
    · rw [if_pos h1]
      by_cases hn : n = ps.chan
      · subst hn
        rw [fofb_readQspi_self]
        refine ⟨fun h _ _ hm => ?_, fun h hm => ?_⟩
        · exact (h hm).symm.trans (hd hm)
        · exact (hd hm).trans (h h1 rfl hm).symm
      · rw [fofb_readQspi_of_ne _ _ _ hn]
        exact iff_of_true hd fun _ hn' => absurd hn' hn
    · rw [if_neg h1]
      exact iff_of_true hd fun h => absurd h h1
  case writeQspi =>
    rw [chanCase] at hcase
    obtain rfl := Except.ok.inj hcase
    refine hsame ?_ trivial
    split_ifs
    · exact fofb_writeQspi fmt stack hheld n ps
    · rfl
  case sfAmpsPerSec | sfVout | sfIgnd | sfSpare | sfRegulator | sfError =>
    obtain rfl := Except.ok.inj hcase
    refine hsame ?_ trivial
    by_cases hn : n = ps.chan
    · subst hn
      exact fofb_setSf_self d _
    · exact fofb_setSf_of_ne d hn _
  all_goals
    refine hsame (fofb_chanSettings ?_ ?_ ?_ h) trivial
    all_goals simp [settingRights, hmsg, ChanMsg.kind, Kind.rights]

end Commands

/-! ## The board -/

section Steps

variable {fmt : FloatFormat} {reset : BitVec 32 → BitVec 32} {b b' : Board} {c : Command} {ps : Ps}

/-- A setting from a client does what one from the console does, after a blink. -/
theorem step_setting (fmt : FloatFormat) (reset : BitVec 32 → BitVec 32) (b : Board)
    {n addr data : BitVec 32} (hc : c.setting = some (n, addr, data)) :
    ∃ stack d, (d = b.toDevice ∨ d = blink b.toDevice) ∧
      b.step fmt reset c = b.command (chanSettings fmt stack d n addr data) := by
  cases c with
  | client stack msgid msglen m =>
    rw [Command.setting] at hc
    split_ifs at hc with hid
    obtain ⟨rfl, rfl, rfl⟩ : msgid.setWidth 32 = n ∧ msgWord m 0 = addr ∧ msgWord m 1 = data := by
      simpa using hc
    have hnot : msgid ≠ 0 := by
      rintro rfl
      revert hid
      decide
    refine ⟨stack, blink b.toDevice, Or.inr rfl, ?_⟩
    rw [Board.step, clientMsg, if_neg hnot, if_pos hid]
  | console stack chan addr' data' =>
    obtain ⟨rfl, rfl, rfl⟩ : chan = n ∧ addr' = addr ∧ data' = data := by
      simpa [Command.setting] using hc
    exact ⟨stack, b.toDevice, Or.inl rfl, rfl⟩
  | edit e => cases hc
  | restart stack => cases hc

theorem fofb_of_blink {d : Device} (hd : d = b.toDevice ∨ d = blink b.toDevice) :
    d.fofb ps = b.fofb ps ∧ d.convVoltsToDacBits = b.convVoltsToDacBits ∧
      d.scalefactors = b.scalefactors ∧ d.flash = b.flash := by
  rcases hd with rfl | rfl
  · exact ⟨rfl, rfl, rfl, rfl⟩
  · exact ⟨fofb_blink _, rfl, rfl, rfl⟩

theorem ChanMsg.Steady.congr {d d' : Device} (hfofb : d.fofb ps = d'.fofb ps)
    (hconv : d.convVoltsToDacBits = d'.convVoltsToDacBits)
    (hsf : d.scalefactors = d'.scalefactors) (hflash : d.flash = d'.flash) (n data : BitVec 32)
    (msg : ChanMsg) : msg.Steady fmt d ps n data ↔ msg.Steady fmt d' ps n data := by
  unfold ChanMsg.Steady Device.sf
  rw [hfofb, hconv, hsf, hflash]

theorem fofb_globSettings (d : Device) (addr data : BitVec 32) :
    (globSettings d addr data).fofb ps = d.fofb ps := by
  unfold globSettings Device.softTrig
  split
  case h_1 | h_2 => rw [fofb_outGlob, fofb_outGlob]
  case h_11 => rfl
  all_goals exact fofb_outGlob d _ _

theorem fofb_clientMsg {stack : Bytes} {d d' : Device} {msgid : BitVec 16} {msglen : ℕ}
    {msg : Bytes} (hid : ¬(msgid = 1 ∨ msgid = 2 ∨ msgid = 3 ∨ msgid = 4))
    (h : clientMsg fmt stack d msgid msglen msg = .ok d') : d'.fofb ps = d.fofb ps := by
  unfold clientMsg at h
  split_ifs at h
  · exact Except.ok.inj h ▸ (fofb_globSettings _ _ _).trans (fofb_blink d)
  · exact (fofb_writeRamptable h).trans (fofb_blink d)
  · exact Except.ok.inj h ▸ fofb_blink d

/-! ### The flavor -/

theorem fofb_readHardwareFlavor (b : Board) :
    (readHardwareFlavor b).fofb ps =
      { b.fofb ps with conv := (readHardwareFlavor b).convVoltsToDacBits } := by
  have hne : ∀ a ∈ flavorAddrs, ChanReg.dacOpmode.addr ps.chan ≠ a ∧
      ChanReg.fofbScalefactor.addr ps.chan ≠ a := by
    have hall : flavorAddrs.all (fun a => [1, 2, 3, 4].all fun n : BitVec 32 =>
        ChanReg.dacOpmode.addr n != a && ChanReg.fofbScalefactor.addr n != a) = true := by
      decide +kernel
    intro a ha
    have h := List.all_eq_true.mp (List.all_eq_true.mp hall a ha) ps.chan (by cases ps <;> decide)
    simpa using h
  refine keeps_readHardwareFlavor
    (I := fun b' : Board => b'.fofb ps = { b.fofb ps with conv := b'.convVoltsToDacBits })
    (fun b' a v ha hb' => ?_) (fun b' c _ hb' => ?_) rfl
  · exact (fofb_xilOut32_of_ne b'.toDevice (hne a ha).1 (hne a ha).2 v).trans hb'
  · exact congrArg (fun v : FofbView => { v with conv := c }) hb'

theorem eeprom_setFlavor (reg : FlavorReg) (ch : Char) (b : Board) :
    (setFlavor reg ch b).eeprom =
      if getBinaryInput ch ≠ -1 then Function.update b.eeprom reg.byteAddr (getBinaryInput ch)
      else b.eeprom := by
  unfold setFlavor
  dsimp only
  rw [eeprom_readHardwareFlavor]
  split_ifs <;> rfl

/-- The resolution byte that a reading finds. -/
theorem resolution_exec {e : Edit} (he : e.reads) (b : Board) :
    flavorBytes (e.exec b).eeprom .resolution = e.resolutionByte b := by
  have hother : ∀ reg ch, reg ≠ .resolution →
      flavorBytes (setFlavor reg ch b).eeprom .resolution =
        b.eeprom FlavorReg.resolution.byteAddr := by
    intro reg ch hreg
    have hne : FlavorReg.resolution.byteAddr ≠ reg.byteAddr := by
      cases reg <;> first | exact absurd rfl hreg | decide
    rw [eeprom_setFlavor, flavorBytes]
    split_ifs
    · exact Function.update_of_ne hne ..
    · rfl
  cases e
  case setResolution ch =>
    show flavorBytes (setFlavor .resolution ch b).eeprom .resolution = _
    rw [eeprom_setFlavor, flavorBytes, Edit.resolutionByte]
    split_ifs
    · exact Function.update_self ..
    · rfl
  case clearEeprom input => cases he
  case testEeprom input => cases he
  case setNumchans ch => exact hother .numchans ch (by decide)
  case setBandwidth ch => exact hother .bandwidth ch (by decide)
  case setPolarity ch => exact hother .polarity ch (by decide)

theorem fofb_exec (b : Board) (e : Edit) (ps : Ps) :
    (e.exec b).fofb ps = if e.reads then
      { b.fofb ps with conv := factorOf (e.resolutionByte b) b.convVoltsToDacBits }
    else b.fofb ps := by
  have hconv := congrArg Flavor.convVoltsToDacBits (flavor_exec b e)
  have hfofb : (e.exec b).fofb ps = { b.fofb ps with conv := (e.exec b).convVoltsToDacBits } := by
    have hset : ∀ reg ch, (setFlavor reg ch b).fofb ps =
        { b.fofb ps with conv := (setFlavor reg ch b).convVoltsToDacBits } := fun reg ch => by
      unfold setFlavor
      dsimp only
      rw [fofb_readHardwareFlavor]
      split_ifs <;> rfl
    have hwrites : ∀ (a val : ℕ → BitVec 8) (is : List ℕ),
        (is.foldl (fun b i => eepromWriteByte b (a i) (val i)) b).toDevice = b.toDevice :=
      fun a val is => List.foldlRecOn is _
        (motive := fun b' : Board => b'.toDevice = b.toDevice) rfl fun _ hb' _ _ => hb'
    cases e
    case clearEeprom input =>
      show (clearEeprom input b).fofb ps =
        { b.fofb ps with conv := (clearEeprom input b).convVoltsToDacBits }
      unfold clearEeprom
      split_ifs
      · rfl
      · rw [hwrites]
        rfl
    case testEeprom input =>
      show (testEeprom input b).fofb ps =
        { b.fofb ps with conv := (testEeprom input b).convVoltsToDacBits }
      unfold testEeprom
      split_ifs
      · rfl
      · rw [hwrites]
        rfl
    all_goals exact hset _ _
  by_cases he : e.reads
  · rw [if_pos he, Flavor.read, resolution_exec he] at hconv
    rw [if_pos he, hfofb]
    exact congrArg (fun x => { b.fofb ps with conv := x }) hconv
  · rw [if_neg he] at hconv
    rw [if_neg he, hfofb]
    exact congrArg (fun x => { b.fofb ps with conv := x }) hconv

/-! ### Steps -/

/-- The start of the board leaves the mode as it comes up. -/
theorem mode_boot (stack flash : Bytes) (eeprom : BitVec 8 → BitVec 8) (ps : Ps) :
    ((boot fmt stack reset flash eeprom).fofb ps).mode =
      ((powerOn reset flash eeprom).fofb ps).mode := by
  have hmain : ∀ b : Board, ((mainInit b).fofb ps).mode = (b.fofb ps).mode := by
    intro b
    have hout : ∀ (b : Board) (a v : BitVec 32), ChanReg.dacOpmode.addr ps.chan ≠ a →
        ((b.out a v).fofb ps).mode = (b.fofb ps).mode := fun b a v h => b.xilOut32_regs_of_ne h v
    unfold mainInit
    simp only [List.foldl_cons, List.foldl_nil]
    rw [hout _ _ _ (by cases ps <;> decide), hout _ _ _ (by cases ps <;> decide),
      hout _ _ _ (by cases ps <;> decide), hout _ _ _ (by cases ps <;> decide),
      hout _ _ _ (by cases ps <;> decide), hout _ _ _ (by cases ps <;> decide),
      hout _ _ _ (by cases ps <;> decide), fofb_readHardwareFlavor]
    exact hout _ _ _ (by cases ps <;> decide)
  have hread : ∀ d n, ((readQspi fmt stack d n).fofb ps).mode = (d.fofb ps).mode := fun d n => by
    rw [fofb_readQspi]
  rw [← hmain (powerOn reset flash eeprom)]
  generalize hb : mainInit (powerOn reset flash eeprom) = b
  have hboot : (boot fmt stack reset flash eeprom).toDevice =
      initSettingsFromQspi fmt stack b.toDevice := by rw [← hb, boot]
  rw [hboot]
  unfold initSettingsFromQspi
  simp only [List.foldl_cons, List.foldl_nil]
  rw [hread, hread, hread, hread, fofb_outGlob, fofb_outGlob]

/-- **One command.** A channel that tracks its variables does so after a command, other than a power
cycle, exactly if the command is steady. -/
theorem tracks_step_iff (hheld : b.Held fmt) (hb : (b.fofb ps).Tracks fmt)
    (hc : ∀ stack, c ≠ .restart stack) (h : b.step fmt reset c = some b') :
    (b'.fofb ps).Tracks fmt ↔ c.Steady fmt reset ps b := by
  have hsetting : ∀ {n addr data}, c.setting = some (n, addr, data) →
      ((b'.fofb ps).Tracks fmt ↔ ∀ msg, ChanMsg.ofCode addr.toNat = some msg →
        msg.Steady fmt b.toDevice ps n data) := by
    intro n addr data hset
    obtain ⟨stack, d, hd, hstep⟩ := step_setting fmt reset b hset
    obtain ⟨d', hd', rfl⟩ := Board.command_eq_some (hstep ▸ h)
    obtain ⟨hfofb, hconv, hsf, hflash⟩ := fofb_of_blink hd
    cases hmsg : ChanMsg.ofCode addr.toNat with
    | none =>
      obtain rfl : d = d' := by simpa [chanSettings, hmsg] using hd'
      exact iff_of_true (hfofb ▸ hb) fun _ h => by cases h
    | some msg =>
      rw [tracks_chanSettings_iff (held_of_blink hd hheld) hmsg hd' (hfofb ▸ hb),
        ChanMsg.Steady.congr hfofb hconv hsf hflash]
      exact ⟨fun h _ heq => Option.some.inj heq ▸ h, fun h => h msg rfl⟩
  cases c with
  | client stack msgid msglen m =>
    by_cases hid : msgid = 1 ∨ msgid = 2 ∨ msgid = 3 ∨ msgid = 4
    · have hset : (Command.client stack msgid msglen m).setting =
          some (msgid.setWidth 32, msgWord m 0, msgWord m 1) := if_pos hid
      rw [hsetting hset]
      refine ⟨fun h n addr data msg heq hmsg => ?_, fun h msg hmsg => h _ _ _ msg hset hmsg⟩
      obtain ⟨rfl, rfl, rfl⟩ : msgid.setWidth 32 = n ∧ msgWord m 0 = addr ∧ msgWord m 1 = data := by
        simpa using hset.symm.trans heq
      exact h msg hmsg
    · have hset : (Command.client stack msgid msglen m).setting = none := if_neg hid
      obtain ⟨d', hd', rfl⟩ := Board.command_eq_some h
      refine iff_of_true ?_ fun n addr data msg heq => ?_
      · exact (fofb_clientMsg hid hd').symm ▸ hb
      · rw [hset] at heq
        cases heq
  | console stack n addr data =>
    rw [hsetting rfl]
    refine ⟨fun h n' addr' data' msg heq hmsg => ?_, fun h msg hmsg => h _ _ _ msg rfl hmsg⟩
    obtain ⟨rfl, rfl, rfl⟩ : n = n' ∧ addr = addr' ∧ data = data' := by
      simpa [Command.setting] using heq
    exact h msg hmsg
  | edit e =>
    obtain rfl := Option.some.inj h
    rw [fofb_exec]
    by_cases he : e.reads
    · rw [if_pos he]
      refine ⟨fun h _ hm => ?_, fun h hm => ?_⟩
      · exact (h hm).symm.trans (hb hm)
      · exact (hb hm).trans (h he hm).symm
    · rw [if_neg he]
      exact iff_of_true hb fun h => absurd h he
  | restart stack => exact absurd rfl (hc stack)

theorem tracks_step (hheld : b.Held fmt) (hb : (b.fofb ps).Tracks fmt)
    (hs : c.Steady fmt reset ps b) (h : b.step fmt reset c = some b') :
    (b'.fofb ps).Tracks fmt := by
  by_cases hc : ∀ stack, c ≠ .restart stack
  · exact (tracks_step_iff hheld hb hc h).mpr hs
  · push Not at hc
    obtain ⟨stack, rfl⟩ := hc
    obtain rfl := Option.some.inj h
    exact fun hm => absurd ((mode_boot ..).symm.trans hm) hs

/-- A command sets the mode of a channel to FOFB. -/
def Command.EntersFofb (ps : Ps) (c : Command) : Prop :=
  ∃ n addr, c.setting = some (n, addr, 2) ∧ ChanMsg.ofCode addr.toNat = some .dacOpmode ∧
    Addresses n ps

theorem tracks_enter (hc : c.EntersFofb ps) (hs : c.Steady fmt reset ps b)
    (h : b.step fmt reset c = some b') : (b'.fofb ps).Tracks fmt := by
  obtain ⟨n, addr, hset, hmsg, hn⟩ := hc
  have hsteady : ChanMsg.dacOpmode.Steady fmt b.toDevice ps n 2 := by
    cases c with
    | edit e => cases hset
    | restart stack => cases hset
    | client stack msgid msglen m => exact hs _ _ _ _ hset hmsg
    | console stack n addr data => exact hs _ _ _ _ hset hmsg
  obtain ⟨stack, d, hd, hstep⟩ := step_setting fmt reset b hset
  obtain ⟨d', hd', rfl⟩ := Board.command_eq_some (hstep ▸ h)
  obtain ⟨hfofb, hconv, hsf, hflash⟩ := fofb_of_blink hd
  rw [chanSettings, hmsg] at hd'
  obtain rfl := Except.ok.inj hd'
  have hsteady' := (ChanMsg.Steady.congr hfofb hconv hsf hflash ..).mpr hsteady
  exact (tracks_setDacOpmode_two hn).mpr hsteady'

end Steps

/-- **The FOFB scale factor.** From any change of a channel to FOFB mode on, in each state of a run
of steady commands, the scale factor register of the channel is that of its variables if the mode is
FOFB. And from such a state, a command that is no power cycle keeps this exactly if it is steady. -/
theorem scale_tracks (fmt : FloatFormat) (hfmt : fmt.Lawful) (reset : BitVec 32 → BitVec 32)
    (ps : Ps) {b w s : Board} {c : Command}
    (hb : Reach (Board.step fmt reset) (fun _ _ => True)
      (fun b => ∃ stack flash eeprom, b = boot fmt stack reset flash eeprom) b)
    (hc : c.EntersFofb ps) (hsteady : c.Steady fmt reset ps b)
    (hw : b.step fmt reset c = some w)
    (hs : Reach (Board.step fmt reset) (fun b c => c.Steady fmt reset ps b) (fun s => s = w) s) :
    (s.inChan .dacOpmode ps.chan = 2 → s.inChan .fofbScalefactor ps.chan =
      scaleWord fmt s.convVoltsToDacBits (s.sf ps.chan).dacDccts) ∧
    ∀ c' s', (∀ stack, c' ≠ .restart stack) → s.step fmt reset c' = some s' →
      ((s'.inChan .dacOpmode ps.chan = 2 → s'.inChan .fofbScalefactor ps.chan =
        scaleWord fmt s'.convVoltsToDacBits (s'.sf ps.chan).dacDccts) ↔
          c'.Steady fmt reset ps s) := by
  have hinv : s.Held fmt ∧ (s.fofb ps).Tracks fmt := by
    refine Reach.invariant (I := fun s : Board => s.Held fmt ∧ (s.fofb ps).Tracks fmt) hs ?_ ?_
    · rintro x rfl
      exact ⟨held_step hfmt (held_of_reach hfmt hb) hw, tracks_enter hc hsteady hw⟩
    · exact fun x c y hx hcond hy =>
        ⟨held_step hfmt hx.1 hy, tracks_step hx.1 hx.2 hcond hy⟩
  exact ⟨hinv.2, fun c' s' hc' hs' => tracks_step_iff hinv.1 hinv.2 hc' hs'⟩

/-! ### Two changes in FOFB mode -/

/-- Another factor in FOFB mode: the register follows. -/
theorem factor_followed : ∃ w s,
    bipolarBoard.step binary32 (fun _ => 0) (typed 1 100 2) = some w ∧
      w.step binary32 (fun _ => 0) (typed 1 304 0x40000000) = some s ∧
      (s.inChan .dacOpmode Ps.ps1.chan = 2 → s.inChan .fofbScalefactor Ps.ps1.chan =
        scaleWord binary32 s.convVoltsToDacBits (s.sf Ps.ps1.chan).dacDccts) := by
  obtain ⟨w, hw⟩ : ∃ w, bipolarBoard.step binary32 (fun _ => 0) (typed 1 100 2) = some w :=
    ⟨_, rfl⟩
  obtain ⟨s, hs⟩ : ∃ s, w.step binary32 (fun _ => 0) (typed 1 304 0x40000000) = some s := ⟨_, rfl⟩
  have hsteady : ∀ addr data msg (b : Board), ChanMsg.ofCode addr.toNat = some msg →
      msg.Steady binary32 b.toDevice .ps1 1 data →
      (typed 1 addr data).Steady binary32 (fun _ => 0) .ps1 b := by
    rintro addr data msg b hmsg h n addr' data' msg' heq hmsg'
    obtain ⟨rfl, rfl, rfl⟩ : 1 = n ∧ addr = addr' ∧ data = data' := by
      simpa [typed, Command.setting] using heq
    exact Option.some.inj (hmsg.symm.trans hmsg') ▸ h
  have hboot : Reach (Board.step binary32 fun _ => 0) (fun _ _ => True)
      (fun b => ∃ stack flash eeprom, b = boot binary32 stack (fun _ => 0) flash eeprom)
      bipolarBoard := .start ⟨_, _, _, rfl⟩
  have hrun : Reach (Board.step binary32 fun _ => 0)
      (fun b c => c.Steady binary32 (fun _ => 0) .ps1 b) (fun s => s = w) s :=
    .next _ (.start rfl) (hsteady 304 0x40000000 .sfDacDccts w rfl fun _ h => absurd rfl h) hs
  exact ⟨w, s, hw, hs, (scale_tracks binary32 binary32_lawful (fun _ => 0) .ps1 hboot
    ⟨1, 100, rfl, rfl, rfl⟩ (hsteady 100 2 .dacOpmode bipolarBoard rfl fun _ _ => rfl) hw hrun).1⟩

theorem step_typed {fmt : FloatFormat} {reset : BitVec 32 → BitVec 32} {b b' : Board}
    {n addr data : BitVec 32} {msg : ChanMsg} {d : Device}
    (hmsg : ChanMsg.ofCode addr.toNat = some msg)
    (h : chanCase fmt (fun _ => 0) b.toDevice n data msg = .ok d)
    (hb' : b' = { b with toDevice := d }) :
    b.step fmt reset (typed n addr data) = some b' := by
  rw [hb', typed, Board.step, chanSettings, hmsg]
  exact congrArg b.command h

/-- Another resolution in FOFB mode: the register stays that of 18 bits. -/
theorem resolution_not_followed : ∃ s,
    runs (Board.step binary32 fun _ => 0) bipolarBoard
        [typed 1 304 0x3F800000, typed 1 100 2, .edit (.setResolution '1')] = some s ∧
      s.inChan .dacOpmode Ps.ps1.chan = 2 ∧
      s.inChan .fofbScalefactor Ps.ps1.chan ≠
        scaleWord binary32 s.convVoltsToDacBits (s.sf Ps.ps1.chan).dacDccts := by
  have hflavor : bipolarBoard.flavor =
      (powerOn (fun _ => 0) (fun _ => 0xFF) fun _ => 0).flavor.read fun _ => 0 :=
    flavor_boot binary32 _ _ _ _
  generalize bipolarBoard = b at *
  have hconv : b.convVoltsToDacBits = convVoltsTo18Bits :=
    congrArg Flavor.convVoltsToDacBits hflavor
  have hone : binary32.value 0x3F800000 = 1 := by decide +kernel
  obtain ⟨d₁, hd₁⟩ : ∃ d, d =
      b.toDevice.setSf Ps.ps1.chan { b.sf Ps.ps1.chan with dacDccts := 1 } := ⟨_, rfl⟩
  obtain ⟨d₂, hd₂⟩ : ∃ d, d =
      d₁.outChan .fofbScalefactor Ps.ps1.chan (d₁.fofbScale binary32 1) := ⟨_, rfl⟩
  have h₂ : d₂.fofb .ps1 = ⟨(b.fofb .ps1).mode, scaleWord binary32 convVoltsTo18Bits 1, 1,
      convVoltsTo18Bits⟩ := by
    rw [hd₂, hd₁, fofb_outChan_fofbScalefactor _ (addresses_self _), fofb_setSf_self, fofbScale_eq,
      ← hconv]
    rfl
  have h₃ : (d₂.setDacOpmode Ps.ps1.chan binary32 2).fofb .ps1 =
      ⟨2, scaleWord binary32 convVoltsTo18Bits 1, 1, convVoltsTo18Bits⟩ := by
    have hdccts : (d₂.sf Ps.ps1.chan).dacDccts = 1 := congrArg FofbView.dccts h₂
    have hconv₂ : d₂.convVoltsToDacBits = convVoltsTo18Bits := congrArg FofbView.conv h₂
    rw [Device.setDacOpmode, if_neg (by decide), if_pos rfl,
      fofb_outChan_dacOpmode _ (addresses_self _),
      fofb_outChan_fofbScalefactor _ (addresses_self _), fofbScale_eq, hdccts, hconv₂, h₂,
      stored_dacOpmode]
  obtain ⟨b₂, hb₂⟩ : ∃ b₂ : Board, b₂ = { b with toDevice := d₂ } := ⟨_, rfl⟩
  obtain ⟨b₃, hb₃⟩ : ∃ b₃ : Board, b₃ =
      { b with toDevice := d₂.setDacOpmode Ps.ps1.chan binary32 2 } := ⟨_, rfl⟩
  have hfactor : ChanMsg.ofCode (304 : BitVec 32).toNat = some .sfDacDccts := rfl
  have hmode : ChanMsg.ofCode (100 : BitVec 32).toNat = some .dacOpmode := rfl
  have hcase₁ : chanCase binary32 (fun _ => 0) b.toDevice Ps.ps1.chan 0x3F800000 .sfDacDccts =
      .ok d₂ := by
    rw [chanCase, hone, hd₂, hd₁]
  have hcase₂ : chanCase binary32 (fun _ => 0) b₂.toDevice Ps.ps1.chan 2 .dacOpmode =
      .ok (d₂.setDacOpmode Ps.ps1.chan binary32 2) := by
    rw [chanCase, hb₂]
  have hstep₁ : b.step binary32 (fun _ => 0) (typed 1 304 0x3F800000) = some b₂ :=
    step_typed hfactor hcase₁ hb₂
  have hstep₂ : b₂.step binary32 (fun _ => 0) (typed 1 100 2) = some b₃ :=
    step_typed hmode hcase₂ (hb₃.trans (by rw [hb₂]))
  have hrun : runs (Board.step binary32 fun _ => 0) b
      [typed 1 304 0x3F800000, typed 1 100 2, .edit (.setResolution '1')] =
        some (Edit.exec b₃ (.setResolution '1')) := by
    rw [runs, hstep₁, Option.bind_some, runs, hstep₂, Option.bind_some]
    rfl
  have hfofb : (Edit.exec b₃ (.setResolution '1')).fofb .ps1 =
      ⟨2, scaleWord binary32 convVoltsTo18Bits 1, 1, convVoltsTo20Bits⟩ := by
    rw [fofb_exec, if_pos (show Edit.reads (.setResolution '1') = true from rfl), hb₃, h₃]
    rfl
  refine ⟨_, hrun, congrArg FofbView.mode hfofb, fun h => ?_⟩
  have hscale := (congrArg FofbView.scale hfofb).symm.trans (h.trans
    (congrArg (fun v : FofbView => scaleWord binary32 v.conv v.dccts) hfofb))
  revert hscale
  decide +kernel

end Psc.Control
