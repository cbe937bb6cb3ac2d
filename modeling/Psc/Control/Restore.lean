import Psc.Control.Limits
import Psc.Control.Persist

/-!
# Settings restored

What the registers and the scale factors of the board can hold (`held_of_reach`), and the round trip
through the flash: the settings come back after any commands none of which is a `WRITE_QSPI_MSG` to
a number that agrees with the channel in the eight bits that reach the flash (`restored`). A console
command to such a number replaces what was saved (`sector_shared`).
-/

namespace Psc.Control

open Program Program.Prog Net Transition

/-! ## What the board can hold -/

section Holds

variable {fmt : FloatFormat} {reset : BitVec 32 → BitVec 32}

theorem Device.Fits.flash {d : Device} (hd : d.Fits) (f : Bytes) :
    Device.Fits { d with flash := f } :=
  hd

theorem fits_perform (stack : Bytes) (i : Access) {d : Device} (hd : d.Fits) :
    (i.perform stack d).2.Fits := by
  cases i with
  | out32 a v => exact hd.xilOut32 a v
  | flashErase c => exact hd.flash _
  | flashWrite c buf => exact hd.flash _
  | _ => exact hd

/-- The members of a record of scale factors. -/
def ScaleFactorType.members (s : ScaleFactorType) : List ℚ :=
  [s.ampspersec, s.dacDccts, s.vout, s.ignd, s.spare, s.regulator, s.error]

theorem reload_eq_iff {s : ScaleFactorType} :
    s.reload fmt = s ↔ ∀ x ∈ s.members, fmt.value (fmt.word x) = x := by
  obtain ⟨⟨a, b⟩, c, d, e, f, g⟩ := s
  simp [ScaleFactorType.reload, ScaleFactorType.members, and_assoc]

theorem Device.Held.xilOut32 {d : Device} (hd : d.Held fmt) (a v : BitVec 32) :
    (d.xilOut32 a v).Held fmt :=
  ⟨hd.regs.xilOut32 a v, hd.sf⟩

theorem Device.Held.flash {d : Device} (hd : d.Held fmt) (f : Bytes) :
    Device.Held fmt { d with flash := f } :=
  ⟨hd.regs, hd.sf⟩

theorem Device.scalefactors_flash (d : Device) (f : Bytes) :
    Device.scalefactors { d with flash := f } = d.scalefactors :=
  rfl

theorem Device.Held.setSf {d : Device} (hd : d.Held fmt) {chan : BitVec 32} {s : ScaleFactorType}
    (hs : ∀ ps : Ps, ps.chan - 1 = chan - 1 → s.reload fmt = s) : (d.setSf chan s).Held fmt := by
  refine ⟨hd.regs, fun ps => ?_⟩
  show (Function.update d.scalefactors (chan - 1) s (ps.chan - 1)).reload fmt =
    Function.update d.scalefactors (chan - 1) s (ps.chan - 1)
  by_cases h : ps.chan - 1 = chan - 1
  · rw [h, Function.update_self]
    exact hs ps h
  · rw [Function.update_of_ne h]
    exact hd.sf ps

variable (hfmt : fmt.Lawful)

include hfmt

theorem Device.Held.change {d : Device} (hd : d.Held fmt) {chan data : BitVec 32}
    {s : ScaleFactorType} (hs : ∀ x ∈ s.members, x = fmt.value data ∨ x ∈ (d.sf chan).members) :
    (d.setSf chan s).Held fmt := by
  refine hd.setSf fun ps hps => reload_eq_iff.mpr fun x hx => ?_
  have hchan : d.sf ps.chan = d.sf chan := congrArg d.scalefactors hps
  rcases hs x hx with rfl | hx
  · exact hfmt data
  · exact reload_eq_iff.mp (hd.sf ps) x (hchan ▸ hx)

theorem reload_values (w : ℕ → BitVec 32) :
    ScaleFactorType.reload fmt
      { ampspersec := fmt.value (w 38)
        dacDccts := fmt.value (w 39)
        vout := fmt.value (w 40)
        ignd := fmt.value (w 41)
        spare := fmt.value (w 42)
        regulator := fmt.value (w 43)
        error := fmt.value (w 44) } =
      { ampspersec := fmt.value (w 38)
        dacDccts := fmt.value (w 39)
        vout := fmt.value (w 40)
        ignd := fmt.value (w 41)
        spare := fmt.value (w 42)
        regulator := fmt.value (w 43)
        error := fmt.value (w 44) } := by
  simp only [ScaleFactorType.reload, hfmt _]

omit hfmt in
theorem scalefactors_readQspi (stack : Bytes) (d : Device) (chan : BitVec 32) :
    (readQspi fmt stack d chan).scalefactors = Function.update d.scalefactors (chan - 1)
      ((readQspi fmt stack d chan).sf chan) := by
  have hregs : (qspiRegs.zipIdx.foldl (fun d' r => d'.outChan r.1 chan
      (wordAt (qspiFlashRead stack chan d.flash) (r.2 + 1))) d).scalefactors = d.scalefactors := by
    generalize qspiRegs.zipIdx = rs
    exact List.foldlRecOn rs _ (motive := fun d' : Device => d'.scalefactors = d.scalefactors) rfl
      fun _ hd' _ _ => hd'
  rw [sf_readQspi]
  conv_lhs => unfold readQspi qspiDisperseData Device.setSf
  dsimp only
  rw [hregs]

theorem sf_held_readQspi (stack : Bytes) {d : Device} (hd : d.Held fmt) (chan : BitVec 32)
    (ps : Ps) : ((readQspi fmt stack d chan).sf ps.chan).reload fmt =
      (readQspi fmt stack d chan).sf ps.chan := by
  have hrec := reload_values hfmt (wordAt (qspiFlashRead stack chan d.flash))
  rw [← sf_readQspi] at hrec
  have hset : (d.setSf chan ((readQspi fmt stack d chan).sf chan)).Held fmt :=
    hd.setSf fun _ _ => hrec
  replace hset := hset.sf ps
  unfold Device.sf at hset ⊢
  rw [scalefactors_readQspi]
  exact hset

/-- A command leaves what the board can hold. -/
theorem Device.Held.chanSettings {stack : Bytes} {d d' : Device} {chan addr data : BitVec 32}
    (hd : d.Held fmt) (h : chanSettings fmt stack d chan addr data = .ok d') : d'.Held fmt := by
  have hfits : d'.Fits :=
    chanSettings_keeps fmt (I := Device.Fits) (fun i d _ hd => fits_perform stack i hd) h hd.regs
  refine ⟨hfits, ?_⟩
  by_cases hscales : (settingRights addr data).scales
  · unfold Control.chanSettings at h
    unfold settingRights at hscales
    cases hmsg : ChanMsg.ofCode addr.toNat with
    | none => simp [hmsg] at hscales
    | some msg =>
      simp only [hmsg] at h hscales
      rw [chanCase_kind] at h
      cases hk : msg.kind with
      | factor set =>
        rw [hk] at h
        obtain rfl := Except.ok.inj h
        have hset : ∀ s : ScaleFactorType, ∀ x ∈ (set s (fmt.value data)).members,
            x = fmt.value data ∨ x ∈ s.members := by
          cases msg <;> cases hk
          all_goals simp [ScaleFactorType.members]
        exact (hd.change hfmt (hset (d.sf chan))).sf
      | sfDacDccts =>
        rw [hk] at h
        obtain rfl := Except.ok.inj h
        have hset : ∀ x ∈ ({ d.sf chan with dacDccts := fmt.value data } : ScaleFactorType).members,
            x = fmt.value data ∨ x ∈ (d.sf chan).members := by
          simp [ScaleFactorType.members]
        exact (hd.change hfmt hset).sf
      | writeQspi =>
        have h1 : data = 1 := by simpa [hk, Kind.rights] using hscales
        rw [hk, Kind.apply, if_pos h1, Except.ok.injEq, writeQspi] at h
        rw [← h]
        exact sf_held_readQspi hfmt stack (hd.flash _) chan
      | readQspi =>
        have h1 : data = 1 := by simpa [hk, Kind.rights] using hscales
        rw [hk, Kind.apply, if_pos h1, Except.ok.injEq] at h
        rw [← h]
        exact sf_held_readQspi hfmt stack hd chan
      | _ => simp [hk, Kind.rights] at hscales
  · have hsame : d'.scalefactors = d.scalefactors := by
      refine chanSettings_keeps fmt (I := fun d' => d'.scalefactors = d.scalefactors)
        (fun i d' hi hd' => ?_) h rfl
      cases i with
      | setSf j s => exact (hscales hi.2).elim
      | flashErase c => exact (d'.scalefactors_flash _).trans hd'
      | flashWrite c buf => exact (d'.scalefactors_flash _).trans hd'
      | _ => exact hd'
    intro ps
    rw [Device.sf, hsame]
    exact hd.sf ps

omit hfmt in
theorem Device.Held.globSettings {d : Device} (hd : d.Held fmt) (addr data : BitVec 32) :
    (globSettings d addr data).Held fmt := by
  unfold Control.globSettings Device.softTrig
  split
  case h_1 | h_2 => exact (hd.xilOut32 _ _).xilOut32 _ _
  case h_11 => exact hd
  all_goals exact hd.xilOut32 _ _

omit hfmt in
theorem Device.Held.writeRamptable {d d' : Device} {chan : BitVec 32} {msg : Bytes} {msglen : ℕ}
    (hd : d.Held fmt) (h : writeRamptable fmt d chan msg msglen = .ok d') : d'.Held fmt := by
  have hkeeps : ∀ i d, Footprint chan rampRights i → Device.Held fmt d →
      Device.Held fmt (i.perform (fun _ => 0) d).2 := by
    intro i d hi hd
    cases i with
    | out32 a v => exact hd.xilOut32 a v
    | setSf j s => exact hi.2.elim
    | flashErase c => exact hi.2.elim
    | flashWrite c buf => exact hi.2.elim
    | _ => exact ⟨hd.regs, hd.sf⟩
  exact writeRamptable_keeps fmt hkeeps h hd

theorem Device.Held.clientMsg {stack : Bytes} {d d' : Device} {msgid : BitVec 16} {msglen : ℕ}
    {msg : Bytes} (hd : d.Held fmt) (h : clientMsg fmt stack d msgid msglen msg = .ok d') :
    d'.Held fmt := by
  unfold Net.clientMsg at h
  split_ifs at h
  · exact Except.ok.inj h ▸ hd.blink.globSettings _ _
  · exact hd.blink.chanSettings hfmt h
  · exact hd.blink.writeRamptable h
  · exact Except.ok.inj h ▸ hd.blink

omit hfmt

theorem Device.Held.readHardwareFlavor {b : Board} (hb : b.Held fmt) :
    (readHardwareFlavor b).Held fmt :=
  keeps_readHardwareFlavor (I := fun b : Board => b.Held fmt) (fun _ a v _ hb => hb.xilOut32 a v)
    (fun _ _ _ hb => ⟨hb.regs, hb.sf⟩) hb

theorem Device.Held.eepromWrites {b : Board} (hb : b.Held fmt) (a val : ℕ → BitVec 8)
    (is : List ℕ) : (is.foldl (fun b i => eepromWriteByte b (a i) (val i)) b).Held fmt := by
  induction is generalizing b with
  | nil => exact hb
  | cons i is ih => exact ih (b := eepromWriteByte b (a i) (val i)) hb

theorem Device.Held.setFlavor {b : Board} (hb : b.Held fmt) (reg : FlavorReg) (c : Char) :
    (setFlavor reg c b).Held fmt := by
  unfold Control.setFlavor
  dsimp only
  split_ifs
  · exact Device.Held.readHardwareFlavor (b := eepromWriteByte b reg.byteAddr (getBinaryInput c)) hb
  · exact hb.readHardwareFlavor

theorem Device.Held.exec {b : Board} (hb : b.Held fmt) (e : Edit) : (e.exec b).Held fmt := by
  cases e
  case clearEeprom input =>
    show (clearEeprom input b).Held fmt
    unfold clearEeprom
    split_ifs
    · exact hb
    · exact hb.eepromWrites ..
  case testEeprom input =>
    show (testEeprom input b).Held fmt
    unfold testEeprom
    split_ifs
    · exact hb
    · exact hb.eepromWrites ..
  all_goals exact hb.setFlavor _ _

theorem fits_readQspi (stack : Bytes) {d : Device} (hd : d.Fits) (chan : BitVec 32) :
    (readQspi fmt stack d chan).Fits :=
  keeps_of_exec stack (footprint_readQspi fmt chan (r := ⟨fun _ => True, True, True, True, True⟩)
    (fun _ _ => trivial) trivial trivial) (I := Device.Fits)
    (fun i _ _ hd => fits_perform stack i hd) (exec_readQspi fmt stack d chan) hd

/-- What the board holds when the server starts. -/
theorem held_boot (hfmt : fmt.Lawful) (stack flash : Bytes) (eeprom : BitVec 8 → BitVec 8) :
    (boot fmt stack reset flash eeprom).Held fmt := by
  have hon : (powerOn reset flash eeprom).Fits := fun a => stored_stored a (reset a)
  have hmain : (mainInit (powerOn reset flash eeprom)).Fits := by
    have hflavor : (readHardwareFlavor ((powerOn reset flash eeprom).out 0x18 427853)).Fits :=
      keeps_readHardwareFlavor (I := fun b : Board => b.Fits) (fun _ a v _ hb => hb.xilOut32 a v)
        (fun _ _ _ hb => hb) (hon.xilOut32 _ _)
    exact ((((((hflavor.xilOut32 _ _).xilOut32 _ _).xilOut32 _ _).xilOut32 _ _).xilOut32 _
      _).xilOut32 _ _).xilOut32 _ _
  refine ⟨?_, fun ps => ?_⟩
  · show (initSettingsFromQspi fmt stack (mainInit (powerOn reset flash eeprom)).toDevice).Fits
    unfold initSettingsFromQspi
    simp only [List.foldl_cons, List.foldl_nil]
    exact fits_readQspi stack (fits_readQspi stack (fits_readQspi stack (fits_readQspi stack
      ((hmain.xilOut32 _ _).xilOut32 _ _) 1) 2) 3) 4
  · obtain ⟨s', -, hinit⟩ := exists_persisted_initSettings stack
      (mainInit (powerOn reset flash eeprom)).toDevice ps
    have hsf : (boot fmt stack reset flash eeprom).sf ps.chan =
        (readQspi fmt stack s' ps.chan).sf ps.chan := congrArg Prod.snd hinit
    rw [hsf, sf_readQspi]
    exact reload_values hfmt (wordAt (qspiFlashRead stack ps.chan s'.flash))

theorem held_step (hfmt : fmt.Lawful) {b b' : Board} {c : Command} (hb : b.Held fmt)
    (h : b.step fmt reset c = some b') : b'.Held fmt := by
  cases c with
  | client stack msgid msglen msg =>
    obtain ⟨d', hd', rfl⟩ := Board.command_eq_some h
    exact Device.Held.clientMsg hfmt hb hd'
  | console stack chan addr data =>
    obtain ⟨d', hd', rfl⟩ := Board.command_eq_some h
    exact Device.Held.chanSettings hfmt hb hd'
  | edit e => exact Option.some.inj h ▸ hb.exec e
  | restart stack => exact Option.some.inj h ▸ held_boot hfmt stack b.flash b.eeprom

/-- **What the board can hold.** In every state of every run, registers hold what their fields can,
and the scale factors of the channels are floats. -/
theorem held_of_reach (hfmt : fmt.Lawful) {s : Board}
    (hs : Reach (Board.step fmt reset) (fun _ _ => True)
      (fun b => ∃ stack flash eeprom, b = boot fmt stack reset flash eeprom) s) : s.Held fmt := by
  refine Reach.invariant (I := fun s : Board => s.Held fmt) hs ?_ ?_
  · rintro _ ⟨stack, flash, eeprom, rfl⟩
    exact held_boot hfmt stack flash eeprom
  · exact fun b c b' hb _ h => held_step hfmt hb h

end Holds

/-- No command is a `WRITE_QSPI_MSG` to a number that agrees with the channel in the eight bits that
reach the flash. -/
def Spares (ps : Ps) (_ : Board) (c : Command) : Prop :=
  ∀ n : BitVec 32, n.toNat % 256 = ps.chan.toNat → ¬c.On n .writeQspi

theorem Saved.reach {fmt : FloatFormat} {reset : BitVec 32 → BitVec 32} {ps : Ps} {d : Device}
    {w s : Board} (hw : Saved ps.chan fmt d w.flash)
    (hs : Reach (Board.step fmt reset) (Spares ps) (fun s => s = w) s) :
    Saved ps.chan fmt d s.flash := by
  have hchan : ps.chan.toNat % 256 = ps.chan.toNat := by cases ps <;> rfl
  refine Reach.invariant (I := fun s : Board => Saved ps.chan fmt d s.flash) hs ?_ ?_
  · rintro x rfl
    exact hw
  · intro x c y hx hc hy
    refine hx.congr (inSector_step (fun n hn => hc n ?_) hy)
    rw [sectorAddr_eq, sectorAddr_eq, hchan] at hn
    omega

theorem apart_step {fmt : FloatFormat} {reset : BitVec 32 → BitVec 32} {ps ps' : Ps}
    (hne : ps' ≠ ps) {x y : Board} {c : Command} {msg : ChanMsg} {code : BitVec 32}
    (hcode : ChanMsg.ofCode code.toNat = some msg) (hc : c.On ps.chan msg)
    (hy : x.step fmt reset c = some y) :
    y.persisted ps' = x.persisted ps' ∧ inSector ps'.chan y.flash = inSector ps'.chan x.flash := by
  obtain ⟨stack, d, hd, hstep⟩ := step_on fmt reset x hc
  obtain ⟨d', hd', rfl⟩ := Board.command_eq_some (hstep ▸ hy)
  have hset : chanSettings fmt stack d ps.chan code 1 = .ok d' := by
    rw [chanSettings, hcode]
    exact hd'
  obtain ⟨hregs, hsect⟩ := chanSettings_apart hne hset
  exact ⟨hregs.trans (persisted_of_blink hd ps'),
    hsect.trans (congrArg (inSector ps'.chan) (flash_of_blink hd))⟩

/-- **Settings persist.** From a `WRITE_QSPI_MSG` on a channel on, while each command spares the
channel's sector, a `READ_QSPI_MSG` and a restart bring back all that was saved. And in every state,
neither of the two operations changes what is saved of another channel, on the board or in the
flash. -/
theorem restored (fmt : FloatFormat) (reset : BitVec 32 → BitVec 32) (ps : Ps) {b w s : Board}
    (hb : b.Held fmt) {c : Command} (hc : c.On ps.chan .writeQspi)
    (hw : b.step fmt reset c = some w)
    (hs : Reach (Board.step fmt reset) (Spares ps) (fun s => s = w) s) :
    (∀ c', c'.On ps.chan .readQspi →
        ∃ t, s.step fmt reset c' = some t ∧ t.persisted ps = b.persisted ps) ∧
      (∀ stack, ∃ t, s.step fmt reset (.restart stack) = some t ∧
        t.persisted ps = b.persisted ps) ∧
      ∀ (x y : Board) (c' : Command), c'.On ps.chan .writeQspi ∨ c'.On ps.chan .readQspi →
        x.step fmt reset c' = some y → ∀ ps' ≠ ps, y.persisted ps' = x.persisted ps' ∧
          inSector ps'.chan y.flash = inSector ps'.chan x.flash := by
  obtain ⟨stack, d, hd, hstep⟩ := step_on fmt reset b hc
  rw [hstep, chanCase_writeQspi] at hw
  obtain ⟨d', hd', hwd⟩ := Board.command_eq_some hw
  have hheld := held_of_blink hd hb
  have hwritten : Saved ps.chan fmt d w.flash := by
    have hflash : w.flash = qspiFlashWrite ps.chan (qspiGatherData fmt stack d ps.chan)
        (qspiFlashEraseSect ps.chan d.flash) := by
      rw [hwd, ← Except.ok.inj hd']
      exact flash_readQspi fmt stack _ ps.chan
    exact hflash ▸ saved_write ps.chan fmt stack d d.flash
  have hsaved := hwritten.reach hs
  refine ⟨fun c' hc' => ?_, fun stack' => ?_, fun x y c' hc' hy ps' hne => ?_⟩
  · obtain ⟨stack', d₁, hd₁, hstep₁⟩ := step_on fmt reset s hc'
    rw [hstep₁, chanCase_readQspi]
    refine ⟨_, rfl, ?_⟩
    have hread := persisted_readQspi fmt stack' hheld ((flash_of_blink hd₁).symm ▸ hsaved)
    exact hread.trans (persisted_of_blink hd ps)
  · exact ⟨_, rfl, (persisted_boot stack' hheld hsaved s.eeprom).trans (persisted_of_blink hd ps)⟩
  · obtain hc' | hc' := hc'
    · exact apart_step hne (show ChanMsg.ofCode (400 : BitVec 32).toNat = _ from rfl) hc' hy
    · exact apart_step hne (show ChanMsg.ofCode (404 : BitVec 32).toNat = _ from rfl) hc' hy

/-! ### Two later commands -/

/-- A board with all registers zero and unit scale factors. -/
def blankBoard : Board := ⟨blankDevice, 0, fun _ => 0⟩

theorem held_blankBoard : blankBoard.Held binary32 := by
  refine ⟨fun a => ?_, fun ps => reload_eq_iff.mpr ?_⟩
  · show BitVec.ofNat 32 (0 % 2 ^ fieldWidth a) = 0
    rw [Nat.zero_mod]
    rfl
  · have hone : binary32.value (binary32.word 1) = 1 := by decide +kernel
    intro x hx
    have hx : x = 1 := by
      simpa [ScaleFactorType.members, blankBoard, Device.sf, blankDevice] using hx
    rw [hx, hone]

/-- A setting typed at the console. -/
def typed (chan addr data : BitVec 32) : Command := .console (fun _ => 0) chan addr data

/-- A save of the first channel, and then another fault mask. The saved one comes back. -/
theorem mask_restored : ∃ w s t,
    blankBoard.step binary32 (fun _ => 0) (typed 1 400 1) = some w ∧
      w.step binary32 (fun _ => 0) (typed 1 264 7) = some s ∧
      s.step binary32 (fun _ => 0) (typed 1 404 1) = some t ∧
      t.persisted .ps1 = blankBoard.persisted .ps1 := by
  obtain ⟨w, hw⟩ : ∃ w, blankBoard.step binary32 (fun _ => 0) (typed 1 400 1) = some w :=
    ⟨_, rfl⟩
  obtain ⟨s, hs⟩ : ∃ s, w.step binary32 (fun _ => 0) (typed 1 264 7) = some s := ⟨_, rfl⟩
  have hspares : Spares .ps1 w (typed 1 264 7) := by
    rintro n - ⟨-, hmsg, -⟩
    cases hmsg
  have hstart : Reach (Board.step binary32 fun _ => 0) (Spares .ps1) (fun s => s = w) w :=
    .start rfl
  have hres := restored binary32 (fun _ => 0) .ps1 held_blankBoard (c := typed 1 400 1)
    ⟨rfl, rfl, rfl⟩ hw (hstart.next _ hspares hs)
  obtain ⟨t, ht, hsame⟩ := hres.1 (typed 1 404 1) ⟨rfl, rfl, rfl⟩
  exact ⟨w, s, t, hw, hs, ht, hsame⟩

/-- A save and a restore of the first channel with a save of channel 8388609 in between. It agrees
with the first channel in the eight bits, and even in the addresses of its registers. -/
theorem sector_shared :
    (runs (Board.step binary32 fun _ => 0) blankBoard
        [typed 1 400 1, typed 1 264 7, typed 8388609 400 1, typed 1 404 1]).map
          (fun t => t.inChan .faultMask Ps.ps1.chan) = some 7 ∧
      blankBoard.inChan .faultMask Ps.ps1.chan = 0 ∧
      ¬(typed 1 264 7).On Ps.ps1.chan .writeQspi ∧
      ¬(typed 8388609 400 1).On Ps.ps1.chan .writeQspi := by
  refine ⟨by decide +kernel, by decide +kernel, ?_, ?_⟩
  · rintro ⟨-, hmsg, -⟩
    cases hmsg
  · rintro ⟨hchan, -, -⟩
    exact absurd hchan (by decide)

end Psc.Control
