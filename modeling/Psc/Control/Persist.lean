import Psc.Control.Accesses
import Psc.Control.Flavor
import Psc.Lib.Transition
import Psc.Net.ClientMsg

/-!
# Settings in the flash

`WRITE_QSPI_MSG` saves the calibration of a channel, its fault parameters and its scale factors to
the sector of the flash that has the number of the channel; `READ_QSPI_MSG` and the start of the
board bring them back. Commands come from clients, whose channel is one of the four, and from the
console, which takes any number (`Command`).

A record survives in the flash until a `WRITE_QSPI_MSG` to a number with the same sector
(`inSector_step`), of which only eight bits count (`sectorAddr_eq`). While it is there, it can be
read back (`persisted_readQspi`), and the start of the board does (`persisted_boot`).
-/

namespace Psc.Control

open Program Program.Prog Net Transition

/-! ## Commands -/

/-- What can happen to the board: a message from a client, a setting typed at the console, another
entry of its menu, a power cycle. The stack is what the buffers of the command hold at first. -/
inductive Command where
  | client (stack : Bytes) (msgid : BitVec 16) (msglen : ℕ) (msg : Bytes)
  | console (stack : Bytes) (chan addr data : BitVec 32)
  | edit (e : Edit)
  | restart (stack : Bytes)

section Step

variable (fmt : FloatFormat) (reset : BitVec 32 → BitVec 32)

/-- A command on the device. -/
def Board.command (b : Board) (d : Except Trap Device) : Option Board :=
  d.toOption.map fun d => { b with toDevice := d }

/-- What a command does, unless it has no result in C. -/
def Board.step (b : Board) : Command → Option Board
  | .client stack msgid msglen msg => b.command (clientMsg fmt stack b.toDevice msgid msglen msg)
  | .console stack chan addr data => b.command (chanSettings fmt stack b.toDevice chan addr data)
  | .edit e => some (e.exec b)
  | .restart stack => some (boot fmt stack reset b.flash b.eeprom)

end Step

/-- A command is a setting of a channel to 1. -/
def Command.On (chan : BitVec 32) (msg : ChanMsg) : Command → Prop
  | .client _ msgid _ m => (msgid = 1 ∨ msgid = 2 ∨ msgid = 3 ∨ msgid = 4) ∧
      msgid.setWidth 32 = chan ∧ ChanMsg.ofCode (msgWord m 0).toNat = some msg ∧ msgWord m 1 = 1
  | .console _ c addr data => c = chan ∧ ChanMsg.ofCode addr.toNat = some msg ∧ data = 1
  | _ => False

/-! ## What is saved -/

/-- The settings of a channel that are saved: its registers and its scale factors. -/
def Device.persisted (d : Device) (ps : Ps) : List (BitVec 32) × ScaleFactorType :=
  (qspiRegs.map fun reg => d.inChan reg ps.chan, d.sf ps.chan)

/-- The sector of a channel. -/
def inSector (chan : BitVec 32) (flash : Bytes) (n : Fin 0x10000) : BitVec 8 :=
  flash (sectorAddr chan + n)

/-- A record of scale factors written to memory and read back. -/
def ScaleFactorType.reload (fmt : FloatFormat) (s : ScaleFactorType) : ScaleFactorType where
  ampspersec := fmt.value (fmt.word s.ampspersec)
  dacDccts := fmt.value (fmt.word s.dacDccts)
  vout := fmt.value (fmt.word s.vout)
  ignd := fmt.value (fmt.word s.ignd)
  spare := fmt.value (fmt.word s.spare)
  regulator := fmt.value (fmt.word s.regulator)
  error := fmt.value (fmt.word s.error)

/-- Registers hold what their fields can. -/
def Device.Fits (d : Device) : Prop := ∀ a, stored a (d.regs a) = d.regs a

/-- Registers hold what their fields can, and the scale factors of the channels are floats. -/
structure Device.Held (fmt : FloatFormat) (d : Device) : Prop where
  regs : d.Fits
  sf : ∀ ps : Ps, (d.sf ps.chan).reload fmt = d.sf ps.chan

/-! ## The flash -/

section Flash

variable (chan : BitVec 32)

/-- Eight bits of a channel number reach the flash. -/
theorem sectorAddr_eq : sectorAddr chan = chan.toNat % 256 * 0x10000 := by
  have h : (0x10000 : BitVec 32).toNat = 0x10000 := rfl
  rw [sectorAddr, BitVec.toNat_mul, h]
  omega

theorem sectorAddr_ps (ps : Ps) : sectorAddr ps.chan = (ps.idx + 1) * 0x10000 := by
  rw [sectorAddr_eq]
  cases ps <;> rfl

theorem qspiFlashRead_write (stack buf flash : Bytes) {n : ℕ} (h4 : 4 ≤ n) (hn : n < 256) :
    qspiFlashRead stack chan (qspiFlashWrite chan buf (qspiFlashEraseSect chan flash)) n =
      buf n := by
  have hpage : sectorAddr chan ≤ sectorAddr chan + (n - 4) ∧
      sectorAddr chan + (n - 4) < sectorAddr chan + 252 := by omega
  have hsect : sectorAddr chan ≤ sectorAddr chan + (n - 4) ∧
      sectorAddr chan + (n - 4) < sectorAddr chan + 0x10000 := by omega
  have hoff : sectorAddr chan + (n - 4) - sectorAddr chan + 4 = n := by omega
  rw [qspiFlashRead, if_neg (by omega), qspiFlashWrite, if_pos hpage, qspiFlashEraseSect,
    if_pos hsect, hoff]
  exact BitVec.allOnes_and

theorem inSector_erase {c : BitVec 32} (hc : sectorAddr c ≠ sectorAddr chan) (flash : Bytes) :
    inSector chan (qspiFlashEraseSect c flash) = inSector chan flash := by
  rw [sectorAddr_eq, sectorAddr_eq] at hc
  funext n
  have hn := n.isLt
  refine if_neg ?_
  rw [sectorAddr_eq, sectorAddr_eq]
  omega

theorem inSector_write {c : BitVec 32} (hc : sectorAddr c ≠ sectorAddr chan) (buf flash : Bytes) :
    inSector chan (qspiFlashWrite c buf flash) = inSector chan flash := by
  rw [sectorAddr_eq, sectorAddr_eq] at hc
  funext n
  have hn := n.isLt
  refine if_neg ?_
  rw [sectorAddr_eq, sectorAddr_eq]
  omega

/-- A word is made of its bytes. -/
theorem wordAt_of_bytes {buf : Bytes} {k : ℕ} {w : BitVec 32}
    (h : ∀ j < 4, buf (4 * k + j) = w.extractLsb' (8 * j) 8) : wordAt buf k = w := by
  have h0 := h 0 (by norm_num)
  have h1 := h 1 (by norm_num)
  have h2 := h 2 (by norm_num)
  have h3 := h 3 (by norm_num)
  rw [wordAt, h3, h2, h1, show 4 * k = 4 * k + 0 from rfl, h0]
  refine BitVec.eq_of_getLsbD_eq fun i hi => ?_
  simp only [BitVec.getLsbD_append, BitVec.getLsbD_extractLsb']
  by_cases h8 : i < 8
  · simp [h8]
  by_cases h16 : i - 8 < 8
  · simp [h8, h16]
    congr 1
    omega
  by_cases h24 : i - 8 - 8 < 8
  · simp [h8, h16, h24]
    congr 1
    omega
  · have h32 : i - 8 - 8 - 8 < 8 := by omega
    simp [h8, h16, h24, h32]
    congr 1
    omega

/-- The flash holds the record of a channel of `d`. -/
def Saved (fmt : FloatFormat) (d : Device) (flash : Bytes) : Prop :=
  ∀ stack k, 1 ≤ k → k ≤ 44 →
    wordAt (qspiFlashRead stack chan flash) k = (qspiWords fmt d chan).getD (k - 1) 0

theorem saved_write (fmt : FloatFormat) (stack : Bytes) (d : Device) (flash : Bytes) :
    Saved chan fmt d (qspiFlashWrite chan (qspiGatherData fmt stack d chan)
      (qspiFlashEraseSect chan flash)) := by
  intro stack' k hk hk'
  refine wordAt_of_bytes fun j hj => ?_
  have hrec : 4 ≤ 4 * k + j ∧ 4 * k + j < 180 := by omega
  have hword : (4 * k + j) / 4 - 1 = k - 1 := by omega
  have hbyte : (4 * k + j) % 4 = j := by omega
  rw [qspiFlashRead_write chan _ _ _ (by omega) (by omega), qspiGatherData, if_pos hrec, hword,
    hbyte]

variable {chan}

theorem Saved.congr {fmt : FloatFormat} {d : Device} {flash flash' : Bytes}
    (h : Saved chan fmt d flash) (hsect : inSector chan flash' = inSector chan flash) :
    Saved chan fmt d flash' := by
  intro stack k hk hk'
  rw [← h stack k hk hk']
  refine wordAt_congr fun n hn hn' => ?_
  rw [qspiFlashRead, qspiFlashRead, if_neg (by omega), if_neg (by omega)]
  exact congrFun hsect ⟨n - 4, by omega⟩

end Flash

/-! ## Reading back -/

section ReadBack

variable (fmt : FloatFormat) (stack : Bytes)

theorem regs_outChans_of_mem (chan : BitVec 32) (v : ChanReg × ℕ → BitVec 32)
    (rs : List (ChanReg × ℕ)) (d : Device) (hrs : (rs.map fun r => r.1.addr chan).Nodup)
    {r : ChanReg × ℕ} (hr : r ∈ rs) :
    (rs.foldl (fun d r => d.outChan r.1 chan (v r)) d).regs (r.1.addr chan) =
      stored (r.1.addr chan) (v r) := by
  induction rs generalizing d with
  | nil => cases hr
  | cons r' rs ih =>
    obtain ⟨hnot, hrs⟩ := List.nodup_cons.mp hrs
    rcases List.mem_cons.mp hr with rfl | hr
    · rw [List.foldl_cons, regs_outChans_of_ne]
      · exact d.outChan_regs r.1 chan (v r)
      · exact fun r' hr' h => hnot (List.mem_map.mpr ⟨r', hr', h.symm⟩)
    · exact ih _ hrs hr

theorem flash_readQspi (d : Device) (chan : BitVec 32) :
    (readQspi fmt stack d chan).flash = d.flash := by
  unfold readQspi qspiDisperseData
  generalize qspiRegs.zipIdx = rs
  exact List.foldlRecOn rs _ (motive := fun d' : Device => d'.flash = d.flash) rfl
    fun _ hd' _ _ => hd'

theorem sf_readQspi (d : Device) (chan : BitVec 32) :
    (readQspi fmt stack d chan).sf chan =
      { ampspersec := fmt.value (wordAt (qspiFlashRead stack chan d.flash) 38)
        dacDccts := fmt.value (wordAt (qspiFlashRead stack chan d.flash) 39)
        vout := fmt.value (wordAt (qspiFlashRead stack chan d.flash) 40)
        ignd := fmt.value (wordAt (qspiFlashRead stack chan d.flash) 41)
        spare := fmt.value (wordAt (qspiFlashRead stack chan d.flash) 42)
        regulator := fmt.value (wordAt (qspiFlashRead stack chan d.flash) 43)
        error := fmt.value (wordAt (qspiFlashRead stack chan d.flash) 44) } :=
  Function.update_self ..

theorem nodup_qspiRegs_addr (chan : BitVec 32) :
    (qspiRegs.zipIdx.map fun r => r.1.addr chan).Nodup := by
  have hoffset : (qspiRegs.map ChanReg.offset).Nodup := by decide
  have hmap : (qspiRegs.zipIdx.map fun r => r.1.addr chan) =
      (qspiRegs.map ChanReg.offset).map fun a => a + chan * 0x200 := rfl
  rw [hmap]
  exact hoffset.map fun a b h => (BitVec.add_left_inj (chan * 0x200)).mp h

theorem Device.persisted_ext {d d' : Device} {ps : Ps}
    (hregs : ∀ reg ∈ qspiRegs, d.inChan reg ps.chan = d'.inChan reg ps.chan)
    (hsf : d.sf ps.chan = d'.sf ps.chan) : d.persisted ps = d'.persisted ps :=
  Prod.ext (List.map_congr_left hregs) hsf

/-- A channel whose record is in the flash is restored. -/
theorem persisted_readQspi {ps : Ps} {d s : Device} (hd : d.Held fmt)
    (hs : Saved ps.chan fmt d s.flash) :
    (readQspi fmt stack s ps.chan).persisted ps = d.persisted ps := by
  refine Device.persisted_ext (fun reg hreg => ?_) ?_
  · obtain ⟨k, hk⟩ := List.mem_iff_getElem?.mp hreg
    have hlt : k < qspiRegs.length := (List.getElem?_eq_some_iff.mp hk).1
    have hword : (qspiWords fmt d ps.chan).getD k 0 = d.inChan reg ps.chan := by
      rw [qspiWords, List.getD_eq_getElem?_getD, List.getElem?_append_left (by simpa using hlt),
        List.getElem?_map, hk]
      rfl
    have hregs := regs_outChans_of_mem ps.chan
      (fun r => wordAt (qspiFlashRead stack ps.chan s.flash) (r.2 + 1)) qspiRegs.zipIdx s
      (nodup_qspiRegs_addr ps.chan) (List.mem_zipIdx_iff_getElem? (x := (reg, k)) |>.mpr hk)
    rw [length_qspiRegs] at hlt
    rw [hs stack (k + 1) (by omega) (by omega), Nat.add_sub_cancel, hword] at hregs
    exact hregs.trans (hd.regs _)
  · rw [sf_readQspi, hs stack 38 (by omega) (by omega), hs stack 39 (by omega) (by omega),
      hs stack 40 (by omega) (by omega), hs stack 41 (by omega) (by omega),
      hs stack 42 (by omega) (by omega), hs stack 43 (by omega) (by omega),
      hs stack 44 (by omega) (by omega)]
    exact hd.sf ps

end ReadBack

/-! ## Channels apart -/

section Apart

theorem ChanReg.toNat_addr (reg : ChanReg) (ps : Ps) :
    0x200 * (ps.idx + 1) ≤ (reg.addr ps.chan).toNat ∧
      (reg.addr ps.chan).toNat < 0x200 * (ps.idx + 2) := by
  have hoffset : reg.offset.toNat < 0x200 := by cases reg <;> decide
  have hchan : (ps.chan * 0x200).toNat = 0x200 * (ps.idx + 1) := by cases ps <;> decide
  have hidx := ps.idx_lt
  rw [ChanReg.addr, BitVec.toNat_add, hchan]
  omega

variable {ps ps' : Ps} (hne : ps' ≠ ps)

include hne

theorem idx_ne : ps'.idx ≠ ps.idx := Ps.idx_injective.ne hne

theorem ChanReg.addr_ne (reg reg' : ChanReg) : reg'.addr ps'.chan ≠ reg.addr ps.chan := by
  intro h
  have hidx := idx_ne hne
  have h1 := reg.toNat_addr ps
  have h2 := reg'.toNat_addr ps'
  rw [h] at h2
  omega

theorem chan_sub_one_ne : ps'.chan - 1 ≠ ps.chan - 1 := by
  cases ps <;> cases ps' <;> first | exact absurd rfl hne | decide

theorem sectorAddr_ne : sectorAddr ps.chan ≠ sectorAddr ps'.chan := by
  have hidx := idx_ne hne
  rw [sectorAddr_ps, sectorAddr_ps]
  omega

end Apart

theorem ChanReg.addr_ne_glob (reg : ChanReg) (ps : Ps) (glob : GlobReg) :
    reg.addr ps.chan ≠ glob.addr := by
  intro h
  have hreg := reg.toNat_addr ps
  have hidx := ps.idx_lt
  have hglob : glob.addr.toNat < 0x200 ∨ 0xA00 ≤ glob.addr.toNat := by
    cases glob <;> decide
  rw [h] at hreg
  omega

section Frames

variable (d : Device) (ps : Ps)

theorem persisted_xilOut32 {a : BitVec 32} (ha : ∀ reg : ChanReg, reg.addr ps.chan ≠ a)
    (v : BitVec 32) : (d.xilOut32 a v).persisted ps = d.persisted ps :=
  Device.persisted_ext (fun reg _ => d.xilOut32_regs_of_ne (ha reg) v) rfl

theorem Device.persisted_flash (f : Bytes) :
    Device.persisted { d with flash := f } ps = d.persisted ps :=
  rfl

@[simp] theorem persisted_outGlob (glob : GlobReg) (v : BitVec 32) :
    (d.outGlob glob v).persisted ps = d.persisted ps :=
  persisted_xilOut32 d ps (fun reg => reg.addr_ne_glob ps glob) v

@[simp] theorem persisted_blink : (blink d).persisted ps = d.persisted ps := by
  simp [blink]

/-- The accesses of a command to one channel leave what is saved of another, and its sector. -/
theorem apart_perform {ps ps' : Ps} (hne : ps' ≠ ps) {r : Rights} (stack : Bytes) (i : Access)
    (d : Device) (hi : Footprint ps.chan r i) :
    (i.perform stack d).2.persisted ps' = d.persisted ps' ∧
      inSector ps'.chan (i.perform stack d).2.flash = inSector ps'.chan d.flash := by
  cases i with
  | out32 a v =>
    refine ⟨persisted_xilOut32 d ps' (fun reg => ?_) v, rfl⟩
    obtain ⟨reg', -, rfl⟩ | ⟨rfl, -⟩ := hi
    · exact ChanReg.addr_ne hne reg' reg
    · exact reg.addr_ne_glob ps' .softtrig
  | setSf j s =>
    obtain ⟨rfl, -⟩ := hi
    exact ⟨Device.persisted_ext (fun _ _ => rfl)
      (Function.update_of_ne (chan_sub_one_ne hne) ..), rfl⟩
  | flashErase c =>
    obtain ⟨rfl, -⟩ := hi
    exact ⟨d.persisted_flash ps' _, inSector_erase _ (sectorAddr_ne hne) _⟩
  | flashWrite c buf =>
    obtain ⟨rfl, -⟩ := hi
    exact ⟨d.persisted_flash ps' _, inSector_write _ (sectorAddr_ne hne) _ _⟩
  | _ => exact ⟨rfl, rfl⟩

/-- **Channels apart.** A setting of one channel leaves what is saved of another, in the registers,
in the scale factors and in the flash. -/
theorem chanSettings_apart {fmt : FloatFormat} {stack : Bytes} {d d' : Device} {ps ps' : Ps}
    (hne : ps' ≠ ps) {addr data : BitVec 32}
    (h : chanSettings fmt stack d ps.chan addr data = .ok d') :
    d'.persisted ps' = d.persisted ps' ∧ inSector ps'.chan d'.flash = inSector ps'.chan d.flash :=
  chanSettings_keeps fmt (I := fun d' => d'.persisted ps' = d.persisted ps' ∧
    inSector ps'.chan d'.flash = inSector ps'.chan d.flash) (fun i d' hi hd' =>
      have hi := apart_perform hne stack i d' hi
      ⟨hi.1.trans hd'.1, hi.2.trans hd'.2⟩) h ⟨rfl, rfl⟩

end Frames

/-! ## The sector over a run -/

section Sector

variable {fmt : FloatFormat} {reset : BitVec 32 → BitVec 32} {chan : BitVec 32}

theorem inSector_chanSettings {stack : Bytes} {d d' : Device} {c addr data : BitVec 32}
    (hc : sectorAddr c = sectorAddr chan →
      ¬(ChanMsg.ofCode addr.toNat = some .writeQspi ∧ data = 1))
    (h : chanSettings fmt stack d c addr data = .ok d') :
    inSector chan d'.flash = inSector chan d.flash := by
  refine chanSettings_keeps fmt (I := fun d' => inSector chan d'.flash = inSector chan d.flash)
    (fun i d' hi hd' => ?_) h rfl
  cases i with
  | flashErase c' =>
    obtain ⟨rfl, hw⟩ := hi
    exact (inSector_erase chan (fun heq => hc heq ((settingRights_saves_iff _ _).mp hw)) _).trans
      hd'
  | flashWrite c' buf =>
    obtain ⟨rfl, hw⟩ := hi
    exact (inSector_write chan (fun heq => hc heq ((settingRights_saves_iff _ _).mp hw)) _ _).trans
      hd'
  | _ => exact hd'

theorem flash_globSettings (d : Device) (addr data : BitVec 32) :
    (globSettings d addr data).flash = d.flash := by
  unfold globSettings
  split <;> rfl

theorem flash_writeRamptable {d d' : Device} {msg : Bytes} {msglen : ℕ}
    (h : writeRamptable fmt d chan msg msglen = .ok d') : d'.flash = d.flash := by
  have hkeeps : ∀ i d', Footprint chan rampRights i → d'.flash = d.flash →
      (i.perform (fun _ => 0) d').2.flash = d.flash := by
    intro i d' hi hd'
    cases i with
    | flashErase c' => exact hi.2.elim
    | flashWrite c' buf => exact hi.2.elim
    | _ => exact hd'
  exact writeRamptable_keeps fmt hkeeps h rfl

theorem flash_readHardwareFlavor (b : Board) : (readHardwareFlavor b).flash = b.flash :=
  keeps_readHardwareFlavor (I := fun b' : Board => b'.flash = b.flash) (fun _ _ _ _ hb => hb)
    (fun _ _ _ hb => hb) rfl

theorem flash_eepromWrites (b : Board) (a val : ℕ → BitVec 8) (is : List ℕ) :
    (is.foldl (fun b i => eepromWriteByte b (a i) (val i)) b).flash = b.flash := by
  induction is generalizing b with
  | nil => rfl
  | cons i is ih => exact ih _

theorem flash_setFlavor (reg : FlavorReg) (c : Char) (b : Board) :
    (setFlavor reg c b).flash = b.flash := by
  unfold setFlavor
  dsimp only
  rw [flash_readHardwareFlavor]
  split_ifs <;> rfl

theorem flash_exec (b : Board) (e : Edit) : (e.exec b).flash = b.flash := by
  cases e
  case clearEeprom input =>
    show (clearEeprom input b).flash = b.flash
    unfold clearEeprom
    split_ifs
    · rfl
    · exact flash_eepromWrites b ..
  case testEeprom input =>
    show (testEeprom input b).flash = b.flash
    unfold testEeprom
    split_ifs
    · rfl
    · exact flash_eepromWrites b ..
  all_goals exact flash_setFlavor _ _ b

theorem flash_mainInit (b : Board) : (mainInit b).flash = b.flash :=
  flash_readHardwareFlavor (b.out 0x18 427853)

theorem flash_initSettingsFromQspi (stack : Bytes) (d : Device) :
    (initSettingsFromQspi fmt stack d).flash = d.flash := by
  unfold initSettingsFromQspi
  simp only [List.foldl_cons, List.foldl_nil, flash_readQspi]
  rfl

theorem flash_boot (stack flash : Bytes) (eeprom : BitVec 8 → BitVec 8) :
    (boot fmt stack reset flash eeprom).flash = flash := by
  unfold boot
  dsimp only
  rw [flash_initSettingsFromQspi, flash_mainInit]
  rfl

theorem clientMsg_flash {stack : Bytes} {d d' : Device} {msgid : BitVec 16} {msglen : ℕ}
    {msg : Bytes}
    (hc : ∀ c, sectorAddr c = sectorAddr chan →
      ¬(Command.client stack msgid msglen msg).On c .writeQspi)
    (h : clientMsg fmt stack d msgid msglen msg = .ok d') :
    inSector chan d'.flash = inSector chan d.flash := by
  show inSector chan d'.flash = inSector chan (blink d).flash
  unfold clientMsg at h
  split_ifs at h with h0 h1 h2
  · obtain rfl := Except.ok.inj h
    exact congrArg (inSector chan) (flash_globSettings (blink d) _ _)
  · exact inSector_chanSettings (fun heq hw => hc _ heq ⟨h1, rfl, hw⟩) h
  · exact congrArg (inSector chan) (flash_writeRamptable h)
  · obtain rfl := Except.ok.inj h
    rfl

theorem Board.command_eq_some {b b' : Board} {d : Except Trap Device}
    (h : b.command d = some b') : ∃ d', d = .ok d' ∧ b' = { b with toDevice := d' } := by
  cases d with
  | error e => cases h
  | ok d' => exact ⟨d', rfl, (Option.some.inj h).symm⟩

/-- A sector changes only by a `WRITE_QSPI_MSG` to a number that has it. -/
theorem inSector_step {b b' : Board} {c : Command}
    (hc : ∀ c', sectorAddr c' = sectorAddr chan → ¬c.On c' .writeQspi)
    (h : b.step fmt reset c = some b') : inSector chan b'.flash = inSector chan b.flash := by
  cases c with
  | client stack msgid msglen msg =>
    obtain ⟨d', hd', rfl⟩ := Board.command_eq_some h
    exact clientMsg_flash hc hd'
  | console stack c' addr data =>
    obtain ⟨d', hd', rfl⟩ := Board.command_eq_some h
    exact inSector_chanSettings (fun heq hw => hc c' heq ⟨rfl, hw⟩) hd'
  | edit e =>
    obtain rfl := Option.some.inj h
    exact congrArg (inSector chan) (flash_exec b e)
  | restart stack =>
    obtain rfl := Option.some.inj h
    exact congrArg (inSector chan) (flash_boot stack b.flash b.eeprom)

end Sector

/-! ## The round trip -/

section RoundTrip

variable {fmt : FloatFormat} {reset : BitVec 32 → BitVec 32}

theorem stored_stored (a v : BitVec 32) : stored a (stored a v) = stored a v := by
  have hle : v.toNat % 2 ^ fieldWidth a ≤ v.toNat := Nat.mod_le _ _
  have hlt : v.toNat % 2 ^ fieldWidth a < 2 ^ 32 := hle.trans_lt v.isLt
  have htoNat : (stored a v).toNat = v.toNat % 2 ^ fieldWidth a := by
    rw [stored, BitVec.toNat_ofNat, Nat.mod_eq_of_lt hlt]
  rw [stored, htoNat, Nat.mod_mod]
  rfl

theorem Device.Fits.xilOut32 {d : Device} (hd : d.Fits) (a v : BitVec 32) :
    (d.xilOut32 a v).Fits := by
  intro a'
  by_cases h : a' = a
  · subst h
    have hself : (d.xilOut32 a' v).regs a' = stored a' v := Function.update_self ..
    rw [hself, stored_stored]
  · rw [d.xilOut32_regs_of_ne h]
    exact hd a'

theorem Device.Held.blink {d : Device} (hd : d.Held fmt) : (blink d).Held fmt :=
  ⟨(hd.regs.xilOut32 _ _).xilOut32 _ _, hd.sf⟩

theorem chanCase_writeQspi (stack : Bytes) (d : Device) (chan : BitVec 32) :
    chanCase fmt stack d chan 1 .writeQspi = .ok (writeQspi fmt stack d chan) := by
  rw [chanCase, if_pos rfl]

theorem chanCase_readQspi (stack : Bytes) (d : Device) (chan : BitVec 32) :
    chanCase fmt stack d chan 1 .readQspi = .ok (readQspi fmt stack d chan) := by
  rw [chanCase, if_pos rfl]

theorem step_on (fmt : FloatFormat) (reset : BitVec 32 → BitVec 32) (b : Board) {c : Command}
    {ps : Ps} {msg : ChanMsg} (hc : c.On ps.chan msg) :
    ∃ stack d, (d = b.toDevice ∨ d = blink b.toDevice) ∧
      b.step fmt reset c = b.command (chanCase fmt stack d ps.chan 1 msg) := by
  cases c with
  | client stack msgid msglen m =>
    obtain ⟨hid, hps, hmsg, hdata⟩ := hc
    have hnot : msgid ≠ 0 := by
      rintro rfl
      revert hid
      decide
    refine ⟨stack, Net.blink b.toDevice, Or.inr rfl, ?_⟩
    rw [Board.step, clientMsg, if_neg hnot, if_pos hid, chanSettings, hps, hmsg, hdata]
  | console stack chan addr data =>
    obtain ⟨rfl, hmsg, rfl⟩ := hc
    refine ⟨stack, b.toDevice, Or.inl rfl, ?_⟩
    rw [Board.step, chanSettings, hmsg]
  | edit e => exact hc.elim
  | restart stack => exact hc.elim

section Frames

variable {b : Board} {d : Device} (hd : d = b.toDevice ∨ d = blink b.toDevice)

include hd

theorem persisted_of_blink (ps : Ps) : d.persisted ps = b.persisted ps := by
  rcases hd with rfl | rfl
  · rfl
  · exact persisted_blink b.toDevice ps

theorem flash_of_blink : d.flash = b.flash := by
  rcases hd with rfl | rfl <;> rfl

theorem held_of_blink (hb : b.Held fmt) : d.Held fmt := by
  rcases hd with rfl | rfl
  · exact hb
  · exact hb.blink

end Frames

theorem persisted_readQspi_of_ne (stack : Bytes) (d : Device) {ps ps' : Ps} (hne : ps' ≠ ps) :
    (readQspi fmt stack d ps.chan).persisted ps' = d.persisted ps' :=
  (keeps_of_exec stack (footprint_readQspi fmt ps.chan (r := ⟨fun _ => True, True, True, True, True⟩)
    (fun _ _ => trivial) trivial trivial)
    (I := fun d' => d'.persisted ps' = d.persisted ps')
    (fun i d' hi hd' => (apart_perform hne stack i d' hi).1.trans hd')
    (exec_readQspi fmt stack d ps.chan)) rfl

/-- The start of the board reads the record of each channel, and none of the others touches it. -/
theorem exists_persisted_initSettings (stack : Bytes) (s : Device) (ps : Ps) :
    ∃ s' : Device, s'.flash = s.flash ∧ (initSettingsFromQspi fmt stack s).persisted ps =
      (readQspi fmt stack s' ps.chan).persisted ps := by
  obtain ⟨s₀, hs₀⟩ : ∃ s₀, s₀ = (s.outGlob .evrInjEventnum 10).outGlob .evrPmEventnum 10 :=
    ⟨_, rfl⟩
  obtain ⟨s₁, hs₁⟩ : ∃ s₁, s₁ = readQspi fmt stack s₀ Ps.ps1.chan := ⟨_, rfl⟩
  obtain ⟨s₂, hs₂⟩ : ∃ s₂, s₂ = readQspi fmt stack s₁ Ps.ps2.chan := ⟨_, rfl⟩
  obtain ⟨s₃, hs₃⟩ : ∃ s₃, s₃ = readQspi fmt stack s₂ Ps.ps3.chan := ⟨_, rfl⟩
  have hinit : initSettingsFromQspi fmt stack s = readQspi fmt stack s₃ Ps.ps4.chan := by
    rw [hs₃, hs₂, hs₁, hs₀]
    rfl
  have h₀ : s₀.flash = s.flash := by rw [hs₀]; rfl
  have h₁ : s₁.flash = s.flash := by rw [hs₁, flash_readQspi, h₀]
  have h₂ : s₂.flash = s.flash := by rw [hs₂, flash_readQspi, h₁]
  have h₃ : s₃.flash = s.flash := by rw [hs₃, flash_readQspi, h₂]
  rw [hinit]
  cases ps
  case ps1 =>
    refine ⟨s₀, h₀, ?_⟩
    rw [persisted_readQspi_of_ne _ _ (by decide), hs₃, persisted_readQspi_of_ne _ _ (by decide),
      hs₂, persisted_readQspi_of_ne _ _ (by decide), hs₁]
  case ps2 =>
    refine ⟨s₁, h₁, ?_⟩
    rw [persisted_readQspi_of_ne _ _ (by decide), hs₃, persisted_readQspi_of_ne _ _ (by decide),
      hs₂]
  case ps3 =>
    refine ⟨s₂, h₂, ?_⟩
    rw [persisted_readQspi_of_ne _ _ (by decide), hs₃]
  case ps4 => exact ⟨s₃, h₃, rfl⟩

/-- A start restores what the flash holds. -/
theorem persisted_boot (stack : Bytes) {d : Device} {ps : Ps} (hd : d.Held fmt) {flash : Bytes}
    (hs : Saved ps.chan fmt d flash) (eeprom : BitVec 8 → BitVec 8) :
    (boot fmt stack reset flash eeprom).persisted ps = d.persisted ps := by
  obtain ⟨s', hs', hinit⟩ := exists_persisted_initSettings stack
    (mainInit (powerOn reset flash eeprom)).toDevice ps
  have hflash : s'.flash = flash := by rw [hs', flash_mainInit]; rfl
  have hread := persisted_readQspi fmt stack hd (hflash ▸ hs)
  exact hinit.trans hread

end RoundTrip

end Psc.Control
