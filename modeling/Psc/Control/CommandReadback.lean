import Psc.Control.Readback
import Psc.Control.Restore

/-!
# Commands read back

Seven settings of a channel are raw words: what `chan_settings` writes to a register, `sadata_push`
sends back (`Word`). Each command writes the register of its name, but three of the fields show
another one (`Word.shownBy`): `digout_on2` and `digout_reset` show the line ON1, and `digout_spare`
shows the reset line.

What a register holds after a sequence of commands is the last value commanded (`atWidth_settings`);
only the fault mask is also in the flash, and comes back with `READ_QSPI_MSG`
(`atWidth_settings_faultMask`). `follows_iff`: so a field follows its commands exactly if the other
register happens to hold the same.
-/

namespace Psc.Control

open Net

/-- The settings that are words. -/
inductive Word where
  | faultClear | faultMask | digoutOn1 | digoutOn2 | digoutReset | digoutSpare | digoutPark
  deriving DecidableEq

namespace Word

/-- The message that commands it. -/
def msg : Word → ChanMsg
  | faultClear => .faultClear
  | faultMask => .faultMask
  | digoutOn1 => .digoutOn1
  | digoutOn2 => .digoutOn2
  | digoutReset => .digoutReset
  | digoutSpare => .digoutSpare
  | digoutPark => .digoutPark

def reg : Word → ChanReg
  | faultClear => .faultClear
  | faultMask => .faultMask
  | digoutOn1 => .digoutOn1
  | digoutOn2 => .digoutOn2
  | digoutReset => .digoutReset
  | digoutSpare => .digoutSpare
  | digoutPark => .digoutPark

/-- The field of its name. -/
def field : Word → SaField
  | faultClear => .faultClear
  | faultMask => .faultMask
  | digoutOn1 => .digoutOn1
  | digoutOn2 => .digoutOn2
  | digoutReset => .digoutReset
  | digoutSpare => .digoutSpare
  | digoutPark => .digoutPark

/-- The setting whose register the field shows. -/
def shownBy : Word → Word
  | digoutOn2 | digoutReset => digoutOn1
  | digoutSpare => digoutReset
  | w => w

/-- A value at the width of the register. -/
def atWidth (w : Word) (ps : Ps) (v : BitVec 32) : BitVec 32 := stored (w.reg.addr ps.chan) v

end Word

/-- A call of `chan_settings`, with what its buffer holds at first. -/
structure SetCommand where
  stack : Bytes
  chan : BitVec 32
  addr : BitVec 32
  data : BitVec 32

namespace SetCommand

/-- The message of a command. -/
def msg (c : SetCommand) : Option ChanMsg := ChanMsg.ofCode c.addr.toNat

/-- The command goes to the registers of a channel. Of its number, 23 bits reach the address. -/
def To (c : SetCommand) (ps : Ps) : Prop := c.chan * 0x200 = ps.chan * 0x200

instance (c : SetCommand) (ps : Ps) : Decidable (c.To ps) := inferInstanceAs (Decidable (_ = _))

/-- What the command does. -/
def exec (fmt : FloatFormat) (d : Device) (c : SetCommand) : Except Trap Device :=
  chanSettings fmt c.stack d c.chan c.addr c.data

/-- The value commanded so far, after one more command. -/
def value (ps : Ps) (w : Word) (v : BitVec 32) (c : SetCommand) : BitVec 32 :=
  if c.To ps ∧ c.msg = some w.msg then c.data else v

/-- The fault mask that a command finds in the flash, if the last mask is from there. -/
def found (d : Device) (ps : Ps) (o : Option (BitVec 32)) (c : SetCommand) : Option (BitVec 32) :=
  if c.To ps then
    if c.msg = some .faultMask then none
    else if c.msg = some .readQspi ∧ c.data = 1 then
      some (wordAt (qspiFlashRead c.stack c.chan d.flash) 37)
    else o
  else o

end SetCommand

/-- A sequence of commands. -/
def settings (fmt : FloatFormat) (d : Device) (cmds : List SetCommand) : Except Trap Device :=
  cmds.foldlM (SetCommand.exec fmt) d

/-- The last value commanded, or the initial value. -/
def commanded (d : Device) (ps : Ps) (w : Word) (cmds : List SetCommand) : BitVec 32 :=
  cmds.foldl (SetCommand.value ps w) (d.inChan w.reg ps.chan)

/-- The fault mask that the last `READ_QSPI_MSG` found in the flash, unless one was commanded
later. -/
def foundMask (fmt : FloatFormat) (ps : Ps) :
    Device → Option (BitVec 32) → List SetCommand → Option (BitVec 32)
  | _, o, [] => o
  | d, o, c :: cs =>
    match c.exec fmt d with
    | .error _ => none
    | .ok d' => foundMask fmt ps d' (c.found d ps o) cs

section Follows

variable (fmt : FloatFormat) (b : Board) (ps : Ps) (cmds : List SetCommand) (d' : Device)

/-- After the commands have led to `d'`, the field shows the last value commanded, and a command to
another channel does not change it. -/
def Word.Follows (w : Word) : Prop :=
  (∃ v, saData fmt { b with toDevice := d' } ps.chan w.field = .word v ∧
    w.atWidth ps v = w.atWidth ps (commanded b.toDevice ps w cmds)) ∧
  ∀ (c : SetCommand) (d'' : Device), ¬c.To ps → c.exec fmt d' = .ok d'' →
    saData fmt { b with toDevice := d'' } ps.chan w.field =
      saData fmt { b with toDevice := d' } ps.chan w.field

/-- When it does: the lines that are shown one for another agree, and a mask that was read from the
flash is the last one commanded. -/
def Word.Agrees : Word → Prop
  | digoutOn2 => digoutOn2.atWidth ps (commanded b.toDevice ps digoutOn1 cmds) =
      digoutOn2.atWidth ps (commanded b.toDevice ps digoutOn2 cmds)
  | digoutReset => digoutReset.atWidth ps (commanded b.toDevice ps digoutOn1 cmds) =
      digoutReset.atWidth ps (commanded b.toDevice ps digoutReset cmds)
  | digoutSpare => digoutSpare.atWidth ps (commanded b.toDevice ps digoutReset cmds) =
      digoutSpare.atWidth ps (commanded b.toDevice ps digoutSpare cmds)
  | faultMask => ∀ v, foundMask fmt ps b.toDevice none cmds = some v →
      faultMask.atWidth ps v = faultMask.atWidth ps (commanded b.toDevice ps faultMask cmds)
  | faultClear | digoutOn1 | digoutPark => True

end Follows

theorem saData_word (fmt : FloatFormat) (b : Board) (ps : Ps) (w : Word) :
    saData fmt b ps.chan w.field = .word (b.inChan w.shownBy.reg ps.chan) := by
  cases w <;> rfl

/-! ## Registers of channels -/

theorem Word.eq_reg {w : Word} {reg : ChanReg} (h : reg.offset = w.reg.offset) : reg = w.reg := by
  cases w <;> cases reg <;> first | rfl | exact absurd h (by decide)

theorem Word.addr_eq {w : Word} {reg : ChanReg} {chan : BitVec 32} {ps : Ps}
    (h : reg.addr chan = w.reg.addr ps.chan) : reg = w.reg ∧ chan * 0x200 = ps.chan * 0x200 := by
  have hoffset : ∀ reg : ChanReg, reg.offset.toNat < 0x200 := fun reg => by cases reg <;> decide
  have hblock : ∀ x : BitVec 32, (x * 0x200).toNat = 0x200 * (x.toNat % 2 ^ 23) := by
    intro x
    rw [BitVec.toNat_mul]
    show x.toNat * 0x200 % 2 ^ 32 = _
    omega
  have h1 := hoffset reg
  have h2 := hoffset w.reg
  have hnat := congrArg BitVec.toNat h
  rw [ChanReg.addr, ChanReg.addr, BitVec.toNat_add, BitVec.toNat_add, hblock, hblock] at hnat
  refine ⟨Word.eq_reg (BitVec.eq_of_toNat_eq (by omega)), BitVec.eq_of_toNat_eq ?_⟩
  rw [hblock, hblock]
  omega

theorem Device.inChan_flash (d : Device) (f : Bytes) (reg : ChanReg) (chan : BitVec 32) :
    Device.inChan { d with flash := f } reg chan = d.inChan reg chan := rfl

theorem writes_word {addr data : BitVec 32} {w : Word}
    (h : (settingRights addr data).writes w.reg) : ChanMsg.ofCode addr.toNat = some w.msg ∨
      w = .faultMask ∧ data = 1 ∧ (ChanMsg.ofCode addr.toNat = some .writeQspi ∨
        ChanMsg.ofCode addr.toNat = some .readQspi) := by
  unfold settingRights at h
  cases hmsg : ChanMsg.ofCode addr.toNat with
  | none => simp [hmsg] at h
  | some msg =>
    simp only [hmsg] at h
    have hmask : w.reg ∈ qspiRegs → w = .faultMask := by
      cases w <;> first | exact fun _ => rfl | exact fun h => absurd h (by decide)
    cases msg
    case writeQspi => exact .inr ⟨hmask h.1, h.2, .inl rfl⟩
    case readQspi => exact .inr ⟨hmask h.1, h.2, .inr rfl⟩
    case dacOpmode => rcases h with h | ⟨h, -⟩ <;> cases w <;> cases h
    case dacSetpt => rcases h with h | h <;> cases w <;> cases h
    all_goals cases w <;> first | exact .inl rfl | cases h

section Step

variable {fmt : FloatFormat} {d d' : Device} {c : SetCommand} {ps : Ps} {w : Word}

theorem inChan_exec_of_not_writes (h : c.exec fmt d = .ok d')
    (hw : c.To ps → ¬(settingRights c.addr c.data).writes w.reg) :
    d'.inChan w.reg ps.chan = d.inChan w.reg ps.chan := by
  refine chanSettings_keeps fmt (I := fun d' : Device => d'.inChan w.reg ps.chan =
    d.inChan w.reg ps.chan) (fun i d₁ hi hd₁ => ?_) h rfl
  cases i with
  | out32 a v =>
    have hne : w.reg.addr ps.chan ≠ a := by
      obtain ⟨reg, hreg, rfl⟩ | ⟨rfl, -⟩ := hi
      · intro heq
        obtain ⟨rfl, hto⟩ := Word.addr_eq heq.symm
        exact hw hto hreg
      · exact w.reg.addr_ne_glob ps .softtrig
    exact (d₁.xilOut32_regs_of_ne hne v).trans hd₁
  | flashErase chan => exact (d₁.inChan_flash _ _ _).trans hd₁
  | flashWrite chan buf => exact (d₁.inChan_flash _ _ _).trans hd₁
  | _ => exact hd₁

theorem chanCase_of_exec {msg : ChanMsg} (h : c.exec fmt d = .ok d') (hmsg : c.msg = some msg) :
    chanCase fmt c.stack d c.chan c.data msg = .ok d' := by
  unfold SetCommand.exec chanSettings at h
  rw [SetCommand.msg] at hmsg
  rwa [hmsg] at h

theorem addr_of_to (hto : c.To ps) (reg : ChanReg) : reg.addr ps.chan = reg.addr c.chan :=
  congrArg (reg.offset + ·) hto.symm

theorem inChan_exec_of_msg (h : c.exec fmt d = .ok d') (hto : c.To ps) (hmsg : c.msg = some w.msg) :
    d'.inChan w.reg ps.chan = w.atWidth ps c.data := by
  have hcase : chanCase fmt c.stack d c.chan c.data w.msg =
      .ok (d.outChan w.reg c.chan c.data) := by
    cases w <;> rfl
  obtain rfl := Except.ok.inj (hcase.symm.trans (chanCase_of_exec h hmsg))
  rw [Device.inChan, Word.atWidth, addr_of_to hto]
  exact d.outChan_regs w.reg c.chan c.data

theorem atWidth_atWidth (w : Word) (ps : Ps) (v : BitVec 32) :
    w.atWidth ps (w.atWidth ps v) = w.atWidth ps v :=
  stored_stored _ v

theorem inChan_readQspi (stack : Bytes) (chan : BitVec 32) :
    (readQspi fmt stack d chan).inChan .faultMask chan =
      stored (ChanReg.faultMask.addr chan) (wordAt (qspiFlashRead stack chan d.flash) 37) :=
  regs_outChans_of_mem chan (fun r => wordAt (qspiFlashRead stack chan d.flash) (r.2 + 1))
    qspiRegs.zipIdx d (nodup_qspiRegs_addr chan) (r := (.faultMask, 36))
    (List.mem_zipIdx_iff_getElem?.mpr rfl)

theorem inChan_writeQspi (stack : Bytes) (chan : BitVec 32) :
    (writeQspi fmt stack d chan).inChan .faultMask chan =
      stored (ChanReg.faultMask.addr chan) (d.inChan .faultMask chan) := by
  unfold writeQspi
  rw [inChan_readQspi]
  have hsaved := saved_write chan fmt stack d d.flash stack 37 (by norm_num) (by norm_num)
  exact congrArg (stored _) hsaved

theorem atWidth_exec (hw : w ≠ .faultMask) (h : c.exec fmt d = .ok d') {v : BitVec 32}
    (hv : w.atWidth ps (d.inChan w.reg ps.chan) = w.atWidth ps v) :
    w.atWidth ps (d'.inChan w.reg ps.chan) = w.atWidth ps (c.value ps w v) := by
  unfold SetCommand.value
  by_cases hset : c.To ps ∧ c.msg = some w.msg
  · rw [if_pos hset, inChan_exec_of_msg h hset.1 hset.2, atWidth_atWidth]
  · rw [if_neg hset, inChan_exec_of_not_writes h, hv]
    intro hto hwrites
    rcases writes_word hwrites with hmsg | ⟨hmask, -⟩
    · exact hset ⟨hto, hmsg⟩
    · exact hw hmask

theorem inChan_exec_of_readQspi (h : c.exec fmt d = .ok d') (hto : c.To ps)
    (hmsg : c.msg = some .readQspi) (h1 : c.data = 1) : d'.inChan .faultMask ps.chan =
      Word.faultMask.atWidth ps (wordAt (qspiFlashRead c.stack c.chan d.flash) 37) := by
  have hcase := chanCase_of_exec h hmsg
  rw [chanCase, if_pos h1] at hcase
  obtain rfl := Except.ok.inj hcase
  show (readQspi fmt c.stack d c.chan).regs (ChanReg.faultMask.addr ps.chan) =
    stored (ChanReg.faultMask.addr ps.chan) _
  rw [addr_of_to hto]
  exact inChan_readQspi c.stack c.chan

theorem inChan_exec_of_writeQspi (h : c.exec fmt d = .ok d') (hto : c.To ps)
    (hmsg : c.msg = some .writeQspi) (h1 : c.data = 1) : d'.inChan .faultMask ps.chan =
      Word.faultMask.atWidth ps (d.inChan .faultMask ps.chan) := by
  have hcase := chanCase_of_exec h hmsg
  rw [chanCase, if_pos h1] at hcase
  obtain rfl := Except.ok.inj hcase
  show (writeQspi fmt c.stack d c.chan).regs (ChanReg.faultMask.addr ps.chan) =
    stored (ChanReg.faultMask.addr ps.chan) (d.regs (ChanReg.faultMask.addr ps.chan))
  rw [addr_of_to hto]
  exact inChan_writeQspi c.stack c.chan

/-- One command, on the fault mask. -/
theorem atWidth_exec_faultMask (h : c.exec fmt d = .ok d') {v : BitVec 32} {o : Option (BitVec 32)}
    (hv : Word.faultMask.atWidth ps (d.inChan .faultMask ps.chan) =
      Word.faultMask.atWidth ps (o.getD v)) :
    Word.faultMask.atWidth ps (d'.inChan .faultMask ps.chan) =
      Word.faultMask.atWidth ps ((c.found d ps o).getD (c.value ps .faultMask v)) := by
  have hsame : (c.To ps → ¬(settingRights c.addr c.data).writes ChanReg.faultMask) →
      Word.faultMask.atWidth ps (d'.inChan .faultMask ps.chan) =
        Word.faultMask.atWidth ps (o.getD v) := fun hw =>
    (congrArg (Word.faultMask.atWidth ps)
      (inChan_exec_of_not_writes (w := .faultMask) h hw)).trans hv
  unfold SetCommand.found SetCommand.value
  by_cases hto : c.To ps
  · rw [if_pos hto]
    by_cases hmask : c.msg = some .faultMask
    · rw [if_pos hmask, if_pos ⟨hto, hmask⟩]
      exact (congrArg (Word.faultMask.atWidth ps)
        (inChan_exec_of_msg (w := .faultMask) h hto hmask)).trans (atWidth_atWidth ..)
    · have hvalue : ¬(c.To ps ∧ c.msg = some Word.faultMask.msg) := fun h => hmask h.2
      rw [if_neg hmask, if_neg hvalue]
      by_cases hread : c.msg = some .readQspi ∧ c.data = 1
      · rw [if_pos hread]
        exact (congrArg (Word.faultMask.atWidth ps)
          (inChan_exec_of_readQspi h hto hread.1 hread.2)).trans (atWidth_atWidth ..)
      · rw [if_neg hread]
        by_cases hwrite : c.msg = some .writeQspi ∧ c.data = 1
        · rw [inChan_exec_of_writeQspi h hto hwrite.1 hwrite.2, atWidth_atWidth]
          exact hv
        · refine hsame fun _ hwrites => ?_
          rcases writes_word (w := .faultMask) hwrites with hmsg | ⟨-, h1, hmsg | hmsg⟩
          · exact hmask hmsg
          · exact hwrite ⟨hmsg, h1⟩
          · exact hread ⟨hmsg, h1⟩
  · rw [if_neg hto, if_neg fun h => hto h.1]
    exact hsame fun h => absurd h hto

end Step

section Run

variable {fmt : FloatFormat} {ps : Ps} {w : Word}

theorem settings_cons_eq_ok {d d' : Device} {c : SetCommand} {cs : List SetCommand}
    (h : settings fmt d (c :: cs) = .ok d') :
    ∃ d₁, c.exec fmt d = .ok d₁ ∧ settings fmt d₁ cs = .ok d' := by
  rw [settings, List.foldlM_cons] at h
  cases hc : c.exec fmt d with
  | error e =>
    rw [hc] at h
    cases h
  | ok d₁ =>
    rw [hc] at h
    exact ⟨d₁, rfl, h⟩

/-- **What a register holds** after the commands, if it is not saved. -/
theorem atWidth_settings (hw : w ≠ .faultMask) (cmds : List SetCommand) {d d' : Device}
    (h : settings fmt d cmds = .ok d') {v : BitVec 32}
    (hv : w.atWidth ps (d.inChan w.reg ps.chan) = w.atWidth ps v) :
    w.atWidth ps (d'.inChan w.reg ps.chan) =
      w.atWidth ps (cmds.foldl (SetCommand.value ps w) v) := by
  induction cmds generalizing d v with
  | nil =>
    obtain rfl := Except.ok.inj h
    exact hv
  | cons c cs ih =>
    obtain ⟨d₁, hc, hcs⟩ := settings_cons_eq_ok h
    exact ih hcs (atWidth_exec hw hc hv)

/-- **What the fault mask holds** after the commands. -/
theorem atWidth_settings_faultMask (cmds : List SetCommand) {d d' : Device}
    (h : settings fmt d cmds = .ok d') {v : BitVec 32} {o : Option (BitVec 32)}
    (hv : Word.faultMask.atWidth ps (d.inChan .faultMask ps.chan) =
      Word.faultMask.atWidth ps (o.getD v)) :
    Word.faultMask.atWidth ps (d'.inChan .faultMask ps.chan) =
      Word.faultMask.atWidth ps ((foundMask fmt ps d o cmds).getD
        (cmds.foldl (SetCommand.value ps .faultMask) v)) := by
  induction cmds generalizing d v o with
  | nil =>
    obtain rfl := Except.ok.inj h
    exact hv
  | cons c cs ih =>
    obtain ⟨d₁, hc, hcs⟩ := settings_cons_eq_ok h
    rw [foundMask, hc]
    exact ih hcs (atWidth_exec_faultMask hc hv)

theorem atWidth_shownBy (w : Word) (ps : Ps) (v : BitVec 32) :
    w.shownBy.atWidth ps v = w.atWidth ps v := by
  have hwidth : fieldWidth (w.shownBy.reg.addr ps.chan) = fieldWidth (w.reg.addr ps.chan) := by
    cases w <;> cases ps <;> rfl
  unfold Word.atWidth stored
  rw [hwidth]

/-- **Commands read back.** A field follows its commands if and only if the register that it shows
agrees with them. -/
theorem follows_iff {b : Board} {cmds : List SetCommand} {d' : Device}
    (h : settings fmt b.toDevice cmds = .ok d') (w : Word) :
    w.Follows fmt b ps cmds d' ↔ w.Agrees fmt b ps cmds := by
  have hframe : ∀ (c : SetCommand) (d'' : Device), ¬c.To ps → c.exec fmt d' = .ok d'' →
      saData fmt { b with toDevice := d'' } ps.chan w.field =
        saData fmt { b with toDevice := d' } ps.chan w.field := by
    intro c d'' hto hc
    rw [saData_word, saData_word]
    exact congrArg SaValue.word (inChan_exec_of_not_writes hc fun hto' => absurd hto' hto)
  have hshown : (∃ v, saData fmt { b with toDevice := d' } ps.chan w.field = .word v ∧
      w.atWidth ps v = w.atWidth ps (commanded b.toDevice ps w cmds)) ↔
      w.atWidth ps (d'.inChan w.shownBy.reg ps.chan) =
        w.atWidth ps (commanded b.toDevice ps w cmds) := by
    rw [saData_word]
    constructor
    · rintro ⟨v, hv, heq⟩
      obtain rfl : _ = v := by simpa using hv
      exact heq
    · exact fun heq => ⟨_, rfl, heq⟩
  have hheld : w ≠ .faultMask → w.atWidth ps (d'.inChan w.shownBy.reg ps.chan) =
      w.atWidth ps (commanded b.toDevice ps w.shownBy cmds) := by
    intro hw
    have hne : w.shownBy ≠ .faultMask := by cases w <;> simp_all [Word.shownBy]
    have hrun := @atWidth_settings fmt ps w.shownBy hne cmds _ _ h _ rfl
    rw [atWidth_shownBy, atWidth_shownBy] at hrun
    exact hrun
  unfold Word.Follows
  rw [and_iff_left hframe, hshown]
  cases w with
  | faultMask =>
    have hrun := @atWidth_settings_faultMask fmt ps cmds _ _ h _ none rfl
    show Word.faultMask.atWidth ps (d'.inChan .faultMask ps.chan) = _ ↔ _
    rw [hrun]
    unfold Word.Agrees
    cases foundMask fmt ps b.toDevice none cmds with
    | none => exact iff_of_true rfl fun v hv => by cases hv
    | some v =>
      constructor
      · intro heq v' hv'
        obtain rfl := Option.some.inj hv'
        exact heq
      · exact fun hall => hall v rfl
  | digoutOn2 | digoutReset | digoutSpare =>
    rw [hheld (by simp)]
    rfl
  | faultClear | digoutOn1 | digoutPark => exact iff_of_true (hheld (by simp)) trivial

end Run

/-! ## Turning on -/

/-- A command to the first channel. -/
def toFirst (addr data : BitVec 32) : SetCommand := ⟨fun _ => 0, 1, addr, data⟩

/-- With both lines commanded, ON2 is read back. -/
theorem on2_follows : Word.digoutOn2.Follows readFloats blankBoard .ps1
    [toFirst 268 1, toFirst 272 1]
    ((blankDevice.outChan .digoutOn1 1 1).outChan .digoutOn2 1 1) :=
  (follows_iff rfl .digoutOn2).mpr rfl

/-- ON2 alone reads back as off. -/
theorem on2_not_follows :
    settings readFloats blankBoard.toDevice [toFirst 272 1] =
      .ok (blankDevice.outChan .digoutOn2 1 1) ∧
    ¬Word.digoutOn2.Follows readFloats blankBoard .ps1 [toFirst 272 1]
      (blankDevice.outChan .digoutOn2 1 1) := by
  refine ⟨rfl, ?_⟩
  rintro ⟨⟨v, hv, heq⟩, -⟩
  have hoff : saData readFloats
      { blankBoard with toDevice := blankDevice.outChan .digoutOn2 1 1 } Ps.ps1.chan
      Word.digoutOn2.field = .word 0 := rfl
  obtain rfl := SaValue.word.inj (hoff.symm.trans hv)
  revert heq
  decide

end Psc.Control
