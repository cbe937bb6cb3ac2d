import Psc.Net.ClientMsg
import Psc.Control.Accesses

/-!
# Where the commands come from

A command to a channel comes from a client, where `client_msg` takes the channel from the identifier
of the message, or from the console, where it is the number that was typed. `chan_settings` does not
look at the number: it counts out an entry of `scalefactors` and the block of a register.

`commands_in_bounds_iff`: the calls that a client can bring about keep to the four channels, and
which of those from the console do.
-/

namespace Psc.Net

open Control Program Program.Prog

/-! ## Calls -/

/-- A call of `chan_settings` or of `write_ramptable`. -/
inductive Call where
  | chanSettings (chan : BitVec 32) (msg : Bytes)
  | writeRamptable (chan : BitVec 32) (msg : Bytes) (msglen : ℕ)

/-- What a call does. -/
def Call.code (fmt : FloatFormat) (stack : Bytes) : Call → Code Unit
  | chanSettings chan msg => Code.chanSettings fmt stack chan (msgWord msg 0) (msgWord msg 1)
  | writeRamptable chan msg msglen => Code.writeRamptable fmt chan msg msglen

/-- A message of a client, or the three numbers of a line that was typed. -/
inductive CommandSource where
  | client (msgid : BitVec 16) (msglen : ℕ) (msg : Bytes)
  | console (chan addr data : BitVec 32)

/-- `msg_buf` of `receive_console_cmd`. -/
def consoleMsg (addr data : BitVec 32) : Bytes :=
  fill (fun _ => 0) (store32 (htonl addr) ++ store32 (htonl data))

/-- The number that a call is made with. -/
def Call.chan : Call → BitVec 32
  | chanSettings chan _ => chan
  | writeRamptable chan _ _ => chan

/-- The call that `client_msg` or `receive_console_cmd` makes. -/
def CommandSource.call : CommandSource → Option Call
  | client msgid msglen msg =>
    if msgid = 1 ∨ msgid = 2 ∨ msgid = 3 ∨ msgid = 4 then
      some (.chanSettings (msgid.setWidth 32) msg)
    else if msgid = 101 then some (.writeRamptable 1 msg msglen)
    else none
  | console chan addr data => some (.chanSettings chan (consoleMsg addr data))

section Calls

variable (fmt : FloatFormat) (stack : Bytes) (d : Device)

/-- `call` is what `client_msg` does, but for the settings of the board. -/
theorem clientMsg_eq_call (msgid : BitVec 16) (msglen : ℕ) (msg : Bytes) :
    clientMsg fmt stack d msgid msglen msg =
      match (CommandSource.client msgid msglen msg).call with
      | some call => exec stack (call.code fmt stack) (blink d)
      | none =>
        .ok (if msgid = 0 then globSettings (blink d) (msgWord msg 0) (msgWord msg 1)
          else blink d) := by
  by_cases h0 : msgid = 0
  · subst h0
    rfl
  · simp only [clientMsg, CommandSource.call, if_neg h0]
    split_ifs with hchan h101
    · exact (exec_chanSettings fmt stack (blink d) _ _ _).symm
    · exact (exec_writeRamptable fmt stack (blink d) 1 msg msglen).symm
    · rfl

theorem msgWord_consoleMsg (addr data : BitVec 32) :
    msgWord (consoleMsg addr data) 0 = addr ∧ msgWord (consoleMsg addr data) 1 = data := by
  unfold consoleMsg
  rw [store32_htonl, store32_htonl]
  constructor
  · conv_rhs => rw [← append_extract32 addr]
    exact htonl_append _ _ _ _
  · conv_rhs => rw [← append_extract32 data]
    exact htonl_append _ _ _ _

end Calls

/-! ## Bounds -/

/-- An access to one of the four entries of `scalefactors`, a write to a register of one of the four
channels or to SOFTTRIG, or an access of another sort. -/
def InBounds : Access → Prop
  | .sf i | .setSf i _ => i.toNat < 4
  | .out32 a _ => (∃ c, 1 ≤ c ∧ c ≤ 4 ∧ 0x200 * c ≤ a.toNat ∧ a.toNat < 0x200 * c + 0x200) ∨
      a = GlobReg.softtrig.addr
  | _ => True

/-- A call whose code comes to an undefined conversion or division. -/
def Traps (stack : Bytes) (p : Code Unit) (d : Device) : Prop :=
  ∃ e, (run (Access.perform stack) p d).1 = .error e

/-- What may come of the code of a call for a number: the accesses that it does, and, if it traps,
with whatever value, a write to any register of that number. -/
def MayDo (stack : Bytes) (chan : BitVec 32) (p : Code Unit) (d : Device) (i : Access) : Prop :=
  i ∈ trace (Access.perform stack) p d ∨
    (Traps stack p d ∧ ∃ reg v, i = .out32 (ChanReg.addr reg chan) v)

/-- The cases that write a register although they read no scale factor. -/
def WritesUnscaled (data : BitVec 32) : Kind → Prop
  | .raw _ | .gain _ | .limit _ => True
  | .dacOpmode => data = 0 ∨ data = 1 ∨ data = 3
  | _ => False

/-- The numbers with which a case keeps to the four channels: those of the channels, and where no
scale factor is read, those that lead to the registers of one. -/
def KeepsToChannels (chan data : BitVec 32) (k : Kind) : Prop :=
  (1 ≤ chan.toNat ∧ chan.toNat ≤ 4) ∨
    (¬(k.rights data).reads ∧
      (WritesUnscaled data k → 1 ≤ chan.toNat % 2 ^ 23 ∧ chan.toNat % 2 ^ 23 ≤ 4))

/-- The sources all of whose accesses are in bounds. -/
def CommandSource.KeepsToChannels : CommandSource → Prop
  | client _ _ _ => True
  | console chan addr data => ∀ msg, ChanMsg.ofCode addr.toNat = some msg →
      Net.KeepsToChannels chan data msg.kind

section Bounds

variable {chan : BitVec 32}

/-- The address of a register: the block wraps after `2 ^ 23` of them. -/
theorem toNat_addr (reg : ChanReg) (chan : BitVec 32) :
    (reg.addr chan).toNat = reg.offset.toNat + 0x200 * (chan.toNat % 2 ^ 23) := by
  have hoffset : reg.offset.toNat < 0x200 := by cases reg <;> decide
  have h200 : (0x200 : BitVec 32).toNat = 0x200 := rfl
  rw [ChanReg.addr, BitVec.toNat_add, BitVec.toNat_mul, h200]
  omega

theorem inBounds_out32_iff (reg : ChanReg) (chan v : BitVec 32) :
    InBounds (.out32 (reg.addr chan) v) ↔
      1 ≤ chan.toNat % 2 ^ 23 ∧ chan.toNat % 2 ^ 23 ≤ 4 := by
  have hoffset : 0x20 ≤ reg.offset.toNat ∧ reg.offset.toNat < 0x200 := by cases reg <;> decide
  have haddr := toNat_addr reg chan
  constructor
  · rintro (⟨c, h1, h4, hlow, hhigh⟩ | htrig)
    · omega
    · -- no register of a channel is at the offset of SOFTTRIG in a block
      have hnat : (reg.addr chan).toNat = 0xA08 := congrArg BitVec.toNat htrig
      omega
  · rintro ⟨h1, h4⟩
    exact Or.inl ⟨_, h1, h4, by omega, by omega⟩

theorem inBounds_sf_iff : InBounds (.sf (chan - 1)) ↔ 1 ≤ chan.toNat ∧ chan.toNat ≤ 4 := by
  have hone : (1 : BitVec 32).toNat = 1 := rfl
  show (chan - 1).toNat < 4 ↔ _
  rw [BitVec.toNat_sub, hone]
  omega

theorem inBounds_of_footprint (hchan : 1 ≤ chan.toNat ∧ chan.toNat ≤ 4) {r : Rights} {i : Access}
    (hi : Footprint chan r i) : InBounds i := by
  cases i with
  | out32 a v =>
    rcases hi with ⟨reg, -, rfl⟩ | ⟨rfl, -⟩
    · exact (inBounds_out32_iff reg chan v).mpr (by omega)
    · exact Or.inr rfl
  | sf i =>
    obtain ⟨rfl, -⟩ := hi
    exact inBounds_sf_iff.mpr hchan
  | setSf i s =>
    obtain ⟨rfl, -⟩ := hi
    exact inBounds_sf_iff.mpr hchan
  | _ => trivial

end Bounds

/-! ## What the cases do -/

section Cases

variable (fmt : FloatFormat) (stack : Bytes) (chan : BitVec 32) {data : BitVec 32} (d : Device)

/-- A case with the right to read the scale factors of its channel does so. -/
theorem sf_mem_trace {k : Kind} (h : (k.rights data).reads) :
    Access.sf (chan - 1) ∈ trace (Access.perform stack) (Code.kind fmt stack chan data k) d := by
  have hsecond : ∀ (i : Access) (l : List Access),
      Access.sf (chan - 1) ∈ i :: Access.sf (chan - 1) :: l := fun i l =>
    List.mem_cons_of_mem i List.mem_cons_self
  cases k with
  | raw reg => exact h.elim
  | gain reg => exact h.elim
  | limit reg => exact h.elim
  | usrTrig => exact h.elim
  | scaled reg dac field =>
    cases dac
    · exact List.mem_cons_self
    · exact hsecond _ _
  | clamped reg field => exact List.mem_cons_self
  | factor set => exact List.mem_cons_self
  | dacSetpt => exact hsecond _ _
  | sfDacDccts => exact List.mem_cons_self
  | dacOpmode =>
    obtain rfl : data = 2 := h
    exact List.mem_cons_self
  | writeQspi =>
    obtain rfl : data = 1 := h
    refine List.mem_cons_of_mem _ ?_
    show _ ∈ trace (Access.perform stack) (Code.qspiGatherData fmt stack chan >>= _) _
    rw [trace_bind, Code.qspiGatherData, trace_bind, run_readRegs]
    exact List.mem_append_left _ (List.mem_append_right _ List.mem_cons_self)
  | readQspi =>
    obtain rfl : data = 1 := h
    refine List.mem_cons_of_mem _ ?_
    show _ ∈ trace (Access.perform stack)
      (Code.qspiDisperseData fmt chan (qspiFlashRead stack chan d.flash)) d
    rw [Code.qspiDisperseData, trace_bind, run_outChans]
    exact List.mem_append_right _ List.mem_cons_self
  | dumpAdcs => exact List.mem_cons_of_mem _ (hsecond _ _)

/-- A case that writes without a scale factor writes a register of its number. -/
theorem out32_mayDo {k : Kind} (h : WritesUnscaled data k) :
    ∃ reg v, MayDo stack chan (Code.kind fmt stack chan data k) d
      (.out32 (ChanReg.addr reg chan) v) := by
  cases k with
  | raw reg => exact ⟨reg, data, Or.inl List.mem_cons_self⟩
  | gain reg =>
    simp only [Code.kind]
    cases toU32 (fmt.value data * gain20BitFract) with
    | error e => exact ⟨reg, 0, Or.inr ⟨⟨e, rfl⟩, reg, 0, rfl⟩⟩
    | ok n => exact ⟨reg, _, Or.inl List.mem_cons_self⟩
  | limit reg =>
    simp only [Code.kind]
    cases toS32 (fmt.value data * sampleRate) with
    | error e => exact ⟨reg, 0, Or.inr ⟨⟨e, rfl⟩, reg, 0, rfl⟩⟩
    | ok v => exact ⟨reg, v, Or.inl List.mem_cons_self⟩
  | dacOpmode =>
    obtain rfl | rfl | rfl := h
    · exact ⟨.dacOpmode, 0, Or.inl List.mem_cons_self⟩
    · exact ⟨.dacOpmode, 1, Or.inl List.mem_cons_self⟩
    · exact ⟨.dacOpmode, 3, Or.inl List.mem_cons_self⟩
  | _ => exact h.elim

/-- A case that reads no scale factor traps only where it writes. -/
theorem writesUnscaled_of_traps {k : Kind} (hreads : ¬(k.rights data).reads)
    (h : Traps stack (Code.kind fmt stack chan data k) d) : WritesUnscaled data k := by
  obtain ⟨e, he⟩ := h
  cases k with
  | raw reg => trivial
  | gain reg => trivial
  | limit reg => trivial
  | dacOpmode =>
    have h2 : data ≠ 2 := hreads
    simp only [Code.kind, Code.setDacOpmode, if_neg h2] at he
    split_ifs at he with h3 h01
    · exact Or.inr (Or.inr h3)
    · exact h01.elim Or.inl fun h1 => Or.inr (Or.inl h1)
    · cases he
  | usrTrig =>
    simp only [Code.kind] at he
    split_ifs at he
    · cases he
    · cases he
  | writeQspi =>
    have h1 : data ≠ 1 := hreads
    simp only [Code.kind, if_neg h1] at he
    cases he
  | readQspi =>
    have h1 : data ≠ 1 := hreads
    simp only [Code.kind, if_neg h1] at he
    cases he
  | _ => exact absurd trivial hreads

/-- A case that reads no scale factor does nothing else. -/
theorem mem_trace_of_not_reads {k : Kind} (hreads : ¬(k.rights data).reads) {i : Access}
    (hi : i ∈ trace (Access.perform stack) (Code.kind fmt stack chan data k) d) :
    (WritesUnscaled data k ∧ ∃ reg v, i = .out32 (ChanReg.addr reg chan) v) ∨
      ∃ v, i = .out32 GlobReg.softtrig.addr v := by
  cases k with
  | raw reg =>
    obtain rfl := List.mem_singleton.mp hi
    exact Or.inl ⟨trivial, reg, data, rfl⟩
  | gain reg =>
    simp only [Code.kind] at hi
    cases hn : toU32 (fmt.value data * gain20BitFract) with
    | error e =>
      rw [hn] at hi
      exact absurd hi List.not_mem_nil
    | ok n =>
      rw [hn] at hi
      obtain rfl := List.mem_singleton.mp hi
      exact Or.inl ⟨trivial, reg, _, rfl⟩
  | limit reg =>
    simp only [Code.kind] at hi
    cases hv : toS32 (fmt.value data * sampleRate) with
    | error e =>
      rw [hv] at hi
      exact absurd hi List.not_mem_nil
    | ok v =>
      rw [hv] at hi
      obtain rfl := List.mem_singleton.mp hi
      exact Or.inl ⟨trivial, reg, v, rfl⟩
  | dacOpmode =>
    have h2 : data ≠ 2 := hreads
    simp only [Code.kind, Code.setDacOpmode, if_neg h2] at hi
    split_ifs at hi with h3 h01
    · obtain rfl := List.mem_singleton.mp hi
      exact Or.inl ⟨Or.inr (Or.inr h3), .dacOpmode, 3, rfl⟩
    · obtain rfl := List.mem_singleton.mp hi
      exact Or.inl ⟨by tauto, .dacOpmode, data, rfl⟩
    · exact absurd hi List.not_mem_nil
  | usrTrig =>
    simp only [Code.kind] at hi
    split_ifs at hi
    · rcases List.mem_cons.mp hi with rfl | hi
      · exact Or.inr ⟨_, rfl⟩
      · obtain rfl := List.mem_singleton.mp hi
        exact Or.inr ⟨0, rfl⟩
    · exact absurd hi List.not_mem_nil
  | writeQspi =>
    have h1 : data ≠ 1 := hreads
    simp only [Code.kind, if_neg h1] at hi
    exact absurd hi List.not_mem_nil
  | readQspi =>
    have h1 : data ≠ 1 := hreads
    simp only [Code.kind, if_neg h1] at hi
    exact absurd hi List.not_mem_nil
  | _ => exact absurd trivial hreads

theorem kind_inBounds_iff (data : BitVec 32) (k : Kind) :
    (∀ i, MayDo stack chan (Code.kind fmt stack chan data k) d i → InBounds i) ↔
      KeepsToChannels chan data k := by
  constructor
  · intro h
    by_cases hreads : (k.rights data).reads
    · exact Or.inl (inBounds_sf_iff.mp (h _ (Or.inl (sf_mem_trace fmt stack chan d hreads))))
    · refine Or.inr ⟨hreads, fun hwrites => ?_⟩
      obtain ⟨reg, v, hmay⟩ := out32_mayDo fmt stack chan d hwrites
      exact (inBounds_out32_iff reg chan v).mp (h _ hmay)
  · rintro (hchan | ⟨hreads, hwrites⟩) i (hi | ⟨htraps, reg, v, rfl⟩)
    · exact inBounds_of_footprint hchan
        (every_trace (footprint_kind fmt stack chan data k) d i hi)
    · exact (inBounds_out32_iff reg chan v).mpr (by omega)
    · rcases mem_trace_of_not_reads fmt stack chan d hreads hi with ⟨hw, reg, v, rfl⟩ | ⟨v, rfl⟩
      · exact (inBounds_out32_iff reg chan v).mpr (hwrites hw)
      · exact Or.inr rfl
    · exact (inBounds_out32_iff reg chan v).mpr
        (hwrites (writesUnscaled_of_traps fmt stack chan d hreads htraps))

end Cases

/-- **Which commands are in bounds.** From any state of the device, the calls that a source brings
about keep to the scale factors and the registers of the four channels, and to SOFTTRIG, whatever an
undefined conversion in them gives, exactly if it is a client, or the console with a number that
keeps to the channels. -/
theorem commands_in_bounds_iff (fmt : FloatFormat) (stack : Bytes) (d : Device)
    (source : CommandSource) :
    (∀ call, source.call = some call →
      ∀ i, MayDo stack call.chan (call.code fmt stack) d i → InBounds i) ↔
        source.KeepsToChannels := by
  cases source with
  | client msgid msglen msg =>
    refine iff_of_true ?_ trivial
    intro call hcall i hi
    simp only [CommandSource.call] at hcall
    split_ifs at hcall with hchan h101
    · obtain rfl := Option.some.inj hcall
      have hnum : 1 ≤ (msgid.setWidth 32).toNat ∧ (msgid.setWidth 32).toNat ≤ 4 := by
        rcases hchan with rfl | rfl | rfl | rfl <;> decide
      rcases hi with hi | ⟨-, reg, v, rfl⟩
      · exact inBounds_of_footprint hnum
          (every_trace (footprint_chanSettings fmt stack (msgid.setWidth 32) _ _) d i hi)
      · exact (inBounds_out32_iff reg (msgid.setWidth 32) v).mpr (by omega)
    · obtain rfl := Option.some.inj hcall
      rcases hi with hi | ⟨-, reg, v, rfl⟩
      · exact inBounds_of_footprint (by decide)
          (every_trace (footprint_writeRamptable fmt 1 msg msglen) d i hi)
      · exact (inBounds_out32_iff reg 1 v).mpr (by decide)
  | console chan addr data =>
    obtain ⟨haddr, hdata⟩ := msgWord_consoleMsg addr data
    have hcode : (Call.chanSettings chan (consoleMsg addr data)).code fmt stack =
        Code.chanSettings fmt stack chan addr data := by
      rw [Call.code, haddr, hdata]
    show (∀ call, some (Call.chanSettings chan (consoleMsg addr data)) = some call → _) ↔
      ∀ msg, ChanMsg.ofCode addr.toNat = some msg → KeepsToChannels chan data msg.kind
    simp only [Option.some.injEq, forall_eq', hcode, Code.chanSettings, Call.chan]
    cases ChanMsg.ofCode addr.toNat with
    | none => simp [MayDo, Traps, trace, run, pure]
    | some msg =>
      simp only [Option.some.injEq, forall_eq']
      exact kind_inBounds_iff fmt stack chan d data msg.kind

/-- The line `0 100 0` writes the event number of the 10 Hz pulse, and the line `5 500 0` reads
past the scale factors. -/
theorem console_out_of_bounds :
    (∃ call, (CommandSource.console 0 100 0).call = some call ∧
      Access.out32 GlobReg.evr10hzEventnum.addr 0 ∈
        trace (Access.perform fun _ => 0) (call.code readFloats fun _ => 0) blankDevice ∧
      ¬InBounds (.out32 GlobReg.evr10hzEventnum.addr 0)) ∧
    ∃ call, (CommandSource.console 5 500 0).call = some call ∧
      Access.sf 4 ∈
        trace (Access.perform fun _ => 0) (call.code readFloats fun _ => 0) blankDevice ∧
      ¬InBounds (.sf 4) := by
  have hcode : ∀ chan addr data : BitVec 32,
      (Call.chanSettings chan (consoleMsg addr data)).code readFloats (fun _ => 0) =
        Code.chanSettings readFloats (fun _ => 0) chan addr data := by
    intro chan addr data
    obtain ⟨haddr, hdata⟩ := msgWord_consoleMsg addr data
    rw [Call.code, haddr, hdata]
  refine ⟨⟨_, rfl, ?_, ?_⟩, ⟨_, rfl, ?_, ?_⟩⟩
  · rw [hcode]
    exact List.mem_cons_self
  · exact fun h => absurd ((inBounds_out32_iff .dacOpmode 0 0).mp h) (by decide)
  · rw [hcode]
    exact List.mem_cons_of_mem _ (List.mem_cons_of_mem _ List.mem_cons_self)
  · exact fun h => absurd (show (4 : BitVec 32).toNat < 4 from h) (by decide)

end Psc.Net
