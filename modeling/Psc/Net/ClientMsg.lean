import Psc.Control.Limits
import Psc.Control.RampUpload

/-!
# Commands from a client

`main.c` and `listener.c`: the thread of a connection receives one message after another into the
same buffer and hands each to `client_msg`, which looks at its identifier. A setting is read from
the first two words of the buffer, whatever the length of the message was.

1. From any byte stream the thread serves messages (`handleClient_reachable`).
2. `onlyMessage_iff`: what a setting does depends on its message alone, and a message too short for
a setting does nothing, exactly if its length is 8 or more. A shorter one is completed with what
earlier messages have left in the buffer.
-/

namespace Psc.Net

open Control

/-! ## Serving a connection -/

/-- `sizeof(C->rxbuf)`. -/
def rxbufSize : ℕ := 8 + 200000

/-- The blink of the front panel LED. -/
def blink (d : Device) : Device := (d.outGlob .iocAccess 1).outGlob .iocAccess 0

section Serve

variable (fmt : FloatFormat)

/-- `client_msg`. -/
def clientMsg (stack : Bytes) (d : Device) (msgid : BitVec 16) (msglen : ℕ) (msg : Bytes) :
    Except Trap Device :=
  if msgid = 0 then .ok (globSettings (blink d) (msgWord msg 0) (msgWord msg 1))
  else if msgid = 1 ∨ msgid = 2 ∨ msgid = 3 ∨ msgid = 4 then
    chanSettings fmt stack (blink d) (msgid.setWidth 32) (msgWord msg 0) (msgWord msg 1)
  else if msgid = 101 then writeRamptable fmt (blink d) 1 msg msglen
  else .ok (blink d)

/-- The thread of a connection: its buffer, and the device. -/
structure Session where
  rxbuf : Bytes
  device : Device

/-- A buffer of which the first bytes have been received. -/
def fill (buf : Bytes) (bytes : List Byte) : Bytes := fun n => bytes.getD n (buf n)

/-- One pass of the loop of `handle_client`. -/
def serve (stack : Bytes) (s : Session) (r : Received) : Except Trap Session := do
  let rxbuf := fill s.rxbuf r.buf
  let d ← clientMsg fmt stack s.device r.msgid r.msglen rxbuf
  return ⟨rxbuf, d⟩

/-- `handle_client`: the state after at most `n` passes of its loop. -/
def handleClient (ρ : ℕ → ℕ → Outcome) (stack : ℕ → Bytes) :
    Source → Session → ℕ → Except Trap Session
  | _, s, 0 => .ok s
  | c, s, n + 1 =>
    match recvmsg ρ c rxbufSize with
    | (.error _, _) => .ok s
    | (.ok r, c) => do
      let s ← serve fmt (stack n) s r
      handleClient ρ stack c s n

/-- The states of a connection. It starts with a cleared buffer; between two of its messages, other
connections and tasks may do anything to the device. -/
inductive Reachable : Session → Prop
  | start (d : Device) : Reachable ⟨fun _ => 0, d⟩
  | message {s s' : Session} (stack : Bytes) (m : Msg) (hs : Reachable s)
      (hm : serve fmt stack s (m.received rxbufSize) = .ok s') : Reachable s'
  | others {s : Session} (d : Device) (hs : Reachable s) : Reachable ⟨s.rxbuf, d⟩

variable {fmt}

/-- From any stream of bytes, however cut, a connection serves messages. -/
theorem handleClient_reachable {ρ : ℕ → ℕ → Outcome} (hρ : RecvsPieces ρ) (stack : ℕ → Bytes)
    (n : ℕ) {c : Source} {s s' : Session} (hs : Reachable fmt s)
    (h : handleClient fmt ρ stack c s n = .ok s') : Reachable fmt s' := by
  induction n generalizing c s with
  | zero => exact Except.ok.inj h ▸ hs
  | succ n ih =>
    rw [handleClient] at h
    rcases hrecv : recvmsg ρ c rxbufSize with ⟨r | r, c₁⟩
    · rw [hrecv] at h
      exact Except.ok.inj h ▸ hs
    · obtain ⟨m, -, -, rfl⟩ := recvmsg_sound hρ hrecv
      rw [hrecv] at h
      simp only at h
      cases hserve : serve fmt (stack n) s (m.received rxbufSize) with
      | error e => rw [hserve] at h; cases h
      | ok s₁ => rw [hserve] at h; exact ih (.message _ m hs hserve) h

end Serve

/-! ## What a setting depends on -/

/-- The same registers, scale factors and flash. -/
structure SameState (d d' : Device) : Prop where
  regs : d.regs = d'.regs
  scalefactors : d.scalefactors = d'.scalefactors
  convVoltsToDacBits : d.convVoltsToDacBits = d'.convVoltsToDacBits
  flash : d.flash = d'.flash

/-- The device before a message, with the writes to come. -/
def before (s : Session) : Device := { s.device with bus := [] }

section Only

variable (fmt : FloatFormat)

/-- What a message shows: the registers and scale factors after it, and the writes it makes. -/
def effect (stack : Bytes) (s : Session) (m : Msg) :
    Except Trap ((BitVec 32 → BitVec 32) × (BitVec 32 → ScaleFactorType) × List BusWrite) :=
  (serve fmt stack ⟨s.rxbuf, before s⟩ (m.received rxbufSize)).map fun s => s.device.seen

/-- The effect of the messages with identifier `msgid` and `len` bytes of payload depends on the
message only: it is the same in any two states of a connection in which the device is, and if the
payload is too short for an address and a value, there is none. -/
structure OnlyMessage (msgid : BitVec 16) (len : ℕ) : Prop where
  same : ∀ m : Msg, m.msgid = msgid → m.payload.length = len → ∀ s₁ s₂, Reachable fmt s₁ →
    Reachable fmt s₂ → SameState s₁.device s₂.device → ∀ stack₁ stack₂,
      effect fmt stack₁ s₁ m = effect fmt stack₂ s₂ m
  short : len < 8 → ∀ m : Msg, m.msgid = msgid → m.payload.length = len → ∀ s, Reachable fmt s →
    ∀ stack, effect fmt stack s m = .ok (blink (before s)).seen

variable {fmt}

theorem before_eq {s₁ s₂ : Session} (h : SameState s₁.device s₂.device) :
    before s₁ = before s₂ := by
  simp only [before, h.regs, h.scalefactors, h.convVoltsToDacBits, h.flash]

theorem msgWord_fill {bytes : List Byte} (hlen : 8 ≤ bytes.length) (buf buf' : Bytes) {k : ℕ}
    (hk : k < 2) : msgWord (fill buf bytes) k = msgWord (fill buf' bytes) k := by
  refine congrArg htonl (wordAt_congr fun n _ hn => ?_)
  have hget : bytes[n]? = some (bytes.get ⟨n, by omega⟩) := List.getElem?_eq_getElem (by omega)
  rw [fill, fill, List.getD_eq_getElem?_getD, List.getD_eq_getElem?_getD, hget]
  rfl

theorem effect_eq (stack : Bytes) (s : Session) (m : Msg) :
    effect fmt stack s m = (clientMsg fmt stack (before s) m.msgid (min m.payload.length rxbufSize)
      (fill s.rxbuf (m.payload.take rxbufSize))).map Device.seen := by
  unfold effect serve
  simp only [Msg.received]
  cases clientMsg fmt stack (before s) m.msgid (min m.payload.length rxbufSize)
      (fill s.rxbuf (m.payload.take rxbufSize)) with
  | error e => rfl
  | ok d => rfl

/-- The identifiers of the settings. -/
def IsSetting (msgid : BitVec 16) : Prop :=
  msgid = 0 ∨ msgid = 1 ∨ msgid = 2 ∨ msgid = 3 ∨ msgid = 4

theorem seen_clientMsg_congr (stack stack' : Bytes) (d : Device) {msgid : BitVec 16}
    (hid : IsSetting msgid) {msglen : ℕ} {msg msg' : Bytes}
    (h : ∀ k < 2, msgWord msg k = msgWord msg' k) :
    (clientMsg fmt stack d msgid msglen msg).map Device.seen =
      (clientMsg fmt stack' d msgid msglen msg').map Device.seen := by
  unfold clientMsg
  rw [h 0 (by omega), h 1 (by omega)]
  by_cases h0 : msgid = 0
  · rw [if_pos h0, if_pos h0]
  · have hchan := hid.resolve_left h0
    rw [if_neg h0, if_neg h0, if_pos hchan, if_pos hchan]
    exact seen_chanSettings_stack fmt (blink d) _ stack stack' _ _

theorem onlyMessage_of_long {msgid : BitVec 16} (hid : IsSetting msgid) {len : ℕ} (hlen : 8 ≤ len) :
    OnlyMessage fmt msgid len where
  same m hm hpay s₁ s₂ _ _ hsame stack₁ stack₂ := by
    rw [effect_eq, effect_eq, before_eq hsame]
    refine seen_clientMsg_congr stack₁ stack₂ _ (hm ▸ hid) fun k hk => msgWord_fill ?_ _ _ hk
    rw [List.length_take, rxbufSize]
    omega
  short h := absurd h (by omega)

/-! ## A message that is too short -/

/-- A register that a setting with identifier `msgid` can write, and the address for it. -/
def probe (msgid : BitVec 16) : BitVec 32 × BitVec 32 :=
  if msgid = 0 then (GlobReg.leds.addr, 8)
  else (ChanReg.digoutOn1.addr (msgid.setWidth 32), 268)

/-- A setting of that register, with the value `v`. -/
def probeBytes (msgid : BitVec 16) (v : Byte) : List Byte :=
  be32 (probe msgid).2 ++ [0, 0, 0] ++ [v]

/-- The value. -/
def probeValue (v : Byte) : BitVec 32 := (0 : Byte) ++ (0 : Byte) ++ (0 : Byte) ++ v

/-- A connection on which that setting has come under an identifier that is ignored. -/
def probed (msgid : BitVec 16) (v : Byte) : Session :=
  ⟨fill (fun _ => 0) (probeBytes msgid v), blink blankDevice⟩

theorem probed_reachable (msgid : BitVec 16) (v : Byte) : Reachable fmt (probed msgid v) :=
  .message (fun _ => 0) ⟨102, probeBytes msgid v⟩ (.start blankDevice) rfl

theorem fill_take (buf : Bytes) (bytes : List Byte) (len : ℕ) :
    fill (fill buf bytes) (bytes.take len) = fill buf bytes := by
  funext n
  unfold fill
  rw [List.getD_eq_getElem?_getD, List.getD_eq_getElem?_getD]
  by_cases hn : n < len
  · rw [List.getElem?_take_of_lt hn]
    cases bytes[n]? with
    | none => rfl
    | some b => rfl
  · rw [List.getElem?_eq_none (by rw [List.length_take]; omega)]
    rfl

theorem msgWord_probed (msgid : BitVec 16) (v : Byte) :
    msgWord (probed msgid v).rxbuf 0 = (probe msgid).2 ∧
      msgWord (probed msgid v).rxbuf 1 = probeValue v := by
  refine ⟨?_, htonl_append 0 0 0 v⟩
  conv_rhs => rw [← append_extract32 (probe msgid).2]
  exact htonl_append _ _ _ _

theorem take_probeBytes (msgid : BitVec 16) (v : Byte) {len : ℕ} (hlen : len < 8) :
    (probeBytes msgid 0).take len = (probeBytes msgid v).take len := by
  have h7 : (be32 (probe msgid).2 ++ [0, 0, 0]).length = 7 := rfl
  have hcut : ∀ w, (probeBytes msgid w).take len = (be32 (probe msgid).2 ++ [0, 0, 0]).take len :=
    fun w => List.take_append_of_le_length (by omega)
  rw [hcut, hcut]

theorem effect_probed {msgid : BitVec 16} (hid : IsSetting msgid) (v : Byte) {len : ℕ}
    (hlen : len < 8) (stack : Bytes) :
    effect fmt stack (probed msgid v) ⟨msgid, (probeBytes msgid 0).take len⟩ =
      .ok ((blink (before (probed msgid v))).xilOut32 (probe msgid).1 (probeValue v)).seen := by
  have hrecv : ((probeBytes msgid 0).take len).take rxbufSize = (probeBytes msgid v).take len := by
    rw [List.take_take, rxbufSize, Nat.min_eq_right (by omega), take_probeBytes msgid v hlen]
  have hfill : fill (probed msgid v).rxbuf ((probeBytes msgid v).take len) =
    (probed msgid v).rxbuf := fill_take _ _ _
  obtain ⟨h0, h1⟩ := msgWord_probed msgid v
  rw [effect_eq, hrecv, hfill, clientMsg, h0, h1]
  by_cases hz : msgid = 0
  · subst hz
    rfl
  · have hchan := hid.resolve_left hz
    rw [if_neg hz, if_pos hchan, probe, if_neg hz]
    rfl

theorem stored_probe {msgid : BitVec 16} (hid : IsSetting msgid) :
    stored (probe msgid).1 (probeValue 0) ≠ stored (probe msgid).1 (probeValue 1) := by
  rcases hid with rfl | rfl | rfl | rfl | rfl <;> decide

/-- **Only the message.** A setting depends on its message alone, and a message too short to hold a
setting does nothing, exactly for the messages of 8 bytes or more. -/
theorem onlyMessage_iff {msgid : BitVec 16} (hid : IsSetting msgid) (len : ℕ) :
    OnlyMessage fmt msgid len ↔ 8 ≤ len := by
  refine ⟨fun h => ?_, onlyMessage_of_long hid⟩
  by_contra hlt
  have hlen : len < 8 := by omega
  -- the same message after two histories that differ in the last byte
  have hsame := h.same ⟨msgid, (probeBytes msgid 0).take len⟩ rfl
    (by rw [List.length_take]; exact Nat.min_eq_left hlen.le) (probed msgid 0) (probed msgid 1)
    (probed_reachable msgid 0) (probed_reachable msgid 1) ⟨rfl, rfl, rfl, rfl⟩ (fun _ => 0)
    (fun _ => 0)
  rw [effect_probed hid 0 hlen, effect_probed hid 1 hlen] at hsame
  have hregs := congrFun (congrArg Prod.fst (Except.ok.inj hsame)) (probe msgid).1
  simp only [Device.seen, Device.xilOut32, Function.update_self] at hregs
  exact stored_probe hid hregs

/-- A global setting of 8 bytes depends on its message alone. -/
theorem whole_setting_only_message : OnlyMessage readFloats 0 8 :=
  (onlyMessage_iff (Or.inl rfl) 8).mpr le_rfl

/-- The bytes `0, 0, 0, 8, 0, 0, 0, v`, sent under an identifier that is ignored, leave two
connections with the same device; an empty message with identifier 0 then sets the LEDs to `v`. -/
theorem empty_message_sets_leds :
    Reachable readFloats (probed 0 0) ∧ Reachable readFloats (probed 0 1) ∧
      (probed 0 0).device = (probed 0 1).device ∧
      (effect readFloats (fun _ => 0) (probed 0 0) ⟨0, []⟩).map (fun e => e.1 GlobReg.leds.addr) =
        .ok 0 ∧
      (effect readFloats (fun _ => 0) (probed 0 1) ⟨0, []⟩).map (fun e => e.1 GlobReg.leds.addr) =
        .ok 1 := by
  have heffect : ∀ v, effect readFloats (fun _ => 0) (probed 0 v) ⟨0, []⟩ =
      .ok ((blink (before (probed 0 v))).xilOut32 (probe 0).1 (probeValue v)).seen :=
    fun v => @effect_probed readFloats 0 (Or.inl rfl) v 0 (by decide) fun _ => 0
  refine ⟨probed_reachable 0 0, probed_reachable 0 1, rfl, ?_, ?_⟩
  · rw [heffect]; rfl
  · rw [heffect]; rfl

end Only

end Psc.Net
