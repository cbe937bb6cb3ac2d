import Psc.Lib.Clocked
import Psc.Records

/-!
# The FOFB receiver

`fofb_udp_rx.vhd`: a byte-wise state machine on the GMII stream. It waits for the start-of-frame
byte, takes 54 header bytes, and if the frame is for this controller reads six-byte records (an
address and a setpoint) until `rx_dv` falls.

1. Only IDLE, RX_ADDRHI and RX_SETPT_BYTE0 look at `rx_dv`; all other states take whatever byte is
   on the line.
2. The counters of the two ends of a packet balance (`packets_balance`): `packets_rcvd` moves when
   a header is accepted, and `rx_done` is high for one clock when the records end.
3. A record that is committed was read on six consecutive clocks (`record_of_byte0`), and only the
   first of them is known to have had `rx_dv` high.
-/

namespace Psc.UdpRx

open Clocked

/-! ## The state machine -/

/-- `state_type`; the last three are never entered. -/
inductive Phase where
  | idle | rxPreamble | rxHeader | rxAddrhi | rxAddrlo
  | rxSetptByte3 | rxSetptByte2 | rxSetptByte1 | rxSetptByte0
  | rxData | checkAddr | rxFinished
  deriving DecidableEq

/-- The input ports. -/
structure Input where
  reset : Bool
  fofbParams : FofbParams
  rxDataIn : BitVec 8
  rxDv : Bool

/-- The registers and output ports. `udp_pkt_buf_rx` is kept byte by byte, in the order in which
RX_HEADER fills it, and `fast_addr` and `setpt` by the bytes that are read back. -/
structure State where
  state : Phase
  rxDvPrev : Bool
  framebytenum : ℕ
  udpPktBufRx : ℕ → BitVec 8
  fastAddrHi : BitVec 8
  fastAddrLo : BitVec 8
  setpt3 : BitVec 8
  setpt2 : BitVec 8
  setpt1 : BitVec 8
  fofbPacket : Bool
  rxDone : Bool
  fofbStat : FofbStat

/-- `udp_pkt_buf_rx.ip_dest_addr`. -/
def ipDestAddr (buf : ℕ → BitVec 8) : BitVec 32 := buf 30 ++ buf 31 ++ buf 32 ++ buf 33

/-- `udp_pkt_buf_rx.fast_ps_id`. -/
def fastPsId (buf : ℕ → BitVec 8) : BitVec 16 := buf 42 ++ buf 43

/-- `udp_pkt_buf_rx.readback_cmd`. -/
def readbackCmd (buf : ℕ → BitVec 8) : BitVec 16 := buf 44 ++ buf 45

/-- `udp_pkt_buf_rx.nonce(31 downto 8)`. -/
def nonceHigh (buf : ℕ → BitVec 8) : BitVec 24 := buf 50 ++ buf 51 ++ buf 52

/-- The destination and the id of the header are the ones this controller listens to. -/
def accepts (s : State) (i : Input) : Bool :=
  (ipDestAddr s.udpPktBufRx = i.fofbParams.ipaddr) && (fastPsId s.udpPktBufRx = 0x7631)

/-- The end of an accepted header. -/
def acceptPacket (s : State) (i : Input) : State :=
  { s with
    state := .rxAddrhi
    fofbStat := { s.fofbStat with
      nonce := nonceHigh s.udpPktBufRx ++ i.rxDataIn
      command := (readbackCmd s.udpPktBufRx).setWidth 32
      packetsRcvd := s.fofbStat.packetsRcvd + 1 }
    fofbPacket := true }

/-- RX_HEADER. -/
def rxHeader (s : State) (i : Input) : State :=
  let t := { s with
    framebytenum := s.framebytenum + 1
    udpPktBufRx := Function.update s.udpPktBufRx s.framebytenum i.rxDataIn }
  if s.framebytenum < 53 then t
  else if s.framebytenum = 53 then
    -- the byte taken in this clock is not in the buffer yet
    if accepts s i then
      { acceptPacket s i with framebytenum := t.framebytenum, udpPktBufRx := t.udpPktBufRx }
    else { t with state := .idle }
  else { s with framebytenum := s.framebytenum + 1 }

/-- The setpoints after the last byte of a record: each supply with its address takes it. -/
def commit (s : State) (i : Input) : FofbStat :=
  { s.fofbStat with
    setptFlt ps :=
      if s.fastAddrHi ++ s.fastAddrLo = i.fofbParams.addr ps then
        s.setpt3 ++ s.setpt2 ++ s.setpt1 ++ i.rxDataIn
      else s.fofbStat.setptFlt ps }

/-- One clock. -/
def step (s : State) (i : Input) : State :=
  if i.reset then
    { s with
      state := .idle
      framebytenum := 0
      rxDone := false
      rxDvPrev := false
      fofbStat := ⟨0, 0, 0, fun _ => 0⟩
      fofbPacket := false }
  else
    match s.state with
    | .idle =>
      let t := { s with fofbPacket := false, rxDone := false, rxDvPrev := i.rxDv }
      if i.rxDv && !s.rxDvPrev then { t with state := .rxPreamble, framebytenum := 0 } else t
    | .rxPreamble => if i.rxDataIn = 0xD5 then { s with state := .rxHeader } else s
    | .rxHeader => rxHeader s i
    | .rxAddrhi =>
      if i.rxDv then
        { s with fofbPacket := false, fastAddrHi := i.rxDataIn, state := .rxAddrlo }
      else { s with fofbPacket := false, rxDone := true, state := .idle }
    | .rxAddrlo => { s with fastAddrLo := i.rxDataIn, state := .rxSetptByte3 }
    | .rxSetptByte3 => { s with setpt3 := i.rxDataIn, state := .rxSetptByte2 }
    | .rxSetptByte2 => { s with setpt2 := i.rxDataIn, state := .rxSetptByte1 }
    | .rxSetptByte1 => { s with setpt1 := i.rxDataIn, state := .rxSetptByte0 }
    | .rxSetptByte0 =>
      if i.rxDv then { s with fofbStat := commit s i, state := .rxAddrhi }
      else { s with fofbStat := commit s i, rxDone := true, state := .idle }
    | .rxData | .checkAddr | .rxFinished => { s with state := .idle }

/-! ## One clock -/

/-- The states in which the records of an accepted packet are read. -/
def Phase.record : Phase → Bool
  | rxAddrhi | rxAddrlo | rxSetptByte3 | rxSetptByte2 | rxSetptByte1 | rxSetptByte0 => true
  | _ => false

/-- A header is accepted. -/
def takes (s : State) (i : Input) : Bool :=
  (s.state = .rxHeader) && (s.framebytenum = 53) && accepts s i

/-- The records end. -/
def ends (s : State) (i : Input) : Bool :=
  (s.state = .rxAddrhi || s.state = .rxSetptByte0) && !i.rxDv

section Step

variable {s : State} {i : Input}

/-- Without reset a clock is the case of its state. -/
theorem step_of_not_reset (hr : i.reset = false) : step s i =
    match s.state with
    | .idle =>
      let t := { s with fofbPacket := false, rxDone := false, rxDvPrev := i.rxDv }
      if i.rxDv && !s.rxDvPrev then { t with state := .rxPreamble, framebytenum := 0 } else t
    | .rxPreamble => if i.rxDataIn = 0xD5 then { s with state := .rxHeader } else s
    | .rxHeader => rxHeader s i
    | .rxAddrhi =>
      if i.rxDv then
        { s with fofbPacket := false, fastAddrHi := i.rxDataIn, state := .rxAddrlo }
      else { s with fofbPacket := false, rxDone := true, state := .idle }
    | .rxAddrlo => { s with fastAddrLo := i.rxDataIn, state := .rxSetptByte3 }
    | .rxSetptByte3 => { s with setpt3 := i.rxDataIn, state := .rxSetptByte2 }
    | .rxSetptByte2 => { s with setpt2 := i.rxDataIn, state := .rxSetptByte1 }
    | .rxSetptByte1 => { s with setpt1 := i.rxDataIn, state := .rxSetptByte0 }
    | .rxSetptByte0 =>
      if i.rxDv then { s with fofbStat := commit s i, state := .rxAddrhi }
      else { s with fofbStat := commit s i, rxDone := true, state := .idle }
    | .rxData | .checkAddr | .rxFinished => { s with state := .idle } := by
  unfold step
  exact if_neg (by simp [hr])

theorem step_idle_low (hs : s.state = .idle) (hr : i.reset = false) (hdv : i.rxDv = false) :
    step s i = { s with fofbPacket := false, rxDone := false, rxDvPrev := false } := by
  rw [step_of_not_reset hr, hs]
  simp [hdv]

/-- What a header byte does to the state and the outputs. -/
theorem rxHeader_cases (s : State) (i : Input) :
    (rxHeader s i).rxDone = s.rxDone ∧ (rxHeader s i).fofbStat.setptFlt = s.fofbStat.setptFlt ∧
      if s.framebytenum = 53 ∧ accepts s i = true then
        (rxHeader s i).state = .rxAddrhi ∧
          (rxHeader s i).fofbStat.packetsRcvd = s.fofbStat.packetsRcvd + 1
      else (rxHeader s i).fofbStat = s.fofbStat ∧
        ((rxHeader s i).state = s.state ∨ (rxHeader s i).state = .idle) := by
  unfold rxHeader
  rcases Nat.lt_trichotomy s.framebytenum 53 with hlt | heq | hgt
  · rw [if_pos hlt, if_neg (by omega)]
    exact ⟨rfl, rfl, rfl, Or.inl rfl⟩
  · rw [if_neg (by omega), if_pos heq]
    cases ha : accepts s i with
    | true =>
      rw [if_pos rfl, if_pos ⟨heq, rfl⟩]
      exact ⟨rfl, rfl, rfl, rfl⟩
    | false =>
      rw [if_neg (by simp), if_neg (by simp)]
      exact ⟨rfl, rfl, rfl, Or.inr rfl⟩
  · rw [if_neg (by omega), if_neg (by omega), if_neg (by omega)]
    exact ⟨rfl, rfl, rfl, Or.inl rfl⟩

theorem record_step (hr : i.reset = false) :
    (step s i).state.record = (takes s i || (s.state.record && !ends s i)) := by
  rw [step_of_not_reset hr]
  unfold takes ends
  cases hs : s.state with
  | idle => split_ifs <;> simp [Phase.record]
  | rxPreamble => split_ifs <;> simp [Phase.record, hs]
  | rxHeader =>
    obtain ⟨-, -, hcase⟩ := rxHeader_cases s i
    split_ifs at hcase with hc
    · simp [Phase.record, hcase.1, hc]
    · rcases hcase.2 with h | h
      · rw [hs] at h
        simpa [Phase.record, h] using hc
      · simpa [Phase.record, h] using hc
  | rxAddrhi => cases i.rxDv <;> simp [Phase.record]
  | rxSetptByte0 => cases i.rxDv <;> simp [Phase.record]
  | _ => simp [Phase.record]

theorem rxDone_step (hr : i.reset = false) :
    (step s i).rxDone = (ends s i || (s.rxDone && !decide (s.state = .idle))) := by
  rw [step_of_not_reset hr]
  unfold ends
  cases hs : s.state with
  | idle => split_ifs <;> simp
  | rxPreamble => split_ifs <;> simp
  | rxHeader => simp [(rxHeader_cases s i).1]
  | rxAddrhi => cases i.rxDv <;> simp
  | rxSetptByte0 => cases i.rxDv <;> simp
  | _ => simp

theorem packetsRcvd_step (hr : i.reset = false) : (step s i).fofbStat.packetsRcvd =
    if takes s i then s.fofbStat.packetsRcvd + 1 else s.fofbStat.packetsRcvd := by
  rw [step_of_not_reset hr]
  unfold takes
  cases hs : s.state with
  | idle => split_ifs <;> simp_all
  | rxPreamble => split_ifs <;> simp_all
  | rxHeader =>
    obtain ⟨-, -, hcase⟩ := rxHeader_cases s i
    split_ifs at hcase with hc
    · simp [hcase.2, hc]
    · show (rxHeader s i).fofbStat.packetsRcvd = _
      rw [if_neg (by simpa using hc), hcase.1]
  | rxAddrhi => cases i.rxDv <;> simp
  | rxSetptByte0 => cases i.rxDv <;> simp [commit]
  | _ => simp

theorem setptFlt_step (hr : i.reset = false) : (step s i).fofbStat.setptFlt =
    if s.state = .rxSetptByte0 then (commit s i).setptFlt else s.fofbStat.setptFlt := by
  rw [step_of_not_reset hr]
  cases hs : s.state with
  | idle => split_ifs <;> simp_all
  | rxPreamble => split_ifs <;> simp_all
  | rxHeader => simp [(rxHeader_cases s i).2.1]
  | rxAddrhi => cases i.rxDv <;> simp
  | rxSetptByte0 => cases i.rxDv <;> simp
  | _ => simp

end Step

/-! ## Packets

`st` is a run of the receiver from a reset: the clock with `reset` high leads from `s₀` to the
state before clock `0`, and `reset` stays low afterwards. -/

/-- At clock `n` the packet counter moves. -/
def countsPacket (st : ℕ → State) (n : ℕ) : Bool :=
  (st (n + 1)).fofbStat.packetsRcvd ≠ (st n).fofbStat.packetsRcvd

/-- The number of packets accepted before clock `n`. -/
def accepted (st : ℕ → State) (n : ℕ) : ℕ := tickCount (countsPacket st) n

/-- The number of clocks up to `n` with `rx_done` high. -/
def donePulses (st : ℕ → State) (n : ℕ) : ℕ := tickCount (fun k => (st k).rxDone) (n + 1)

section Runs

variable {inp : ℕ → Input} {s : State} (hinp : ∀ n, (inp n).reset = false)

include hinp

theorem countsPacket_eq (n : ℕ) :
    countsPacket (run step s inp) n = takes (run step s inp n) (inp n) := by
  unfold countsPacket
  rw [run_succ, packetsRcvd_step (hinp n)]
  cases takes (run step s inp n) (inp n) with
  | true => simp
  | false => simp

/-- `rx_done` is high in IDLE only. -/
theorem idle_of_rxDone (h0 : s.rxDone = false) (n : ℕ) (h : (run step s inp n).rxDone = true) :
    (run step s inp n).state = .idle := by
  induction n with
  | zero =>
    rw [run_zero, h0] at h
    simp at h
  | succ n ih =>
    rw [run_succ, rxDone_step (hinp n)] at h
    cases he : ends (run step s inp n) (inp n) with
    | true =>
      unfold ends at he
      simp only [Bool.and_eq_true, Bool.or_eq_true, decide_eq_true_eq, Bool.not_eq_true'] at he
      rw [run_succ, step_of_not_reset (hinp n)]
      rcases he.1 with hs | hs
      · simp [hs, he.2]
      · simp [hs, he.2]
    | false =>
      simp only [he, Bool.false_or, Bool.and_eq_true, Bool.not_eq_true',
        decide_eq_false_iff_not] at h
      exact absurd (ih h.1) h.2

theorem rxDone_succ (h0 : s.rxDone = false) (n : ℕ) :
    (run step s inp (n + 1)).rxDone = ends (run step s inp n) (inp n) := by
  rw [run_succ, rxDone_step (hinp n)]
  cases hd : (run step s inp n).rxDone with
  | false => simp
  | true => simp [idle_of_rxDone hinp h0 n hd]

/-- The packets accepted and the pulses differ by the packet that is being read. -/
theorem packets_balance (h0 : s.rxDone = false) (hs : s.state = .idle) (n : ℕ) :
    accepted (run step s inp) n =
      donePulses (run step s inp) n + if (run step s inp n).state.record then 1 else 0 := by
  induction n with
  | zero =>
    have hlow : (fun k => (run step s inp k).rxDone) 0 = false := h0
    unfold donePulses
    rw [tickCount_succ_of_not_tick hlow, run_zero, hs]
    rfl
  | succ n ih =>
    have hcount := countsPacket_eq hinp (s := s) n
    have hdone := rxDone_succ hinp h0 n
    have hrec : (run step s inp (n + 1)).state.record = _ := record_step (hinp n)
    unfold accepted donePulses at ih ⊢
    cases ht : takes (run step s inp n) (inp n) with
    | true =>
      -- the last header byte
      have hstate : (run step s inp n).state = .rxHeader := by
        unfold takes at ht
        simp only [Bool.and_eq_true, decide_eq_true_eq] at ht
        exact ht.1.1
      have hne : ends (run step s inp n) (inp n) = false := by simp [ends, hstate]
      rw [ht] at hcount hrec
      rw [hne] at hdone
      rw [tickCount_succ_of_tick hcount, tickCount_succ_of_not_tick (n := n + 1) hdone, ih, hrec,
        hstate]
      rfl
    | false =>
      rw [ht] at hcount hrec
      rw [tickCount_succ_of_not_tick hcount, ih, hrec]
      cases he : ends (run step s inp n) (inp n) with
      | true =>
        have hin : (run step s inp n).state.record = true := by
          unfold ends at he
          simp only [Bool.and_eq_true, Bool.or_eq_true, decide_eq_true_eq] at he
          rcases he.1 with h | h <;> rw [h] <;> rfl
        rw [he] at hdone
        rw [tickCount_succ_of_tick (n := n + 1) hdone, hin]
        simp
      | false =>
        rw [he] at hdone
        rw [tickCount_succ_of_not_tick (n := n + 1) hdone]
        simp

theorem setptFlt_held {m : ℕ} (hm : (run step s inp m).state.record = false) (n : ℕ) (hmn : m ≤ n)
    (hno : ∀ k, m ≤ k → k < n → countsPacket (run step s inp) k = false) :
    (run step s inp n).fofbStat.setptFlt = (run step s inp m).fofbStat.setptFlt ∧
      (run step s inp n).state.record = false := by
  induction n, hmn using Nat.le_induction with
  | base => exact ⟨rfl, hm⟩
  | succ n hmn ih =>
    obtain ⟨hsame, hout⟩ := ih fun k hk hkn => hno k hk (by omega)
    have htakes := hno n hmn (Nat.lt_succ_self n)
    rw [countsPacket_eq hinp] at htakes
    constructor
    · rw [run_succ, setptFlt_step (hinp n), if_neg, hsame]
      intro h
      rw [h] at hout
      simp [Phase.record] at hout
    · rw [run_succ, record_step (hinp n), htakes, hout]
      rfl

end Runs

/-- **The update strobe.** In every run from a reset:

* at every clock the packets accepted so far are as many as the clocks with `rx_done` high, and one
  more exactly in the record states;
* `rx_done` is high for one clock at a time;
* from a pulse to the next accepted packet the setpoints stay. -/
theorem update_strobe (s₀ : State) (i₀ : Input) (inp : ℕ → Input) (hr : i₀.reset = true)
    (hinp : ∀ n, (inp n).reset = false) :
    (∀ n, accepted (run step (step s₀ i₀) inp) n = donePulses (run step (step s₀ i₀) inp) n +
      if (run step (step s₀ i₀) inp n).state.record then 1 else 0) ∧
    (∀ n, (run step (step s₀ i₀) inp n).rxDone = true →
      (run step (step s₀ i₀) inp (n + 1)).rxDone = false) ∧
    ∀ m n, m ≤ n → (run step (step s₀ i₀) inp m).rxDone = true →
      (∀ k, m ≤ k → k < n → countsPacket (run step (step s₀ i₀) inp) k = false) →
      (run step (step s₀ i₀) inp n).fofbStat.setptFlt =
        (run step (step s₀ i₀) inp m).fofbStat.setptFlt := by
  have h0 : (step s₀ i₀).rxDone = false := by simp [step, hr]
  have hs : (step s₀ i₀).state = .idle := by simp [step, hr]
  refine ⟨packets_balance hinp h0 hs, ?_, ?_⟩
  · intro n hn
    rw [rxDone_succ hinp h0]
    simp [ends, idle_of_rxDone hinp h0 n hn]
  · intro m n hmn hm hno
    have hout : (run step (step s₀ i₀) inp m).state.record = false := by
      rw [idle_of_rxDone hinp h0 m hm]
      rfl
    exact (setptFlt_held hinp hout n hmn hno).1

/-- `rx_data_bytes`, the stimulus of `fofb_phy.vhd`: a frame with four records and no trailer. -/
def rxDataBytes : List (BitVec 8) :=
  [0x55, 0x55, 0x55, 0x55, 0x55, 0x55, 0x55, 0xD5,
    0xAA, 0xBB, 0xCC, 0xDD, 0xEE, 0xFF, 0x11, 0x22, 0x33, 0x44, 0x55, 0x66, 0x08, 0x00,
    0x45, 0x00, 0x00, 0x3C, 0x12, 0x34, 0x40, 0x00, 0x40, 0x11, 0xB8, 0x27,
    0xC0, 0xA8, 0x00, 0x01, 0x10, 0x00, 0x12, 0x02,
    0x00, 0x2A, 0x00, 0x2B, 0x00, 0x28, 0x1A, 0x2B,
    0x76, 0x31, 0x00, 0x01, 0x01, 0x02, 0x03, 0x04, 0x05, 0x06, 0x07, 0x08,
    0x0A, 0x0B, 0x3F, 0x00, 0x00, 0x00, 0x0A, 0x0B, 0x40, 0xA0, 0x00, 0x00,
    0x2A, 0x2B, 0x31, 0x32, 0x33, 0x34, 0x3A, 0x3B, 0x41, 0x42, 0x43, 0x44]

/-- The parameters of `fofb_top_tb.vhd`. -/
def tbParams : FofbParams where
  ipaddr := 0x10001202
  addr
    | .ps1 => 0x0A0B
    | _ => 0

/-- The stimulus cut after `len` bytes, with `idle` on the line afterwards. -/
def stimulus (len : ℕ) (idle : BitVec 8) (n : ℕ) : Input :=
  ⟨false, tbParams, if n < len then rxDataBytes.getD n 0 else idle, n < len⟩

/-- All registers low. -/
def restState : State :=
  ⟨.idle, false, 0, fun _ => 0, 0, 0, 0, 0, 0, false, false, ⟨0, 0, 0, fun _ => 0⟩⟩

/-- The input of a clock with `reset` high. -/
def resetInput : Input := ⟨true, tbParams, 0, false⟩

/-- While the first record of the stimulus is read, one packet is accepted and no pulse has come. -/
theorem stimulus_strobe :
    (run step (step restState resetInput) (stimulus 86 0) 64).state.record = true ∧
      accepted (run step (step restState resetInput) (stimulus 86 0)) 64 =
        donePulses (run step (step restState resetInput) (stimulus 86 0)) 64 + 1 := by
  have hrec : (run step (step restState resetInput) (stimulus 86 0) 64).state.record = true := by
    decide +kernel
  have hstrobe := (update_strobe restState resetInput (stimulus 86 0) rfl fun _ => rfl).1 64
  rw [hrec] at hstrobe
  exact ⟨hrec, hstrobe⟩

/-! ## Records -/

section Record

variable {s : State}

/-- The first five bytes of a record; only the first is tested for `rx_dv`. -/
theorem step_five (i₀ i₁ i₂ i₃ i₄ : Input) (hs : s.state = .rxAddrhi) (hdv : i₀.rxDv = true)
    (h₀ : i₀.reset = false) (h₁ : i₁.reset = false) (h₂ : i₂.reset = false) (h₃ : i₃.reset = false)
    (h₄ : i₄.reset = false) :
    step (step (step (step (step s i₀) i₁) i₂) i₃) i₄ =
      { s with
        state := .rxSetptByte0
        fofbPacket := false
        fastAddrHi := i₀.rxDataIn
        fastAddrLo := i₁.rxDataIn
        setpt3 := i₂.rxDataIn
        setpt2 := i₃.rxDataIn
        setpt1 := i₄.rxDataIn } := by
  rw [step_of_not_reset h₀, hs]
  simp only [hdv, if_true]
  rw [step_of_not_reset h₁]
  dsimp only
  rw [step_of_not_reset h₂]
  dsimp only
  rw [step_of_not_reset h₃]
  dsimp only
  rw [step_of_not_reset h₄]

/-- Inside a record each state has one predecessor. -/
theorem state_before {i : Input} (hr : i.reset = false) :
    ((step s i).state = .rxAddrlo → s.state = .rxAddrhi ∧ i.rxDv = true) ∧
    ((step s i).state = .rxSetptByte3 → s.state = .rxAddrlo) ∧
    ((step s i).state = .rxSetptByte2 → s.state = .rxSetptByte3) ∧
    ((step s i).state = .rxSetptByte1 → s.state = .rxSetptByte2) ∧
    ((step s i).state = .rxSetptByte0 → s.state = .rxSetptByte1) := by
  rw [step_of_not_reset hr]
  cases hs : s.state with
  | idle => split_ifs <;> simp
  | rxPreamble => split_ifs <;> simp [hs]
  | rxHeader =>
    obtain ⟨-, -, hcase⟩ := rxHeader_cases s i
    split_ifs at hcase
    · simp [hcase.1]
    · rcases hcase.2 with h | h
      · simp [h, hs]
      · simp [h]
  | rxAddrhi => cases i.rxDv <;> simp
  | rxSetptByte0 => cases i.rxDv <;> simp
  | _ => simp

/-- A record begins at clock `k`. -/
def Begins (st : ℕ → State) (inp : ℕ → Input) (k : ℕ) : Prop :=
  (st k).state = .rxAddrhi ∧ (inp k).rxDv = true

variable {inp : ℕ → Input} (hinp : ∀ n, (inp n).reset = false)

include hinp

theorem run_five {k : ℕ} (h : Begins (run step s inp) inp k) : run step s inp (k + 5) =
    { run step s inp k with
      state := .rxSetptByte0
      fofbPacket := false
      fastAddrHi := (inp k).rxDataIn
      fastAddrLo := (inp (k + 1)).rxDataIn
      setpt3 := (inp (k + 2)).rxDataIn
      setpt2 := (inp (k + 3)).rxDataIn
      setpt1 := (inp (k + 4)).rxDataIn } :=
  step_five (inp k) (inp (k + 1)) (inp (k + 2)) (inp (k + 3)) (inp (k + 4)) h.1 h.2
    (hinp k) (hinp (k + 1)) (hinp (k + 2)) (hinp (k + 3)) (hinp (k + 4))

/-- The last byte of a record is that of one which began five clocks before. -/
theorem record_of_byte0 (hs : s.state = .idle) (n : ℕ)
    (h : (run step s inp n).state = .rxSetptByte0) :
    ∃ k, n = k + 5 ∧ Begins (run step s inp) inp k := by
  -- a state other than IDLE is not the first one
  have hpos : ∀ m, (run step s inp m).state ≠ .idle → ∃ k, m = k + 1 := by
    intro m hm
    apply Nat.exists_eq_succ_of_ne_zero
    rintro rfl
    exact hm hs
  obtain ⟨n₁, rfl⟩ := hpos n (by simp [h])
  have h₁ := (state_before (hinp n₁)).2.2.2.2 h
  obtain ⟨n₂, rfl⟩ := hpos n₁ (by simp [h₁])
  have h₂ := (state_before (hinp n₂)).2.2.2.1 h₁
  obtain ⟨n₃, rfl⟩ := hpos n₂ (by simp [h₂])
  have h₃ := (state_before (hinp n₃)).2.2.1 h₂
  obtain ⟨n₄, rfl⟩ := hpos n₃ (by simp [h₃])
  have h₄ := (state_before (hinp n₄)).2.1 h₃
  obtain ⟨k, rfl⟩ := hpos n₄ (by simp [h₄])
  exact ⟨k, rfl, (state_before (hinp k)).1 h₄⟩

end Record

/-- The states inside a record. -/
def Phase.insideRecord : Phase → Bool
  | rxAddrlo | rxSetptByte3 | rxSetptByte2 | rxSetptByte1 | rxSetptByte0 => true
  | _ => false

/-- The setpoint of `ps` takes at clock `n` the value of a record of which all six bytes came with
`rx_dv` high. -/
def WholeRecord (st : ℕ → State) (inp : ℕ → Input) (n : ℕ) (ps : Ps) : Prop :=
  ∃ k, n = k + 5 ∧ (∀ j ≤ 5, (inp (k + j)).rxDv = true) ∧
    (inp k).rxDataIn ++ (inp (k + 1)).rxDataIn = (inp n).fofbParams.addr ps ∧
    (st (n + 1)).fofbStat.setptFlt ps =
      (inp (k + 2)).rxDataIn ++ (inp (k + 3)).rxDataIn ++ (inp (k + 4)).rxDataIn ++
        (inp (k + 5)).rxDataIn

/-- Records are applied whole or not at all: a setpoint changes by whole records only, and where
`rx_dv` falls inside a record the setpoints stay as they are for as long as it is low. -/
def AppliedWhole (st : ℕ → State) (inp : ℕ → Input) : Prop :=
  (∀ n ps, (st (n + 1)).fofbStat.setptFlt ps ≠ (st n).fofbStat.setptFlt ps →
    WholeRecord st inp n ps) ∧
  ∀ m n, m ≤ n → (st m).state.insideRecord = true →
    (∀ k, m ≤ k → k < n → (inp k).rxDv = false) →
    (st n).fofbStat.setptFlt = (st m).fofbStat.setptFlt

/-- No record that is cut (`rx_dv` low at one of its last five bytes) selects a supply whose
setpoint is another one. -/
def CutsHarmless (st : ℕ → State) (inp : ℕ → Input) : Prop :=
  ∀ k ps, Begins st inp k → (∃ j, 1 ≤ j ∧ j ≤ 5 ∧ (inp (k + j)).rxDv = false) →
    (inp k).rxDataIn ++ (inp (k + 1)).rxDataIn = (inp (k + 5)).fofbParams.addr ps →
    (inp (k + 2)).rxDataIn ++ (inp (k + 3)).rxDataIn ++ (inp (k + 4)).rxDataIn ++
      (inp (k + 5)).rxDataIn = (st k).fofbStat.setptFlt ps

section Whole

variable {s : State} {inp : ℕ → Input} (hinp : ∀ n, (inp n).reset = false)

include hinp

/-- At the end of a record the setpoint of the supply with its address is made of its bytes, and
the others stay. -/
theorem setptFlt_of_begins {k : ℕ} (h : Begins (run step s inp) inp k) (ps : Ps) :
    (run step s inp (k + 5)).fofbStat.setptFlt ps = (run step s inp k).fofbStat.setptFlt ps ∧
    (run step s inp (k + 6)).fofbStat.setptFlt ps =
      if (inp k).rxDataIn ++ (inp (k + 1)).rxDataIn = (inp (k + 5)).fofbParams.addr ps then
        (inp (k + 2)).rxDataIn ++ (inp (k + 3)).rxDataIn ++ (inp (k + 4)).rxDataIn ++
          (inp (k + 5)).rxDataIn
      else (run step s inp k).fofbStat.setptFlt ps := by
  have hfive := run_five hinp h
  have hset : (run step s inp (k + 5 + 1)).fofbStat.setptFlt = _ := setptFlt_step (hinp (k + 5))
  rw [hfive, if_pos rfl] at hset
  refine ⟨by rw [hfive], ?_⟩
  rw [hset]
  rfl

theorem begins_of_ne (hs : s.state = .idle) {n : ℕ} {ps : Ps}
    (hne : (run step s inp (n + 1)).fofbStat.setptFlt ps ≠
      (run step s inp n).fofbStat.setptFlt ps) :
    ∃ k, n = k + 5 ∧ Begins (run step s inp) inp k := by
  refine record_of_byte0 hinp hs n ?_
  by_contra hb
  have hset : (run step s inp (n + 1)).fofbStat.setptFlt = _ := setptFlt_step (hinp n)
  rw [hset, if_neg hb] at hne
  exact hne rfl

theorem wholeRecord_of_ne (hs : s.state = .idle) (hcut : CutsHarmless (run step s inp) inp) {n : ℕ}
    {ps : Ps} (hne : (run step s inp (n + 1)).fofbStat.setptFlt ps ≠
      (run step s inp n).fofbStat.setptFlt ps) : WholeRecord (run step s inp) inp n ps := by
  obtain ⟨k, rfl, hbegins⟩ := begins_of_ne hinp hs hne
  obtain ⟨hstay, hval⟩ := setptFlt_of_begins hinp hbegins ps
  rw [hstay, hval] at hne
  split_ifs at hne hval with haddr
  · have hall : ∀ j ≤ 5, (inp (k + j)).rxDv = true := by
      intro j hj
      by_contra hlow
      rcases Nat.eq_zero_or_pos j with rfl | hpos
      · exact hlow hbegins.2
      · exact hne (hcut k ps hbegins ⟨j, hpos, hj, by simpa using hlow⟩ haddr)
    exact ⟨k, rfl, hall, haddr, hval⟩
  · exact absurd rfl hne

end Whole

theorem setptFlt_of_low {st : ℕ → State} {inp : ℕ → Input}
    (hwhole : ∀ n ps, (st (n + 1)).fofbStat.setptFlt ps ≠ (st n).fofbStat.setptFlt ps →
      WholeRecord st inp n ps) {m n : ℕ} (hmn : m ≤ n)
    (hlow : ∀ k, m ≤ k → k < n → (inp k).rxDv = false) :
    (st n).fofbStat.setptFlt = (st m).fofbStat.setptFlt := by
  induction n, hmn using Nat.le_induction with
  | base => rfl
  | succ n hmn ih =>
    rw [← ih fun k hk hkn => hlow k hk (by omega)]
    funext ps
    by_contra hne
    obtain ⟨k, rfl, hall, -⟩ := hwhole n ps hne
    have hhigh := hall 5 le_rfl
    rw [hlow (k + 5) hmn (Nat.lt_succ_self _)] at hhigh
    simp at hhigh

/-- **Whole records.** In every run from a reset, records are applied whole or not at all exactly
if no cut record selects a supply with another setpoint. -/
theorem appliedWhole_iff (s₀ : State) (i₀ : Input) (inp : ℕ → Input) (hr : i₀.reset = true)
    (hinp : ∀ n, (inp n).reset = false) :
    AppliedWhole (run step (step s₀ i₀) inp) inp ↔
      CutsHarmless (run step (step s₀ i₀) inp) inp := by
  have hs : (step s₀ i₀).state = .idle := by simp [step, hr]
  generalize step s₀ i₀ = s at hs
  constructor
  · rintro ⟨hwhole, -⟩ k ps hbegins ⟨j, -, hj, hdv⟩ haddr
    by_contra hne
    obtain ⟨hstay, hval⟩ := setptFlt_of_begins hinp hbegins ps
    rw [if_pos haddr] at hval
    obtain ⟨k', hk, hall, -⟩ := hwhole (k + 5) ps (by rw [hstay, hval]; exact hne)
    obtain rfl : k = k' := by omega
    rw [hall j hj] at hdv
    cases hdv
  · intro hcut
    have hwhole : ∀ n ps, (run step s inp (n + 1)).fofbStat.setptFlt ps ≠
        (run step s inp n).fofbStat.setptFlt ps → WholeRecord (run step s inp) inp n ps :=
      fun n ps hne => wholeRecord_of_ne hinp hs hcut hne
    exact ⟨hwhole, fun m n hmn _ hlow => setptFlt_of_low hwhole hmn hlow⟩

/-- No record of the stimulus is cut. -/
theorem stimulus_appliedWhole :
    AppliedWhole (run step (step restState resetInput) (stimulus 86 0)) (stimulus 86 0) := by
  refine (appliedWhole_iff restState resetInput (stimulus 86 0) rfl fun _ => rfl).mpr ?_
  rintro k ps ⟨hstate, hdv⟩ ⟨j, -, hj, hlow⟩
  have hk : k < 86 := by simpa [stimulus] using hdv
  have hkj : 86 ≤ k + j := by simpa [stimulus] using hlow
  have hinside : ∀ i < 86, 81 ≤ i →
      (run step (step restState resetInput) (stimulus 86 0) i).state ≠ .rxAddrhi := by
    decide +kernel
  exact absurd hstate (hinside k hk (by omega))

/-- The stimulus cut after the third byte of its first record: the setpoint of the first supply
takes one byte of the record and three of the idle line. -/
theorem stimulus_cut_applied :
    (run step (step restState resetInput) (stimulus 65 0x07) 68).fofbStat.setptFlt .ps1 =
        0x3F070707 ∧
      ¬AppliedWhole (run step (step restState resetInput) (stimulus 65 0x07))
        (stimulus 65 0x07) := by
  have hnew : (run step (step restState resetInput) (stimulus 65 0x07) 68).fofbStat.setptFlt .ps1 =
      0x3F070707 := by decide +kernel
  have hold : (run step (step restState resetInput) (stimulus 65 0x07) 67).fofbStat.setptFlt .ps1 =
      0 := by decide +kernel
  refine ⟨hnew, ?_⟩
  rintro ⟨hwhole, -⟩
  obtain ⟨k, hk, hall, -⟩ := hwhole 67 .ps1 (by rw [hnew, hold]; decide)
  have hhigh := hall 5 le_rfl
  rw [← hk] at hhigh
  exact absurd hhigh (by decide)

end Psc.UdpRx
