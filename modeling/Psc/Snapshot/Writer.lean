import Psc.Lib.Clocked
import Psc.Lib.RingLog
import Psc.Records

/-!
# The snapshot writer

`adc2ddr.vhd`: at each 10 kHz trigger the readings of all supplies are written to DDR as one burst
of forty words, the second of which counts the bursts.

1. `step` is the state machine with its AXI registers, `Ddr.step` the memory that takes each word
   handed over.
2. The address moves on by one burst until it is *at* `DDR_MAX_ADDR`, so the ring that is written
   has one slot more than fits below that address (`nextBase_slot`).
3. `inv_run`: after `n` triggers the burst under way goes to slot `(n - 1) % 200001`, and the slots
   hold the counters of the last 200001 bursts.
-/

namespace Psc.Snapshot

open Clocked RingLog

/-! ## The state machine -/

/-- The readings of a supply, in the order in which they are written. -/
inductive Field where
  | dcct1 | dcct2 | mon1 | mon2 | mon3 | mon4 | mon5 | mon6
  deriving DecidableEq

/-- The states that hand over a word; `ps p f` stands for `PS1_DCCT1` to `PS4_MON6`. -/
inductive Word where
  | hdr | cnt | ps (p : Ps) (f : Field) | wrd35 | wrd36 | wrd37 | wrd38 | wrd39 | wrdlast
  deriving DecidableEq

/-- `state_type`. -/
inductive Phase where
  | idle | address | word (w : Word) | awaitresp
  deriving DecidableEq

/-- `t_pl_snapshot_axi4_m2s`. -/
structure M2s where
  awaddr : BitVec 32
  awburst : BitVec 2
  awcache : BitVec 4
  awlen : BitVec 8
  awlock : BitVec 1
  awprot : BitVec 3
  awqos : BitVec 4
  awsize : BitVec 3
  awvalid : Bool
  wdata : BitVec 32
  wlast : Bool
  wstrb : BitVec 4
  wvalid : Bool
  bready : Bool

/-- The input ports. -/
structure Input where
  reset : Bool
  trigger : Bool
  awready : Bool
  wready : Bool
  bvalid : Bool
  dcctAdcs : Ps → DcctAdcs
  monAdcs : Ps → MonAdcs

/-- The registers, `ss_buf_stat` among them as `addrPtr` and `tenkhzcnt`. -/
structure State where
  state : Phase
  wordnum : ℕ
  addrBase : BitVec 32
  datacnt : BitVec 32
  prevTrigger : Bool
  axi : M2s
  addrPtr : BitVec 32
  tenkhzcnt : BitVec 32

/-- `DDR_BASE_ADDR`. -/
def ddrBaseAddr : BitVec 32 := 0x10000000

/-- `DDR_MAX_ADDR`. -/
def ddrMaxAddr : BitVec 32 := 0x11E84800

/-- `BURST_LEN`. -/
def burstLen : ℕ := 40

/-- A reading as a word. -/
def Field.reading (d : DcctAdcs) (m : MonAdcs) : Field → BitVec 32
  | dcct1 => d.dcct0.signExtend 32
  | dcct2 => d.dcct1.signExtend 32
  | mon1 => m.dacmon.signExtend 32
  | mon2 => m.voltage.signExtend 32
  | mon3 => m.ignd.signExtend 32
  | mon4 => m.spare.signExtend 32
  | mon5 => m.psReg.signExtend 32
  | mon6 => m.psError.signExtend 32

/-- The word that a state hands over. -/
def Word.data (datacnt : BitVec 32) (i : Input) : Word → BitVec 32
  | hdr => 0x80000000
  | cnt => datacnt
  | ps p f => f.reading (i.dcctAdcs p) (i.monAdcs p)
  | wrd35 => 35
  | wrd36 => 36
  | wrd37 => 37
  | wrd38 => 38
  | wrd39 => 39
  | wrdlast => 40

/-- The state after a word. -/
def Word.next : Word → Phase
  | hdr => .word .cnt
  | cnt => .word (.ps .ps1 .dcct1)
  | ps p .dcct1 => .word (.ps p .dcct2)
  | ps p .dcct2 => .word (.ps p .mon1)
  | ps p .mon1 => .word (.ps p .mon2)
  | ps p .mon2 => .word (.ps p .mon3)
  | ps p .mon3 => .word (.ps p .mon4)
  | ps p .mon4 => .word (.ps p .mon5)
  | ps p .mon5 => .word (.ps p .mon6)
  | ps .ps1 .mon6 => .word (.ps .ps2 .dcct1)
  | ps .ps2 .mon6 => .word (.ps .ps3 .dcct1)
  | ps .ps3 .mon6 => .word (.ps .ps4 .dcct1)
  | ps .ps4 .mon6 => .word .wrd35
  | wrd35 => .word .wrd36
  | wrd36 => .word .wrd37
  | wrd37 => .word .wrd38
  | wrd38 => .word .wrd39
  | wrd39 => .word .wrdlast
  | wrdlast => .awaitresp

/-- The address of the next burst. -/
def nextBase (addrBase : BitVec 32) : BitVec 32 :=
  if addrBase.ult ddrMaxAddr then addrBase + BitVec.ofNat 32 (4 * burstLen) else ddrBaseAddr

/-- A trigger is taken up on its rising edge, in IDLE. -/
def accepts (s : State) (i : Input) : Bool :=
  !i.reset && (s.state = .idle) && i.trigger && !s.prevTrigger

/-- IDLE, with a trigger: the address and the count go out, and the count goes up. -/
def startBurst (s : State) (i : Input) : State :=
  { s with
    prevTrigger := i.trigger
    addrPtr := s.addrBase
    tenkhzcnt := s.datacnt
    datacnt := s.datacnt + 1
    wordnum := 0
    axi := { s.axi with
      awaddr := s.addrBase
      awvalid := true
      awburst := 1
      awcache := 3
      awlen := BitVec.ofNat 8 (burstLen - 1)
      awlock := 0
      awprot := 0
      awqos := 0
      awsize := 2 }
    state := .address }

/-- `write_word`, with `wready`; WRDLAST marks its word as the last. -/
def writeWord (s : State) (i : Input) (w : Word) : State :=
  { s with
    axi := { s.axi with
      wvalid := true
      wdata := w.data s.datacnt i
      wlast := if w = .wrdlast then true else s.axi.wlast }
    state := w.next }

/-- One clock. `reset` leaves the address of the next burst as it is. -/
def step (s : State) (i : Input) : State :=
  if i.reset then
    { s with
      wordnum := 0
      axi := { s.axi with awvalid := false, wvalid := false, bready := false, wdata := 0 }
      state := .idle
      datacnt := 0 }
  else
    match s.state with
    | .idle =>
      if i.trigger && !s.prevTrigger then startBurst s i else { s with prevTrigger := i.trigger }
    | .address =>
      if i.awready then
        { s with
          axi := { s.axi with awvalid := false, wdata := 0, wstrb := 15 }
          state := .word .hdr
          wordnum := 0 }
      else s
    | .word w => if i.wready then writeWord s i w else s
    | .awaitresp =>
      if i.bvalid then
        { s with
          axi := { s.axi with wlast := false, wvalid := false, bready := false }
          addrBase := nextBase s.addrBase
          state := .idle }
      else { s with axi := { s.axi with wlast := false, wvalid := false, bready := true } }

/-! ## The memory -/

/-- The memory, and where the next word of a burst goes. -/
structure Ddr where
  waddr : BitVec 32
  mem : BitVec 32 → BitVec 32

/-- One clock of the memory: it takes a word where `wvalid` meets `wready`, and the address of a
burst where `awvalid` meets `awready`. -/
def Ddr.step (d : Ddr) (m : M2s) (i : Input) : Ddr where
  waddr :=
    if m.awvalid && i.awready then m.awaddr
    else if m.wvalid && i.wready then d.waddr + 4
    else d.waddr
  mem := if m.wvalid && i.wready then Function.update d.mem d.waddr m.wdata else d.mem

/-- The writer and the memory. -/
structure Sys where
  regs : State
  ddr : Ddr

/-- One clock of both. -/
def sysStep (x : Sys) (i : Input) : Sys := ⟨step x.regs i, x.ddr.step x.regs.axi i⟩

/-- The state after configuration and reset. -/
structure Configured (x : Sys) : Prop where
  state : x.regs.state = .idle
  addrBase : x.regs.addrBase = ddrBaseAddr
  datacnt : x.regs.datacnt = 0
  awvalid : x.regs.axi.awvalid = false
  wvalid : x.regs.axi.wvalid = false

/-! ## Addresses -/

/-- The number of slots that are written. -/
def ringSlots : ℕ := 200001

/-- The address of word `k` of slot `t`. -/
def wordAddr (t k : ℕ) : BitVec 32 := BitVec.ofNat 32 (0x10000000 + 160 * t + 4 * k)

theorem toNat_wordAddr {t k : ℕ} (ht : t < ringSlots) (hk : k ≤ 40) :
    (wordAddr t k).toNat = 0x10000000 + 160 * t + 4 * k := by
  unfold wordAddr ringSlots at *
  rw [BitVec.toNat_ofNat, Nat.mod_eq_of_lt]
  omega

theorem wordAddr_succ (t k : ℕ) : wordAddr t k + 4 = wordAddr t (k + 1) := by
  unfold wordAddr
  rw [show (4 : BitVec 32) = BitVec.ofNat 32 4 from rfl, ← BitVec.ofNat_add]
  congr 1

theorem wordAddr_inj {t t' k k' : ℕ} (ht : t < ringSlots) (ht' : t' < ringSlots) (hk : k < 40)
    (hk' : k' < 40) (h : wordAddr t k = wordAddr t' k') : t = t' ∧ k = k' := by
  have hnat := congrArg BitVec.toNat h
  rw [toNat_wordAddr ht (by omega), toNat_wordAddr ht' (by omega)] at hnat
  omega

/-- The address moves on by one slot, and from the one at `DDR_MAX_ADDR` back to the first. -/
theorem nextBase_slot {t : ℕ} (ht : t < ringSlots) :
    nextBase (wordAddr t 0) = wordAddr ((t + 1) % ringSlots) 0 := by
  have hmax : ddrMaxAddr.toNat = 0x10000000 + 160 * 200000 := by decide
  have hult : (wordAddr t 0).ult ddrMaxAddr = true ↔ t < 200000 := by
    rw [BitVec.ult_eq_decide, toNat_wordAddr ht (by omega), hmax, decide_eq_true_iff]
    omega
  unfold nextBase
  by_cases hlt : t < 200000
  · rw [if_pos (hult.mpr hlt), Nat.mod_eq_of_lt (by unfold ringSlots; omega)]
    unfold wordAddr burstLen
    rw [← BitVec.ofNat_add]
    congr 1
  · obtain rfl : t = 200000 := by unfold ringSlots at ht; omega
    rw [if_neg (fun h => hlt (hult.mp h))]
    rfl

/-! ## The ring -/

/-- The position of a reading among those of its supply. -/
def Field.idx : Field → ℕ
  | dcct1 => 0
  | dcct2 => 1
  | mon1 => 2
  | mon2 => 3
  | mon3 => 4
  | mon4 => 5
  | mon5 => 6
  | mon6 => 7

/-- The position of a word in its burst. -/
def Word.idx : Word → ℕ
  | hdr => 0
  | cnt => 1
  | ps p f => 2 + 8 * p.idx + f.idx
  | wrd35 => 34
  | wrd36 => 35
  | wrd37 => 36
  | wrd38 => 37
  | wrd39 => 38
  | wrdlast => 39

theorem Word.next_eq (w : Word) : (∃ w', w.next = .word w' ∧ w'.idx = w.idx + 1) ∨
    (w.next = .awaitresp ∧ w.idx = 39) := by
  cases w with
  | wrdlast => exact Or.inr ⟨rfl, rfl⟩
  | ps p f => cases p <;> cases f <;> exact Or.inl ⟨_, rfl, rfl⟩
  | _ => exact Or.inl ⟨_, rfl, rfl⟩

theorem Word.eq_cnt_of_idx {w : Word} (h : w.idx = 1) : w = .cnt := by
  cases w with
  | cnt => rfl
  | ps p f => simp only [Word.idx] at h; omega
  | _ => simp [Word.idx] at h

theorem Word.idx_le (w : Word) : w.idx ≤ 39 := by
  cases w with
  | ps p f => cases p <;> cases f <;> simp [Word.idx, Ps.idx, Field.idx]
  | _ => simp [Word.idx]

/-- The slots hold the counters of the last of `n` bursts; burst `j` is counted as `j + 1`. -/
def Log (mem : BitVec 32 → BitVec 32) (n : ℕ) : Prop :=
  Latest (fun t => mem (wordAddr t 1)) ringSlots n fun j => BitVec.ofNat 32 (j + 1)

/-- What holds in a state of the machine after `n` triggers; `t` is the slot of the burst under
way. In a state that hands over a word, the words before it are in memory except for the last of
them, which is on the bus. -/
def Burst (x : Sys) (n : ℕ) : Phase → Prop
  | .idle =>
    x.regs.addrBase = wordAddr (n % ringSlots) 0 ∧ x.regs.axi.wvalid = false ∧ Log x.ddr.mem n
  | .address =>
    0 < n ∧ x.regs.addrBase = wordAddr ((n - 1) % ringSlots) 0 ∧
      x.regs.axi.awaddr = wordAddr ((n - 1) % ringSlots) 0 ∧ x.regs.axi.wvalid = false ∧
      Log x.ddr.mem (n - 1)
  | .word w =>
    0 < n ∧ x.regs.addrBase = wordAddr ((n - 1) % ringSlots) 0 ∧
      x.regs.axi.wvalid = decide (0 < w.idx) ∧
      x.ddr.waddr = wordAddr ((n - 1) % ringSlots) (w.idx - 1) ∧
      (w.idx = 2 → x.regs.axi.wdata = x.regs.datacnt) ∧
      Log x.ddr.mem (if w.idx ≤ 2 then n - 1 else n)
  | .awaitresp =>
    0 < n ∧ x.regs.addrBase = wordAddr ((n - 1) % ringSlots) 0 ∧
      (x.regs.axi.wvalid = true → x.ddr.waddr = wordAddr ((n - 1) % ringSlots) 39) ∧
      Log x.ddr.mem n

/-- The invariant after `n` triggers. -/
structure Inv (x : Sys) (n : ℕ) : Prop where
  datacnt : x.regs.datacnt = BitVec.ofNat 32 n
  addrPtr : 0 < n → x.regs.addrPtr = wordAddr ((n - 1) % ringSlots) 0
  awvalid : x.regs.axi.awvalid = decide (x.regs.state = .address)
  burst : Burst x n x.regs.state

theorem slot_lt (n : ℕ) : n % ringSlots < ringSlots := Nat.mod_lt _ (by unfold ringSlots; omega)

theorem Log.write {mem : BitVec 32 → BitVec 32} {n t k : ℕ} (h : Log mem n) (ht : t < ringSlots)
    (hk : k < 40) (hne : k ≠ 1) (v : BitVec 32) :
    Log (Function.update mem (wordAddr t k) v) n := by
  have hsame : ∀ s < ringSlots,
      Function.update mem (wordAddr t k) v (wordAddr s 1) = mem (wordAddr s 1) := by
    intro s hs
    apply Function.update_of_ne
    intro heq
    exact hne (wordAddr_inj hs ht (by omega) hk heq).2.symm
  intro j hj hlast
  exact (hsame _ (slot_lt j)).trans (h j hj hlast)

theorem Log.count {mem : BitVec 32 → BitVec 32} {n : ℕ} (h : Log mem n) :
    Log (Function.update mem (wordAddr (n % ringSlots) 1) (BitVec.ofNat 32 (n + 1))) (n + 1) := by
  apply Latest.push h
  · exact Function.update_self ..
  · intro s hs hne
    apply Function.update_of_ne
    intro heq
    exact hne (wordAddr_inj hs (slot_lt n) (by omega) (by omega) heq).1

section Steps

variable {x : Sys} {i : Input} {n : ℕ}

theorem ddr_step_of_not_wvalid {d : Ddr} {m : M2s} (hw : m.wvalid = false) :
    (d.step m i).mem = d.mem ∧
      (d.step m i).waddr = if m.awvalid && i.awready then m.awaddr else d.waddr := by
  unfold Ddr.step
  simp [hw]

theorem ddr_step_of_transfer {d : Ddr} {m : M2s} (haw : m.awvalid = false) (hw : m.wvalid = true)
    (hr : i.wready = true) : (d.step m i).mem = Function.update d.mem d.waddr m.wdata ∧
      (d.step m i).waddr = d.waddr + 4 := by
  unfold Ddr.step
  simp [haw, hw, hr]

theorem ddr_step_of_not_wready {d : Ddr} {m : M2s} (haw : m.awvalid = false)
    (hr : i.wready = false) : d.step m i = d := by
  unfold Ddr.step
  simp [haw, hr]

/-- Without reset a clock is the case of its state. -/
theorem step_of_not_reset {s : State} (hr : i.reset = false) : step s i =
    match s.state with
    | .idle =>
      if i.trigger && !s.prevTrigger then startBurst s i
      else { s with prevTrigger := i.trigger }
    | .address =>
      if i.awready then
        { s with
          axi := { s.axi with awvalid := false, wdata := 0, wstrb := 15 }
          state := .word .hdr
          wordnum := 0 }
      else s
    | .word w => if i.wready then writeWord s i w else s
    | .awaitresp =>
      if i.bvalid then
        { s with
          axi := { s.axi with wlast := false, wvalid := false, bready := false }
          addrBase := nextBase s.addrBase
          state := .idle }
      else { s with axi := { s.axi with wlast := false, wvalid := false, bready := true } } := by
  unfold step
  exact if_neg (by simp [hr])

theorem inv_idle (h : Inv x n) (hs : x.regs.state = .idle) (hr : i.reset = false) :
    Inv (sysStep x i) (if accepts x.regs i then n + 1 else n) := by
  have hb := h.burst
  rw [hs] at hb
  obtain ⟨hbase, hw, hlog⟩ := hb
  have haw := h.awvalid
  rw [hs] at haw
  obtain ⟨hmem, -⟩ := ddr_step_of_not_wvalid (d := x.ddr) (i := i) hw
  have hacc : accepts x.regs i = (i.trigger && !x.regs.prevTrigger) := by
    unfold accepts; simp [hr, hs]
  unfold sysStep
  rw [hacc, step_of_not_reset hr, hs]
  cases ht : i.trigger && !x.regs.prevTrigger with
  | true =>
    refine ⟨?_, fun _ => hbase, rfl, ⟨by simp, hbase, hbase, hw, ?_⟩⟩
    · show x.regs.datacnt + 1 = _
      rw [h.datacnt, if_pos rfl, BitVec.ofNat_add]
      rfl
    · show Log (x.ddr.step x.regs.axi i).mem n
      rw [hmem]
      exact hlog
  | false =>
    refine ⟨h.datacnt, h.addrPtr, haw, ⟨hbase, hw, ?_⟩⟩
    show Log (x.ddr.step x.regs.axi i).mem n
    rw [hmem]
    exact hlog

theorem inv_address (h : Inv x n) (hs : x.regs.state = .address) (hr : i.reset = false) :
    Inv (sysStep x i) n := by
  have hb := h.burst
  rw [hs] at hb
  obtain ⟨hn, hbase, haddr, hw, hlog⟩ := hb
  have haw := h.awvalid
  rw [hs] at haw
  obtain ⟨hmem, hwaddr⟩ := ddr_step_of_not_wvalid (d := x.ddr) (i := i) hw
  unfold sysStep
  rw [step_of_not_reset hr, hs]
  cases hready : i.awready with
  | true =>
    refine ⟨h.datacnt, h.addrPtr, rfl, ⟨hn, hbase, hw, ?_, by simp [Word.idx], ?_⟩⟩
    · show (x.ddr.step x.regs.axi i).waddr = _
      rw [hwaddr, hready, haw]
      exact haddr
    · show Log (x.ddr.step x.regs.axi i).mem (n - 1)
      rw [hmem]
      exact hlog
  | false =>
    refine ⟨h.datacnt, h.addrPtr, h.awvalid, ?_⟩
    show Burst _ n x.regs.state
    rw [hs]
    refine ⟨hn, hbase, haddr, hw, ?_⟩
    show Log (x.ddr.step x.regs.axi i).mem (n - 1)
    rw [hmem]
    exact hlog

theorem log_transfer {k : ℕ} (hn : 0 < n) (hk : k ≤ 39)
    (hwaddr : x.ddr.waddr = wordAddr ((n - 1) % ringSlots) k)
    (hdata : k = 1 → x.regs.axi.wdata = BitVec.ofNat 32 n)
    (hlog : Log x.ddr.mem (if k ≤ 1 then n - 1 else n)) :
    Log (Function.update x.ddr.mem x.ddr.waddr x.regs.axi.wdata) (if k = 0 then n - 1 else n) := by
  rw [hwaddr]
  rcases Nat.lt_trichotomy k 1 with h0 | rfl | h2
  · rw [if_pos (by omega)] at hlog
    rw [if_pos (by omega)]
    exact hlog.write (slot_lt _) (by omega) (by omega) _
  · rw [if_pos le_rfl] at hlog
    rw [if_neg (by omega), hdata rfl]
    have hpush := hlog.count
    rwa [Nat.sub_add_cancel hn] at hpush
  · rw [if_neg (by omega)] at hlog
    rw [if_neg (by omega)]
    exact hlog.write (slot_lt _) (by omega) (by omega) _

/-- After a clock that hands over `w`, the words before `w` are in memory. -/
theorem ddr_step_of_word {w : Word} (h : Inv x n) (hs : x.regs.state = .word w)
    (hready : i.wready = true) :
    (x.ddr.step x.regs.axi i).waddr = wordAddr ((n - 1) % ringSlots) w.idx ∧
      Log (x.ddr.step x.regs.axi i).mem (if w.idx ≤ 1 then n - 1 else n) := by
  have hb := h.burst
  rw [hs] at hb
  obtain ⟨hn, -, hw, hwaddr, hdata, hlog⟩ := hb
  have haw : x.regs.axi.awvalid = false := by rw [h.awvalid, hs]; rfl
  by_cases h0 : w.idx = 0
  · obtain ⟨hmem, hsame⟩ := ddr_step_of_not_wvalid (d := x.ddr) (i := i)
      (show x.regs.axi.wvalid = false by rw [hw, h0]; rfl)
    rw [hmem, hsame, haw, Bool.false_and, hwaddr, h0]
    rw [h0] at hlog
    exact ⟨rfl, hlog⟩
  · obtain ⟨hmem, hnext⟩ := ddr_step_of_transfer (d := x.ddr) haw
      (show x.regs.axi.wvalid = true by rw [hw]; simpa using Nat.pos_of_ne_zero h0) hready
    rw [hmem, hnext, hwaddr, wordAddr_succ, Nat.sub_add_cancel (Nat.pos_of_ne_zero h0), ← hwaddr]
    refine ⟨rfl, ?_⟩
    have hidx := w.idx_le
    have hbefore : (if w.idx ≤ 2 then n - 1 else n) = if w.idx - 1 ≤ 1 then n - 1 else n := by
      split_ifs <;> omega
    have hafter : (if w.idx ≤ 1 then n - 1 else n) = if w.idx - 1 = 0 then n - 1 else n := by
      split_ifs <;> omega
    rw [hbefore] at hlog
    rw [hafter]
    exact log_transfer hn (by omega) hwaddr (fun h1 => (hdata (by omega)).trans h.datacnt) hlog

/-- A state with `w` on the bus and the words before it in memory is one of the state after `w`. -/
theorem burst_next {w : Word} {y : Sys} (hn : 0 < n)
    (hbase : y.regs.addrBase = wordAddr ((n - 1) % ringSlots) 0)
    (hw : y.regs.axi.wvalid = true) (hdata : w = .cnt → y.regs.axi.wdata = y.regs.datacnt)
    (hwaddr : y.ddr.waddr = wordAddr ((n - 1) % ringSlots) w.idx)
    (hlog : Log y.ddr.mem (if w.idx ≤ 1 then n - 1 else n)) : Burst y n w.next := by
  rcases w.next_eq with ⟨w', hnext, hidx⟩ | ⟨hnext, hidx⟩
  · have hsame : (if w'.idx ≤ 2 then n - 1 else n) = if w.idx ≤ 1 then n - 1 else n := by
      rw [hidx]
      split_ifs <;> omega
    rw [hnext]
    refine ⟨hn, hbase, ?_, ?_, ?_, ?_⟩
    · rw [hw, hidx]
      simp
    · rw [hidx, Nat.add_sub_cancel]
      exact hwaddr
    · intro h2
      exact hdata (Word.eq_cnt_of_idx (by omega))
    · rw [hsame]
      exact hlog
  · rw [hidx] at hwaddr
    rw [if_neg (by omega)] at hlog
    rw [hnext]
    exact ⟨hn, hbase, fun _ => hwaddr, hlog⟩

theorem inv_word {w : Word} (h : Inv x n) (hs : x.regs.state = .word w) (hr : i.reset = false) :
    Inv (sysStep x i) n := by
  have hb := h.burst
  rw [hs] at hb
  have haw : x.regs.axi.awvalid = false := by rw [h.awvalid, hs]; rfl
  unfold sysStep
  rw [step_of_not_reset hr, hs]
  cases hready : i.wready with
  | false =>
    rw [ddr_step_of_not_wready haw hready]
    refine ⟨h.datacnt, h.addrPtr, h.awvalid, ?_⟩
    show Burst _ n x.regs.state
    rw [hs]
    exact hb
  | true =>
    obtain ⟨hn, hbase, -⟩ := hb
    obtain ⟨hwaddr, hlog⟩ := ddr_step_of_word h hs hready
    refine ⟨h.datacnt, h.addrPtr, ?_, ?_⟩
    · show x.regs.axi.awvalid = decide (w.next = .address)
      rcases w.next_eq with ⟨w', hnext, -⟩ | ⟨hnext, -⟩
      · rw [haw, hnext]; rfl
      · rw [haw, hnext]; rfl
    · show Burst ⟨writeWord x.regs i w, x.ddr.step x.regs.axi i⟩ n w.next
      apply burst_next (y := ⟨writeWord x.regs i w, _⟩) hn hbase rfl _ hwaddr hlog
      rintro rfl
      rfl

theorem inv_awaitresp (h : Inv x n) (hs : x.regs.state = .awaitresp) (hr : i.reset = false) :
    Inv (sysStep x i) n := by
  have hb := h.burst
  rw [hs] at hb
  obtain ⟨hn, hbase, hwaddr, hlog⟩ := hb
  have haw : x.regs.axi.awvalid = false := by rw [h.awvalid, hs]; rfl
  have hlog' : Log (x.ddr.step x.regs.axi i).mem n := by
    cases hready : i.wready with
    | false => rw [ddr_step_of_not_wready haw hready]; exact hlog
    | true =>
      cases hw : x.regs.axi.wvalid with
      | false => rw [(ddr_step_of_not_wvalid hw).1]; exact hlog
      | true =>
        rw [(ddr_step_of_transfer haw hw hready).1, hwaddr hw]
        exact hlog.write (slot_lt _) (by omega) (by omega) _
  unfold sysStep
  rw [step_of_not_reset hr, hs]
  cases hresp : i.bvalid with
  | true =>
    refine ⟨h.datacnt, h.addrPtr, haw, ⟨?_, rfl, hlog'⟩⟩
    show nextBase x.regs.addrBase = _
    rw [hbase, nextBase_slot (slot_lt _), Nat.mod_add_mod, Nat.sub_add_cancel hn]
  | false =>
    refine ⟨h.datacnt, h.addrPtr, haw, ⟨hn, hbase, ?_, hlog'⟩⟩
    intro hw
    exact absurd hw (by simp)

theorem inv_step (h : Inv x n) (hr : i.reset = false) :
    Inv (sysStep x i) (if accepts x.regs i then n + 1 else n) := by
  cases hs : x.regs.state with
  | idle => exact inv_idle h hs hr
  | address =>
    rw [if_neg (by simp [accepts, hs])]
    exact inv_address h hs hr
  | word w =>
    rw [if_neg (by simp [accepts, hs])]
    exact inv_word h hs hr
  | awaitresp =>
    rw [if_neg (by simp [accepts, hs])]
    exact inv_awaitresp h hs hr

end Steps

/-! ## Runs -/

section Runs

variable {x₀ : Sys} {inp : ℕ → Input}

/-- The clocks at which a trigger is taken up. -/
def taken (x₀ : Sys) (inp : ℕ → Input) (n : ℕ) : Bool :=
  accepts (run sysStep x₀ inp n).regs (inp n)

/-- The number of triggers taken up before clock `n`. -/
def triggers (x₀ : Sys) (inp : ℕ → Input) (n : ℕ) : ℕ := tickCount (taken x₀ inp) n

theorem inv_configured (h : Configured x₀) : Inv x₀ 0 where
  datacnt := h.datacnt
  addrPtr hpos := absurd hpos (by simp)
  awvalid := by rw [h.awvalid, h.state]; rfl
  burst := by
    rw [h.state]
    exact ⟨h.addrBase, h.wvalid, latest_zero⟩

/-- **The writer's ring.** In a run from configuration without reset the invariant holds, with the
triggers taken up so far. -/
theorem inv_run (h : Configured x₀) (hr : ∀ n, (inp n).reset = false) (n : ℕ) :
    Inv (run sysStep x₀ inp n) (triggers x₀ inp n) := by
  induction n with
  | zero => exact inv_configured h
  | succ n ih =>
    have hstep := inv_step ih (hr n)
    rw [run_succ]
    unfold triggers at hstep ⊢
    cases ht : taken x₀ inp n with
    | true =>
      rw [tickCount_succ_of_tick ht]
      unfold taken at ht
      rwa [if_pos ht] at hstep
    | false =>
      rw [tickCount_succ_of_not_tick ht]
      unfold taken at ht
      rwa [if_neg (by simp [ht])] at hstep

/-- The number of bursts whose counter is in memory, after `n` triggers. -/
def inMemory (n : ℕ) : Phase → ℕ
  | .address => n - 1
  | .word w => if w.idx ≤ 2 then n - 1 else n
  | _ => n

/-- The number of bursts whose counter is in memory at clock `u`. -/
def stored (x₀ : Sys) (inp : ℕ → Input) (u : ℕ) : ℕ :=
  inMemory (triggers x₀ inp u) (run sysStep x₀ inp u).regs.state

theorem Inv.log {x : Sys} {n : ℕ} (h : Inv x n) : Log x.ddr.mem (inMemory n x.regs.state) := by
  have hb := h.burst
  cases hs : x.regs.state with
  | idle => rw [hs] at hb; exact hb.2.2
  | address => rw [hs] at hb; exact hb.2.2.2.2
  | word w => rw [hs] at hb; exact hb.2.2.2.2.2
  | awaitresp => rw [hs] at hb; exact hb.2.2.2

/-- What a trigger that is taken up sends out. -/
theorem axi_of_taken {a : ℕ} (h : Configured x₀) (hr : ∀ n, (inp n).reset = false)
    (ha : taken x₀ inp a = true) :
    (run sysStep x₀ inp (a + 1)).regs.axi.awaddr =
        wordAddr (triggers x₀ inp a % ringSlots) 0 ∧
      (run sysStep x₀ inp (a + 1)).regs.axi.awlen = 39 := by
  have hinv := inv_run h hr a
  have hidle : (run sysStep x₀ inp a).regs.state = .idle := by
    unfold taken accepts at ha
    simp only [Bool.and_eq_true, decide_eq_true_eq] at ha
    exact ha.1.1.2
  have htrig : ((inp a).trigger && !(run sysStep x₀ inp a).regs.prevTrigger) = true := by
    unfold taken accepts at ha
    simp only [Bool.and_eq_true] at ha ⊢
    exact ⟨ha.1.2, ha.2⟩
  have hb := hinv.burst
  rw [hidle] at hb
  have hstep : (run sysStep x₀ inp (a + 1)).regs =
      startBurst (run sysStep x₀ inp a).regs (inp a) := by
    rw [run_succ]
    show step _ _ = _
    rw [step_of_not_reset (hr a), hidle]
    exact if_pos htrig
  rw [hstep]
  exact ⟨hb.1, rfl⟩

end Runs

end Psc.Snapshot
