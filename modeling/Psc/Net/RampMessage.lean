import Psc.Dac.RampTable
import Psc.Net.ClientMsg
import Psc.Snapshot.Nco

/-!
# From a ramp message to the DAC

Message 101 carries a ramp table for the first supply. The software turns it into register writes;
the fabric stores each data word at the address register, and plays the table when it is asked to.

The memory is written one clock after the bus, when the registers already show the address and the
word. `Fabric.table` is the memory with that last write done; a bus write acts on it alone
(`table_clock`), so that a run of the fabric is seen as the list of writes to the ramp registers
(`table_run`), however they lie on the clock and whatever else the bus carries.

`ramp_message`: the table is played as sent, and a message that is too long changes nothing.
-/

namespace Psc.Net

open Clocked Control RampTable

/-! ## The fabric -/

/-- The inputs at a clock: the write that the bus carries, if any, and the triggers. -/
structure FabricInput where
  access : Option BusWrite
  reset : Bool
  tenkhzTrig : Bool
  injTrig : Bool

/-- The bus writes to an address. -/
def FabricInput.writes (i : FabricInput) (a : BitVec 32) : Bool :=
  i.access.any fun w => w.addr = a

/-- The register file, the access strobes of two of its registers, and the ramp of the first
supply. -/
structure Fabric where
  regs : BitVec 32 → BitVec 32
  rampdataSwacc : Bool
  runrampSwacc : Bool
  ramp : Core

namespace Fabric

variable (f : Fabric) (i : FabricInput)

/-- `ps_io.vhd`: the control of the first supply's DAC. A ramp is also started by the injection
trigger. -/
def dacCntrl : DacCntrl where
  offset := (f.regs (rdlAddr .ps1 0x20)).setWidth 20
  gain := (f.regs (rdlAddr .ps1 0x24)).setWidth 24
  setpoint := (f.regs (rdlAddr .ps1 0x28)).setWidth 20
  mode := (f.regs (rdlAddr .ps1 0x2C)).setWidth 2
  cntrl := (f.regs (rdlAddr .ps1 0x30)).setWidth 8
  reset := (f.regs (rdlAddr .ps1 0x34)).getLsbD 0
  ramplen := (f.regs (rdlAddr .ps1 0x38)).setWidth 16
  dpramAddr := (f.regs (rdlAddr .ps1 0x3C)).setWidth 16
  dpramData := (f.regs (rdlAddr .ps1 0x40)).setWidth 20
  dpramWe := f.rampdataSwacc
  ramprun := f.runrampSwacc || i.injTrig
  smoothPhaseinc := f.regs (rdlAddr .ps1 0x104)

/-- The ports of `ramptable_ramp`. -/
def ports : RampTable.Input where
  reset := i.reset
  tenkhzTrig := i.tenkhzTrig
  mode := (f.dacCntrl i).mode
  dacCntrl := f.dacCntrl i

/-- One clock. The strobes come with the new value of the register. -/
def clock : Fabric where
  regs :=
    match i.access with
    | some w => Function.update f.regs w.addr (stored w.addr w.data)
    | none => f.regs
  rampdataSwacc := i.writes (rdlAddr .ps1 0x40)
  runrampSwacc := i.writes (rdlAddr .ps1 0x44)
  ramp := RampTable.clock f.ramp (f.ports i)

end Fabric

/-! ## The table as the bus sees it -/

/-- What the ramp registers stand for. -/
@[ext] structure Table where
  addr : BitVec 16
  len : BitVec 16
  mem : BitVec 16 → BitVec 20

/-- A write to the ramp registers. -/
def IsRamp (w : BusWrite) : Bool :=
  w.addr = rdlAddr .ps1 0x38 || w.addr = rdlAddr .ps1 0x3C || w.addr = rdlAddr .ps1 0x40

/-- What a write to the ramp registers does. -/
def Table.write (T : Table) (w : BusWrite) : Table :=
  if w.addr = rdlAddr .ps1 0x38 then { T with len := w.data.setWidth 16 }
  else if w.addr = rdlAddr .ps1 0x3C then { T with addr := w.data.setWidth 16 }
  else if w.addr = rdlAddr .ps1 0x40 then
    { T with mem := Function.update T.mem T.addr (w.data.setWidth 20) }
  else T

/-- The ramp registers, and the memory with the write under way done. -/
def Fabric.table (f : Fabric) : Table where
  addr := (f.regs (rdlAddr .ps1 0x3C)).setWidth 16
  len := (f.regs (rdlAddr .ps1 0x38)).setWidth 16
  mem :=
    if f.rampdataSwacc then
      Function.update f.ramp.ram.mem ((f.regs (rdlAddr .ps1 0x3C)).setWidth 16)
        ((f.regs (rdlAddr .ps1 0x40)).setWidth 20)
    else f.ramp.ram.mem

theorem setWidth_stored {a : BitVec 32} {w : ℕ} (ha : fieldWidth a = w) (hw : w ≤ 32)
    (v : BitVec 32) : (stored a v).setWidth w = v.setWidth w := by
  apply BitVec.eq_of_toNat_eq
  rw [BitVec.toNat_setWidth, BitVec.toNat_setWidth, toNat_stored ha hw, Nat.mod_mod]

theorem mem_clock (f : Fabric) (i : FabricInput) : (f.clock i).ramp.ram.mem = f.table.mem := rfl

section Clock

variable (f : Fabric) {i : FabricInput} {w : BusWrite}

theorem field_clock (hw : i.access = some w) {a : BitVec 32} {k : ℕ} (ha : fieldWidth a = k)
    (hk : k ≤ 32) : ((f.clock i).regs a).setWidth k =
      if w.addr = a then w.data.setWidth k else (f.regs a).setWidth k := by
  simp only [Fabric.clock, hw]
  by_cases h : w.addr = a
  · rw [if_pos h, ← h, Function.update_self, setWidth_stored (by rw [h, ha]) hk]
  · rw [if_neg h, Function.update_of_ne (Ne.symm h)]

theorem table_mem_clock (hw : i.access = some w) : (f.clock i).table.mem =
      if w.addr = rdlAddr .ps1 0x40 then
        Function.update f.table.mem f.table.addr (w.data.setWidth 20)
      else f.table.mem := by
  have hstrobe : (f.clock i).rampdataSwacc = decide (w.addr = rdlAddr .ps1 0x40) := by
    simp only [Fabric.clock, FabricInput.writes, hw, Option.any_some]
  by_cases h : w.addr = rdlAddr .ps1 0x40
  · have haddr : ((f.clock i).regs (rdlAddr .ps1 0x3C)).setWidth 16 = f.table.addr := by
      rw [field_clock f hw (by decide) (by norm_num), if_neg (by rw [h]; decide)]
      rfl
    have hdata : ((f.clock i).regs (rdlAddr .ps1 0x40)).setWidth 20 = w.data.setWidth 20 := by
      rw [field_clock f hw (by decide) (by norm_num), if_pos h]
    show (if (f.clock i).rampdataSwacc then _ else _) = _
    rw [hstrobe, if_pos (decide_eq_true h), if_pos h, mem_clock, haddr, hdata]
  · show (if (f.clock i).rampdataSwacc then _ else _) = _
    rw [hstrobe, if_neg (by simpa using h), if_neg h, mem_clock]

/-- **The table and the bus.** A clock does to the table what the bus carries. -/
theorem table_clock (i : FabricInput) :
    (f.clock i).table = i.access.elim f.table f.table.write := by
  cases hw : i.access with
  | none =>
    have hregs : (f.clock i).regs = f.regs := by simp only [Fabric.clock, hw]
    have hstrobe : (f.clock i).rampdataSwacc = false := by
      simp [Fabric.clock, FabricInput.writes, hw]
    rw [Fabric.table, hstrobe, hregs, mem_clock]
    rfl
  | some w =>
    have hlen : (f.clock i).table.len = _ :=
      field_clock f hw (a := rdlAddr .ps1 0x38) (by decide) (by norm_num)
    have haddr : (f.clock i).table.addr = _ :=
      field_clock f hw (a := rdlAddr .ps1 0x3C) (by decide) (by norm_num)
    have hmem := table_mem_clock f hw
    show _ = f.table.write w
    unfold Table.write
    split_ifs with h38 h3C h40
    · rw [if_pos h38] at hlen
      rw [if_neg (by rw [h38]; decide)] at haddr hmem
      exact Table.ext haddr hlen hmem
    · rw [if_pos h3C] at haddr
      rw [if_neg h38] at hlen
      rw [if_neg (by rw [h3C]; decide)] at hmem
      exact Table.ext haddr hlen hmem
    · rw [if_pos h40] at hmem
      rw [if_neg h38] at hlen
      rw [if_neg h3C] at haddr
      exact Table.ext haddr hlen hmem
    · rw [if_neg h38] at hlen
      rw [if_neg h3C] at haddr
      rw [if_neg h40] at hmem
      exact Table.ext haddr hlen hmem

end Clock

/-! ## Runs -/

/-- The writes to the ramp registers before clock `n`. -/
def rampWrites (inp : ℕ → FabricInput) (n : ℕ) : List BusWrite :=
  ((List.range n).filterMap fun v => (inp v).access).filter IsRamp

theorem rampWrites_succ (inp : ℕ → FabricInput) (n : ℕ) :
    rampWrites inp (n + 1) = rampWrites inp n ++ ((inp n).access.filter IsRamp).toList := by
  rw [rampWrites, List.range_succ, List.filterMap_append, List.filter_append, ← rampWrites]
  congr 1
  cases h : (inp n).access with
  | none => simp [h]
  | some w => cases hw : IsRamp w <;> simp [h, hw, Option.filter]

theorem write_of_not_isRamp (T : Table) {w : BusWrite} (hw : IsRamp w = false) : T.write w = T := by
  simp only [IsRamp, Bool.or_eq_false_iff, decide_eq_false_iff_not] at hw
  rw [Table.write, if_neg hw.1.1, if_neg hw.1.2, if_neg hw.2]

/-- A run of the fabric has the table that its ramp writes give. -/
theorem table_run (f : Fabric) (inp : ℕ → FabricInput) (n : ℕ) :
    (run Fabric.clock f inp n).table = (rampWrites inp n).foldl Table.write f.table := by
  induction n with
  | zero => rfl
  | succ n ih =>
    rw [run_succ, table_clock, rampWrites_succ, List.foldl_append, ih]
    cases (inp n).access with
    | none => rfl
    | some w =>
      cases hw : IsRamp w with
      | true => simp [Option.filter, hw]
      | false => simp [Option.filter, hw, write_of_not_isRamp _ hw]

theorem ramp_run (f : Fabric) (inp : ℕ → FabricInput) (n : ℕ) :
    (run Fabric.clock f inp n).ramp = run RampTable.clock f.ramp
      (fun v => (run Fabric.clock f inp v).ports (inp v)) n := by
  induction n with
  | zero => rfl
  | succ n ih =>
    rw [run_succ, run_succ, ← ih]
    rfl

/-! ## An uploaded table -/

theorem write_len (T : Table) (v : BitVec 32) :
    T.write ⟨ChanReg.dacRamplen.addr 1, v⟩ = { T with len := v.setWidth 16 } := rfl

theorem write_point (T : Table) (i v : BitVec 32) :
    (T.write ⟨ChanReg.dacRampaddr.addr 1, i⟩).write ⟨ChanReg.dacRampdata.addr 1, v⟩ =
      ⟨i.setWidth 16, T.len, Function.update T.mem (i.setWidth 16) (v.setWidth 20)⟩ := rfl

/-- The points of a table are where they belong. -/
theorem foldl_pointWrites (T : Table) (pts : ℕ → BitVec 32) {n : ℕ} (hn : n ≤ 2 ^ 16) :
    ((pointWrites 1 pts n).foldl Table.write T).len = T.len ∧
      ∀ k < n, ((pointWrites 1 pts n).foldl Table.write T).mem (BitVec.ofNat 16 k) =
        (pts k).setWidth 20 := by
  induction n with
  | zero => exact ⟨rfl, fun k hk => absurd hk (Nat.not_lt_zero k)⟩
  | succ n ih =>
    obtain ⟨hlen, hmem⟩ := ih (by omega)
    rw [pointWrites, List.range_succ, List.flatMap_append, ← pointWrites, List.foldl_append]
    generalize (pointWrites 1 pts n).foldl Table.write T = T' at hlen hmem
    simp only [List.flatMap_cons, List.flatMap_nil, List.append_nil, List.foldl_cons,
      List.foldl_nil, write_point]
    have haddr : (BitVec.ofNat 32 n).setWidth 16 = BitVec.ofNat 16 n := by
      apply BitVec.eq_of_toNat_eq
      simp only [BitVec.toNat_setWidth, BitVec.toNat_ofNat]
      omega
    refine ⟨hlen, fun k hk => ?_⟩
    show Function.update T'.mem _ _ _ = _
    rw [haddr]
    rcases Nat.lt_succ_iff_lt_or_eq.mp hk with hlt | rfl
    · rw [Function.update_of_ne, hmem k hlt]
      intro heq
      have := congrArg BitVec.toNat heq
      simp only [BitVec.toNat_ofNat] at this
      omega
    · rw [Function.update_self]

theorem filter_tableWrites (pts : ℕ → BitVec 32) (n : ℕ) :
    (tableWrites 1 pts n).filter IsRamp = tableWrites 1 pts n := by
  rw [List.filter_eq_self]
  intro w hw
  simp only [tableWrites, pointWrites, List.mem_cons, List.mem_flatMap, List.mem_range] at hw
  rcases hw with rfl | ⟨i, -, rfl | rfl | hnil⟩
  · rfl
  · rfl
  · rfl
  · simp at hnil

theorem foldl_tableWrites (T : Table) (pts : ℕ → BitVec 32) {n : ℕ} (hn : n < 2 ^ 16) :
    ((tableWrites 1 pts n).foldl Table.write T).len = BitVec.ofNat 16 n ∧
      ∀ k < n, ((tableWrites 1 pts n).foldl Table.write T).mem (BitVec.ofNat 16 k) =
        (pts k).setWidth 20 := by
  obtain ⟨hlen, hmem⟩ := foldl_pointWrites (T.write ⟨ChanReg.dacRamplen.addr 1, BitVec.ofNat 32 n⟩)
    pts hn.le
  refine ⟨?_, hmem⟩
  rw [tableWrites, List.foldl_cons, hlen, write_len]
  apply BitVec.eq_of_toNat_eq
  simp only [BitVec.toNat_setWidth, BitVec.toNat_ofNat]
  omega

/-! ## A request -/

section Request

variable (f : Fabric) (inp : ℕ → FabricInput)

/-- A run is requested at a clock. -/
def requests (v : ℕ) : Bool := ((run Fabric.clock f inp v).dacCntrl (inp v)).ramprun

/-- The number of 10 kHz ticks after clock `t` and before clock `u`. -/
def ticksSince (t u : ℕ) : ℕ :=
  tickCount (fun k => (inp (t + 1 + k)).tenkhzTrig) (u - (t + 1))

/-- The bus carries the writes `ws` to the fabric, and at clock `t`, after them, a ramp is requested
in RAMP mode. No ramp is under way at first, and no other ramp command comes, before or after. The
10 kHz ticks are those of the generator, at any alignment. -/
structure Requested (ws : List BusWrite) (t : ℕ) : Prop where
  idle : f.ramp.regs.state = .idle
  reset : ∀ v, (inp v).reset = false
  carried : rampWrites inp t = ws.filter IsRamp
  mode : ((run Fabric.clock f inp t).dacCntrl (inp t)).mode = 1
  request : requests f inp t = true
  once : ∀ v, v ≠ t → requests f inp v = false
  after : ∀ v w, t ≤ v → (inp v).access = some w → IsRamp w = false
  ticks : ∃ nco t₀, ∀ v, (inp v).tenkhzTrig = Nco.pulseOut nco (t₀ + v)

variable {f inp} {ws : List BusWrite} {t : ℕ}

namespace Requested

variable (h : Requested f inp ws t)

include h

theorem idle_run {v : ℕ} (hv : v ≤ t) : (run Fabric.clock f inp v).ramp.regs.state = .idle := by
  induction v with
  | zero => exact h.idle
  | succ v ih =>
    have hstate := ih (by omega)
    have hreq : ((run Fabric.clock f inp v).dacCntrl (inp v)).ramprun = false := h.once v (by omega)
    rw [run_succ]
    simp only [Fabric.clock, RampTable.clock, RampTable.step, Fabric.ports, h.reset, hstate, hreq]
    simp

theorem rampWrites_eq {v : ℕ} (hv : t ≤ v) : rampWrites inp v = ws.filter IsRamp := by
  induction v, hv using Nat.le_induction with
  | base => exact h.carried
  | succ v hv ih =>
    rw [rampWrites_succ, ih]
    cases hw : (inp v).access with
    | none => simp
    | some w => simp [Option.filter, h.after v w hv hw]

theorem table_eq {v : ℕ} (hv : t ≤ v) :
    (run Fabric.clock f inp v).table = (ws.filter IsRamp).foldl Table.write f.table := by
  rw [table_run, h.rampWrites_eq hv]

theorem strobe_eq {v : ℕ} (hv : t < v) : (run Fabric.clock f inp v).rampdataSwacc = false := by
  obtain ⟨v, rfl⟩ : ∃ u, v = u + 1 := ⟨v - 1, by omega⟩
  rw [run_succ]
  simp only [Fabric.clock, FabricInput.writes]
  cases hw : (inp v).access with
  | none => rfl
  | some w =>
    have hramp := h.after v w (by omega) hw
    simp only [IsRamp, Bool.or_eq_false_iff] at hramp
    exact hramp.2

theorem pulses (v : ℕ) (hv : (inp v).tenkhzTrig = true) : (inp (v + 1)).tenkhzTrig = false := by
  obtain ⟨nco, t₀, hticks⟩ := h.ticks
  rw [hticks] at hv ⊢
  exact Nco.pulseOut_succ nco hv

theorem plays {n : ℕ} (hn : n < 2 ^ 16 - 1)
    (hlen : ((ws.filter IsRamp).foldl Table.write f.table).len = BitVec.ofNat 16 n) :
    Plays f.ramp (fun v => (run Fabric.clock f inp v).ports (inp v)) t n where
  length := hn
  idle := by rw [← ramp_run]; exact h.idle_run le_rfl
  reset := h.reset t
  ramprun := h.request
  mode := h.mode
  quiet v hv :=
    { reset := h.reset v
      dpramWe := h.strobe_eq hv
      ramprun := h.once v (by omega)
      ramplen := by rw [← hlen, ← h.table_eq hv.le]; rfl }
  spaced := h.pulses

theorem mem_eq : (run Fabric.clock f inp (t + 1)).ramp.ram.mem =
    ((ws.filter IsRamp).foldl Table.write f.table).mem := by
  rw [← h.table_eq (Nat.le_succ t), Fabric.table, h.strobe_eq (Nat.lt_succ_self t)]
  rfl

end Requested

end Request

/-! ## The message -/

/-- The writes of the blink. -/
def blinkWrites : List BusWrite := [⟨GlobReg.iocAccess.addr, 1⟩, ⟨GlobReg.iocAccess.addr, 0⟩]

/-- The output after `k` points, as a number. -/
def played (old : BitVec 20) (pts : ℕ → BitVec 32) : ℕ → ℤ
  | 0 => old.toInt
  | k + 1 => (pts k).toInt

theorem toInt_setWidth_of_inRange {res v : BitVec 32} (h : InDacRange res v.toInt) :
    (v.setWidth 20).toInt = v.toInt := by
  have hv := h.twenty
  rw [BitVec.toInt_setWidth, ← Int.bmod_bmod_of_dvd (m := 2 ^ 32) (by norm_num),
    ← BitVec.toInt_eq_toNat_bmod, Int.bmod_eq_of_le_mul_two]
  · norm_num at *; omega
  · norm_num at *; omega

theorem scales_blink {fmt : FloatFormat} {msg : Bytes} {d : Device} {pts : ℕ → BitVec 32} {n : ℕ}
    (h : Scales fmt msg d 1 pts n) : Scales fmt msg (blink d) 1 pts n := by
  have hres : (blink d).regs GlobReg.resolution.addr = d.regs GlobReg.resolution.addr := by
    rw [blink, Device.outGlob, Device.xilOut32_regs_of_ne _ (by decide), Device.outGlob,
      Device.xilOut32_regs_of_ne _ (by decide)]
  intro i hi
  rw [hres]
  exact h i hi

section Message

variable {fmt : FloatFormat} (stack : Bytes) {s : Session} {m : Msg}

theorem clientMsg_ramp (d : Device) (msglen : ℕ) (msg : Bytes) :
    clientMsg fmt stack d 101 msglen msg = writeRamptable fmt (blink d) 1 msg msglen := by
  rw [clientMsg, if_neg (by decide), if_neg (by decide), if_pos rfl]

theorem serve_table (hm : m.msgid = 101) {pts : ℕ → BitVec 32}
    (hn : min m.payload.length rxbufSize / 4 ≤ 50000)
    (hpts : Scales fmt (fill s.rxbuf (m.payload.take rxbufSize)) s.device 1 pts
      (min m.payload.length rxbufSize / 4)) :
    ∃ s', serve fmt stack s (m.received rxbufSize) = .ok s' ∧
      s'.device.bus = s.device.bus ++
        (blinkWrites ++ tableWrites 1 pts (min m.payload.length rxbufSize / 4)) := by
  obtain ⟨d', hd, hbus⟩ := writeRamptable_ok fmt _ (blink s.device) pts _ hn (scales_blink hpts)
  refine ⟨⟨fill s.rxbuf (m.payload.take rxbufSize), d'⟩, ?_, ?_⟩
  · simp only [serve, Msg.received, hm, clientMsg_ramp, hd]
    rfl
  · rw [hbus, ← List.append_assoc]
    congr 1
    simp [blink, Device.outGlob, Device.xilOut32, blinkWrites]

theorem serve_long (hm : m.msgid = 101) (hlen : 200003 < m.payload.length) :
    serve fmt stack s (m.received rxbufSize) =
      .ok ⟨fill s.rxbuf (m.payload.take rxbufSize), blink s.device⟩ := by
  have hlong : 50000 < min m.payload.length rxbufSize / 4 := by
    rw [rxbufSize]
    omega
  simp only [serve, Msg.received, hm, clientMsg_ramp, writeRamptable_long _ _ _ _ hlong]
  rfl

end Message

/-- **Ramp tables.** A message 101 with at most 50000 points in the range of the DAC is accepted,
and wherever the fabric gets its writes and then a request, the points come out in order, one at
each tick from the first on, until the last, which stays; the tick after it ends the ramp. A message
with a declared length above 200003 changes neither the table nor its length. -/
theorem ramp_message (fmt : FloatFormat) (stack : Bytes) (s : Session) (m : Msg)
    (hm : m.msgid = 101) :
    (∀ (n : ℕ) (pts : ℕ → BitVec 32), n = min m.payload.length rxbufSize / 4 → n ≤ 50000 →
      Scales fmt (fill s.rxbuf (m.payload.take rxbufSize)) s.device 1 pts n →
      ∃ s', serve fmt stack s (m.received rxbufSize) = .ok s' ∧
        s'.device.bus = s.device.bus ++ (blinkWrites ++ tableWrites 1 pts n) ∧
        ∀ f inp t, Requested f inp (blinkWrites ++ tableWrites 1 pts n) t → ∀ u, t ≤ u →
          (run Fabric.clock f inp (u + 1)).ramp.regs.rampDacSetpt.toInt =
              played (run Fabric.clock f inp t).ramp.regs.rampDacSetpt pts
                (min (ticksSince inp t u) n) ∧
            ((run Fabric.clock f inp (u + 1)).ramp.regs.state = .idle ↔ n < ticksSince inp t u)) ∧
    (200003 < m.payload.length →
      ∃ s', serve fmt stack s (m.received rxbufSize) = .ok s' ∧
        s'.device.bus = s.device.bus ++ blinkWrites ∧
        ∀ f inp n, rampWrites inp n = blinkWrites.filter IsRamp →
          (run Fabric.clock f inp n).table = f.table) := by
  refine ⟨?_, ?_⟩
  · rintro n pts rfl hn hpts
    obtain ⟨s', hs', hbus⟩ := serve_table stack hm hn hpts
    refine ⟨s', hs', hbus, fun f inp t h u htu => ?_⟩
    have hwrites : (blinkWrites ++ tableWrites 1 pts (min m.payload.length rxbufSize / 4)).filter
        IsRamp = tableWrites 1 pts (min m.payload.length rxbufSize / 4) := by
      rw [List.filter_append, filter_tableWrites]
      rfl
    obtain ⟨hlen, hmem⟩ := foldl_tableWrites f.table pts (hn.trans_lt (by norm_num))
    rw [← hwrites] at hlen hmem
    obtain ⟨hsetpt, hidle⟩ := (h.plays (by omega) hlen).playback u htu
    rw [← ramp_run] at hidle
    rw [← ramp_run, ← ramp_run, ← ramp_run, h.mem_eq] at hsetpt
    refine ⟨?_, hidle⟩
    rw [hsetpt]
    show (shown _ _ (min (ticksSince inp t u) _)).toInt = _
    cases hk : min (ticksSince inp t u) (min m.payload.length rxbufSize / 4) with
    | zero => rfl
    | succ k =>
      have hkn : k < min m.payload.length rxbufSize / 4 := by omega
      rw [shown, hmem k hkn, toInt_setWidth_of_inRange (hpts k hkn).2]
      rfl
  · intro hlen
    refine ⟨_, serve_long stack hm hlen,
      by simp [blink, Device.outGlob, Device.xilOut32, blinkWrites], ?_⟩
    intro f inp n hn
    rw [table_run, hn]
    rfl

/-! Two points, 1 A and -2 A, sent at clocks 0 to 4 and requested at clock 6. The step of the
generator is such that it pulses at each odd clock from 3 on. -/

def twoPoints : Msg := ⟨101, [0x3F, 0x80, 0, 0, 0xC0, 0, 0, 0]⟩

def twoValues : ℕ → BitVec 32
  | 0 => 52428
  | _ => -104857

def oneFabric : Fabric where
  regs := Function.update (fun _ => 0) (rdlAddr .ps1 0x2C) 1
  rampdataSwacc := false
  runrampSwacc := false
  ramp := ⟨⟨.idle, 0, false, false, 0⟩, ⟨fun _ => 0, 0⟩⟩

def twoAccess : ℕ → Option BusWrite
  | 0 => some ⟨rdlAddr .ps1 0x38, 2⟩
  | 1 => some ⟨rdlAddr .ps1 0x3C, 0⟩
  | 2 => some ⟨rdlAddr .ps1 0x40, 52428⟩
  | 3 => some ⟨rdlAddr .ps1 0x3C, 1⟩
  | 4 => some ⟨rdlAddr .ps1 0x40, -104857⟩
  | 5 => some ⟨rdlAddr .ps1 0x44, 1⟩
  | _ => none

def twoRun (v : ℕ) : FabricInput :=
  ⟨twoAccess v, false, Nco.pulseOut (fun _ => ⟨false, 0x80000000, false⟩) (0 + v), false⟩

theorem scales_twoPoints :
    Scales readFloats (fill (fun _ => 0) (twoPoints.payload.take rxbufSize)) blankDevice 1
      twoValues 2 := by
  intro i hi
  have hres : blankDevice.regs GlobReg.resolution.addr = 0 := rfl
  rw [InDacRange, if_pos hres]
  obtain rfl | rfl : i = 0 ∨ i = 1 := by omega
  · decide +kernel
  · decide +kernel

theorem requested_twoRun :
    Requested oneFabric twoRun (blinkWrites ++ tableWrites 1 twoValues 2) 6 where
  idle := rfl
  reset _ := rfl
  carried := by decide
  mode := by decide
  request := by decide
  once := by
    intro v hv
    rcases v with _ | _ | _ | _ | _ | _ | _ | v
    · rfl
    · rfl
    · rfl
    · rfl
    · rfl
    · rfl
    · exact absurd rfl hv
    · rfl
  after := by
    intro v w hv hw
    obtain ⟨v, rfl⟩ : ∃ u, v = u + 6 := ⟨v - 6, by omega⟩
    cases hw
  ticks := ⟨_, 0, fun _ => rfl⟩

/-- The first tick outputs the first point and the second the second, and the third ends the
ramp. -/
theorem twoPoints_played :
    (run Fabric.clock oneFabric twoRun 9).ramp.regs.rampDacSetpt.toInt = 52428 ∧
      (run Fabric.clock oneFabric twoRun 11).ramp.regs.rampDacSetpt.toInt = -104857 ∧
      (run Fabric.clock oneFabric twoRun 13).ramp.regs.rampDacSetpt.toInt = -104857 ∧
      (run Fabric.clock oneFabric twoRun 13).ramp.regs.state = .idle := by
  obtain ⟨s', -, -, hplay⟩ :=
    (ramp_message readFloats (fun _ => 0) ⟨fun _ => 0, blankDevice⟩ twoPoints rfl).1 2
      twoValues rfl (by norm_num) scales_twoPoints
  obtain ⟨hfirst, -⟩ := hplay oneFabric twoRun 6 requested_twoRun 8 (by norm_num)
  obtain ⟨hsecond, -⟩ := hplay oneFabric twoRun 6 requested_twoRun 10 (by norm_num)
  obtain ⟨hlast, hidle⟩ := hplay oneFabric twoRun 6 requested_twoRun 12 (by norm_num)
  have hticks8 : ticksSince twoRun 6 8 = 1 := by decide
  have hticks10 : ticksSince twoRun 6 10 = 2 := by decide
  have hticks12 : ticksSince twoRun 6 12 = 3 := by decide
  rw [hticks8] at hfirst
  rw [hticks10] at hsecond
  rw [hticks12] at hlast hidle
  exact ⟨hfirst, hsecond, hlast, hidle.mpr (by norm_num)⟩

end Psc.Net
