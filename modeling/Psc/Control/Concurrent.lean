import Psc.Control.Accesses
import Psc.Net.RampMessage

/-!
# Commands of two clients at once

Each client is served by a thread of its own, and no lock is held around the register writes of a
command. Two commands to one channel, a ramp table or a setpoint each, are run access by access, as
a schedule says.

What the commands read is not written by any of them, so each makes the same accesses whatever the
other does. They write to cells: the points of the table, its length, the phase increment and the
setpoint. The point that a word of data goes to is the one in the address register at the time.

`concurrent_iff`: as long as each word of data finds the address of its own command there, the
outcome is that of one command after the other exactly if everything that one of them has written
stands. That is so for a table and a setpoint; two tables, or two setpoints, may be mixed.
-/

namespace Psc.Control

open Program Program.Prog Interleaving Net

/-- A command of a client: a ramp table (identifier 101), or a setpoint. -/
inductive Request where
  | upload (msg : Bytes) (msglen : ℕ)
  | setpt (data : BitVec 32)

/-- `client_msg` on a request to a channel. -/
def Request.code (fmt : FloatFormat) (stack : Bytes) (chan : BitVec 32) (r : Request) :
    Code Unit := do
  Code.outGlob .iocAccess 1
  Code.outGlob .iocAccess 0
  match r with
  | upload msg msglen => Code.writeRamptable fmt 1 msg msglen
  | setpt data => Code.chanSettings fmt stack chan 104 data

/-- Ramp tables are for the first supply. -/
def Request.To (ps : Ps) : Request → Prop
  | upload _ _ => ps = .ps1
  | setpt _ => True

/-! ## Cells -/

/-- What two commands may both write. -/
inductive Cell where
  | len
  | point (k : BitVec 16)
  | phaseinc
  | setpt
  deriving DecidableEq

section Cells

variable (ps : Ps)

/-- The cell that a write to a register goes to, given the address register. -/
def cellOf (addr : BitVec 16) (r : BitVec 32) : Option Cell :=
  if r = ChanReg.dacRamplen.addr 1 then some .len
  else if r = ChanReg.dacRampdata.addr 1 then some (.point addr)
  else if r = ChanReg.smoothPhaseinc.addr ps.chan then some .phaseinc
  else if r = ChanReg.dacSetpt.addr ps.chan then some .setpt
  else none

/-- What a cell keeps of a word. -/
def Cell.keep : Cell → BitVec 32 → BitVec 32
  | len, v => (v.setWidth 16).setWidth 32
  | point _, v => (v.setWidth 20).setWidth 32
  | phaseinc, v => stored (ChanReg.smoothPhaseinc.addr ps.chan) v
  | setpt, v => stored (ChanReg.dacSetpt.addr ps.chan) v

/-- The ramp table of the first supply that the writes so far have made of `T`. -/
def Device.table (T : Table) (d : Device) : Table := d.bus.foldl Table.write T

/-- The table, its length, the phase increment and the setpoint. -/
def observed (T : Table) (d : Device) : Cell → BitVec 32
  | .len => (d.table T).len.setWidth 32
  | .point k => ((d.table T).mem k).setWidth 32
  | .phaseinc => d.inChan .smoothPhaseinc ps.chan
  | .setpt => d.inChan .dacSetpt ps.chan

/-- The address register after an access. -/
def addrAfter (addr : BitVec 16) : Access → BitVec 16
  | .out32 r v => if r = ChanReg.dacRampaddr.addr 1 then v.setWidth 16 else addr
  | _ => addr

/-- The assignment that an access makes. -/
def assigns (addr : BitVec 16) : Access → Option (Cell × BitVec 32)
  | .out32 r v => (cellOf ps addr r).map fun c => (c, c.keep ps v)
  | _ => none

/-- The assignments that accesses make, one after another. -/
def stores : BitVec 16 → List Access → List (Cell × BitVec 32)
  | _, [] => []
  | addr, i :: is => (assigns ps addr i).toList ++ stores (addrAfter addr i) is

/-- The assignments that the accesses of two commands make, each with whose it is. -/
def effects : BitVec 16 → List (Bool × Access) → List (Bool × Cell × BitVec 32)
  | _, [] => []
  | addr, (b, i) :: zs =>
    ((assigns ps addr i).toList.map fun x => (b, x)) ++ effects (addrAfter addr i) zs

/-- Each cell ends as command `b` alone leaves it, or, where `b` does not write to it, as the other
alone does. `addr` and `m` are what the address register and the cells held at the start. -/
def Settled (addr : BitVec 16) (m : Cell → BitVec 32) (zs : List (Bool × Access)) (b : Bool) :
    Prop :=
  ∀ c, (last c ((effects ps addr zs).map Prod.snd)).getD (m c) =
    ((last c (stores ps addr (part b zs))).or (last c (stores ps addr (part (!b) zs)))).getD (m c)

/-- Each word of data finds in the address register what its own command has written there last, or
what was there at the start. -/
def Paired : (Bool → BitVec 16) → BitVec 16 → List (Bool × Access) → Prop
  | _, _, [] => True
  | own, addr, (b, i) :: zs =>
    (∀ v, i = .out32 (ChanReg.dacRampdata.addr 1) v → addr = own b) ∧
      Paired (Function.update own b (addrAfter (own b) i)) (addrAfter addr i) zs

end Cells

/-! ## What an access does to the cells -/

section Steps

variable {ps : Ps} (stack : Bytes) (T : Table) (d : Device)

theorem table_out32 (r v : BitVec 32) :
    (d.xilOut32 r v).table T = (d.table T).write ⟨r, v⟩ := by
  simp [Device.table, Device.xilOut32]

theorem cell_regs (ps : Ps) :
    [ChanReg.dacRamplen.addr 1, ChanReg.dacRampaddr.addr 1, ChanReg.dacRampdata.addr 1,
      ChanReg.smoothPhaseinc.addr ps.chan, ChanReg.dacSetpt.addr ps.chan].Nodup := by
  cases ps <;> decide

theorem cellOf_eq_some {addr : BitVec 16} {r : BitVec 32} {c : Cell} :
    cellOf ps addr r = some c ↔
      match c with
      | .len => r = ChanReg.dacRamplen.addr 1
      | .point k => r = ChanReg.dacRampdata.addr 1 ∧ addr = k
      | .phaseinc => r = ChanReg.smoothPhaseinc.addr ps.chan
      | .setpt => r = ChanReg.dacSetpt.addr ps.chan := by
  have hregs := cell_regs ps
  simp only [List.nodup_cons, List.mem_cons, List.not_mem_nil, or_false, not_or] at hregs
  obtain ⟨⟨-, hld, hlp, hls⟩, -, ⟨hdp, hds⟩, hps, -⟩ := hregs
  unfold cellOf
  generalize ChanReg.dacRamplen.addr 1 = l at *
  generalize ChanReg.dacRampdata.addr 1 = data at *
  split_ifs with hl hd hp hs
  · cases c <;> simp [hl, hld, hlp, hls]
  · cases c <;> simp [hd, hdp, hds, Ne.symm hld]
  · cases c <;> simp [hp, hps, Ne.symm hlp, Ne.symm hdp]
  · cases c <;> simp [hs, Ne.symm hls, Ne.symm hds, Ne.symm hps]
  · cases c <;> simp [hl, hd, hp, hs]

theorem table_write (T : Table) (r v : BitVec 32) :
    (T.write ⟨r, v⟩).len = (if r = ChanReg.dacRamplen.addr 1 then v.setWidth 16 else T.len) ∧
    (T.write ⟨r, v⟩).addr = (if r = ChanReg.dacRampaddr.addr 1 then v.setWidth 16 else T.addr) ∧
    ∀ k, (T.write ⟨r, v⟩).mem k =
      if r = ChanReg.dacRampdata.addr 1 ∧ T.addr = k then v.setWidth 20 else T.mem k := by
  have hl : rdlAddr .ps1 0x38 = ChanReg.dacRamplen.addr 1 := rfl
  have ha : rdlAddr .ps1 0x3C = ChanReg.dacRampaddr.addr 1 := rfl
  have hd : rdlAddr .ps1 0x40 = ChanReg.dacRampdata.addr 1 := rfl
  have hregs := cell_regs .ps1
  simp only [List.nodup_cons, List.mem_cons, List.not_mem_nil, or_false, not_or] at hregs
  obtain ⟨⟨hla, hld, -⟩, ⟨had, -⟩, -⟩ := hregs
  unfold Table.write
  simp only [hl, ha, hd]
  generalize ChanReg.dacRamplen.addr 1 = l at *
  generalize ChanReg.dacRampaddr.addr 1 = a at *
  generalize ChanReg.dacRampdata.addr 1 = data at *
  by_cases h38 : r = l
  · simp [h38, hla, hld]
  · by_cases h3C : r = a
    · simp [h3C, Ne.symm hla, had]
    · by_cases h40 : r = data
      · simp [h40, Ne.symm hld, Ne.symm had, Function.update_apply, eq_comm]
      · simp [h38, h3C, h40]

/-- A write goes to the cell behind its register, and to no other. -/
theorem observed_out32 (r v : BitVec 32) (c : Cell) :
    observed ps T (d.xilOut32 r v) c =
      if cellOf ps (d.table T).addr r = some c then c.keep ps v else observed ps T d c := by
  obtain ⟨hlen, -, hmem⟩ := table_write (d.table T) r v
  rw [← table_out32] at hlen hmem
  have hreg : ∀ a, (d.xilOut32 r v).regs a = if r = a then stored a v else d.regs a := by
    intro a
    by_cases h : r = a
    · rw [if_pos h, ← h]
      exact Function.update_self ..
    · rw [if_neg h]
      exact d.xilOut32_regs_of_ne (Ne.symm h) v
  cases c with
  | len =>
    have hc : cellOf ps (d.table T).addr r = some .len ↔ r = ChanReg.dacRamplen.addr 1 :=
      cellOf_eq_some
    simp only [observed, hlen, hc, Cell.keep]
    split_ifs <;> rfl
  | point k =>
    have hc : cellOf ps (d.table T).addr r = some (.point k) ↔
        r = ChanReg.dacRampdata.addr 1 ∧ (d.table T).addr = k := cellOf_eq_some
    simp only [observed, hmem, hc, Cell.keep]
    split_ifs <;> rfl
  | phaseinc =>
    have hc : cellOf ps (d.table T).addr r = some .phaseinc ↔
        r = ChanReg.smoothPhaseinc.addr ps.chan := cellOf_eq_some
    simp only [hc]
    exact hreg _
  | setpt =>
    have hc : cellOf ps (d.table T).addr r = some .setpt ↔ r = ChanReg.dacSetpt.addr ps.chan :=
      cellOf_eq_some
    simp only [hc]
    exact hreg _

theorem table_congr {d' : Device} (hbus : d'.bus = d.bus) : d'.table T = d.table T :=
  congrArg (List.foldl Table.write T) hbus

theorem observed_congr {d' : Device} (hbus : d'.bus = d.bus) (hregs : d'.regs = d.regs) :
    observed ps T d' = observed ps T d := by
  funext c
  cases c with
  | len => simp only [observed, table_congr T d hbus]
  | point k => simp only [observed, table_congr T d hbus]
  | phaseinc => simp only [observed, Device.inChan, hregs]
  | setpt => simp only [observed, Device.inChan, hregs]

/-- An access makes its assignment, and moves the address register. -/
theorem observed_perform (ps : Ps) (i : Access) :
    observed ps T (i.perform stack d).2 =
      assign (assigns ps (d.table T).addr i).toList (observed ps T d) ∧
    ((i.perform stack d).2.table T).addr = addrAfter (d.table T).addr i := by
  cases i with
  | out32 r v =>
    constructor
    · funext c
      show observed ps T (d.xilOut32 r v) c = _
      rw [observed_out32, assigns]
      cases h : cellOf ps (d.table T).addr r with
      | none => simp [assign]
      | some c' =>
        by_cases hc : c' = c
        · simp [assign, hc]
        · simp [assign, hc, Function.update_of_ne (Ne.symm hc)]
    · show ((d.xilOut32 r v).table T).addr = _
      rw [table_out32, (table_write _ r v).2.1]
      rfl
  | _ =>
    -- any other access leaves the registers and the bus
    dsimp only [Access.perform]
    exact ⟨observed_congr T d rfl rfl, congrArg Table.addr (table_congr T d rfl)⟩

/-- **The cells after some accesses.** -/
theorem observed_after (is : List Access) :
    observed ps T (after (Access.perform stack) is d) =
      assign (stores ps (d.table T).addr is) (observed ps T d) := by
  induction is generalizing d with
  | nil => rfl
  | cons i is ih =>
    obtain ⟨hobs, haddr⟩ := observed_perform stack T d ps i
    show observed ps T (after (Access.perform stack) is (i.perform stack d).2) = _
    rw [ih, haddr, hobs, stores, assign_append]

theorem effects_snd (addr : BitVec 16) (zs : List (Bool × Access)) :
    (effects ps addr zs).map Prod.snd = stores ps addr (zs.map Prod.snd) := by
  induction zs generalizing addr with
  | nil => rfl
  | cons z zs ih => simp [effects, stores, ih]

/-- The assignments of each command, if its words find their own addresses. -/
theorem Paired.part {own : Bool → BitVec 16} {addr : BitVec 16} {zs : List (Bool × Access)}
    (h : Paired own addr zs) (b : Bool) :
    part b (effects ps addr zs) = stores ps (own b) (Interleaving.part b zs) := by
  induction zs generalizing own addr with
  | nil => rfl
  | cons z zs ih =>
    obtain ⟨b', i⟩ := z
    obtain ⟨hown, hrest⟩ := h
    rw [effects, part_append, part_map, ih hrest]
    by_cases hb : b' = b
    · subst hb
      have hsame : assigns ps addr i = assigns ps (own b') i := by
        cases i with
        | out32 r v =>
          by_cases hr : r = ChanReg.dacRampdata.addr 1
          · rw [hown v (by rw [hr])]
          · unfold assigns cellOf
            simp only [if_neg hr]
        | _ => rfl
      rw [if_pos rfl, part_cons_self, Function.update_self, hsame]
      rfl
    · rw [if_neg hb, part_cons_of_ne hb, Function.update_of_ne (Ne.symm hb)]
      rfl

end Steps

/-! ## What the commands read and write -/

section Footprints

variable (ps : Ps)

/-- An access that leaves the device as it is, and reads nothing that the commands write. -/
def Reads : Access → Prop
  | .in32 a => a ∈ [GlobReg.resolution.addr, ChanReg.dacOpmode.addr ps.chan,
      ChanReg.dacCurrsetpt.addr ps.chan]
  | .sf _ => True
  | .conv => True
  | _ => False

/-- What an upload does. -/
def Uploads (i : Access) : Prop :=
  Reads ps i ∨ ∃ r v, i = .out32 r v ∧ r ∈ [GlobReg.iocAccess.addr, ChanReg.dacRamplen.addr 1,
    ChanReg.dacRampaddr.addr 1, ChanReg.dacRampdata.addr 1]

/-- What a setpoint command does. -/
def Sets (i : Access) : Prop :=
  Reads ps i ∨ ∃ r v, i = .out32 r v ∧ r ∈ [GlobReg.iocAccess.addr,
    ChanReg.smoothPhaseinc.addr ps.chan, ChanReg.dacSetpt.addr ps.chan]

/-- What a request does. -/
def Request.Does : Request → Access → Prop
  | upload _ _ => Uploads ps
  | setpt _ => Sets ps

variable {ps} (fmt : FloatFormat) (stack : Bytes)

theorem every_scaledVal {A : Access → Prop} (x : ℚ) (chan : BitVec 32)
    (field : ScaleFactorType → ℚ) (hsf : A (.sf (chan - 1))) (hconv : A .conv) :
    (Code.scaledVal x true chan field).Every A :=
  Every.bind (p := Code.volts true) ⟨hconv, fun _ => trivial⟩ fun _ =>
    Every.bind (p := Code.sf chan) ⟨hsf, fun _ => trivial⟩ fun _ => Every.ofExcept _

theorem uploads_writeRamptable (chan : BitVec 32) (hchan : chan = 1) (msg : Bytes) (msglen : ℕ) :
    (Code.writeRamptable fmt chan msg msglen).Every (Uploads ps) := by
  have hread : ∀ i, Reads ps i → Uploads ps i := fun _ => .inl
  have hpoint : ∀ res i, (Code.writePoint fmt chan msg res i).Every (Uploads ps) := by
    intro res i
    refine (every_scaledVal _ chan _ (hread _ trivial) (hread _ trivial)).bind fun v => ?_
    exact ⟨.inr ⟨_, _, rfl, by simp [hchan]⟩, fun _ =>
      ⟨.inr ⟨_, _, rfl, by simp [hchan]⟩, fun _ => trivial⟩⟩
  unfold Code.writeRamptable
  simp only
  split_ifs
  · trivial
  · refine ⟨.inr ⟨_, _, rfl, by simp [hchan]⟩, fun _ => ⟨hread _ (by simp [Reads]), fun res =>
      ⟨hread _ trivial, fun _ => ⟨hread _ trivial, fun _ => ?_⟩⟩⟩⟩
    exact Every.forM fun i _ => hpoint res i

theorem sets_chanSettings (data : BitVec 32) :
    (Code.chanSettings fmt stack ps.chan 104 data).Every (Sets ps) := by
  have hread : ∀ i, Reads ps i → Sets ps i := fun _ => .inl
  have hsf : (Code.sf ps.chan).Every (Sets ps) := ⟨hread _ trivial, fun _ => trivial⟩
  have hconv : Code.conv.Every (Sets ps) := ⟨hread _ trivial, fun _ => trivial⟩
  have hin : ∀ reg ∈ [ChanReg.dacOpmode, ChanReg.dacCurrsetpt],
      (Code.inChan reg ps.chan).Every (Sets ps) := fun reg hreg =>
    ⟨hread _ (by simp at hreg; rcases hreg with rfl | rfl <;> simp [Reads]), fun _ => trivial⟩
  have hout : ∀ reg ∈ [ChanReg.smoothPhaseinc, ChanReg.dacSetpt], ∀ v,
      (Code.outChan reg ps.chan v).Every (Sets ps) := fun reg hreg v =>
    ⟨.inr ⟨_, _, rfl, by simp at hreg; rcases hreg with rfl | rfl <;> simp⟩, fun _ => trivial⟩
  have hsmooth : ∀ v, (Code.calcWriteSmooth ps.chan v).Every (Sets ps) := fun v =>
    (hin _ (by simp)).bind fun _ => hsf.bind fun _ => hconv.bind fun _ =>
      (Every.ofExcept _).bind fun _ => (Every.ofExcept _).bind fun _ =>
        (hout _ (by simp) _).bind fun _ => hout _ (by simp) _
  refine Every.bind (every_scaledVal _ _ _ (hread _ trivial) (hread _ trivial)) fun _ => ?_
  refine (hin _ (by simp)).bind fun mode => hsf.bind fun s => hconv.bind fun conv =>
    (Every.ofExcept _).bind fun v => ?_
  split_ifs
  · exact hsmooth v
  · exact hout _ (by simp) v
  · trivial

theorem does_code {r : Request} (hr : r.To ps) : (r.code fmt stack ps.chan).Every (r.Does ps) := by
  cases r with
  | upload msg msglen =>
    exact ⟨.inr ⟨_, _, rfl, by simp⟩, fun _ => ⟨.inr ⟨_, _, rfl, by simp⟩, fun _ =>
      uploads_writeRamptable fmt 1 rfl msg msglen⟩⟩
  | setpt data =>
    exact ⟨.inr ⟨_, _, rfl, by simp⟩, fun _ => ⟨.inr ⟨_, _, rfl, by simp⟩, fun _ =>
      sets_chanSettings fmt stack data⟩⟩

/-- What the commands read is as in `d₀`. -/
structure SameReads (ps : Ps) (d₀ d : Device) : Prop where
  regs : ∀ a, Reads ps (.in32 a) → d.regs a = d₀.regs a
  scalefactors : d.scalefactors = d₀.scalefactors
  conv : d.convVoltsToDacBits = d₀.convVoltsToDacBits

/-- The commands do not write what they read. -/
theorem steady (ps : Ps) (d₀ : Device) :
    Steady (Access.perform stack) (fun i => Uploads ps i ∨ Sets ps i) (SameReads ps d₀) := by
  have hapart : ∀ r v, Uploads ps (.out32 r v) ∨ Sets ps (.out32 r v) →
      ∀ a, Reads ps (.in32 a) → a ≠ r := by
    have hu : ([GlobReg.resolution.addr, ChanReg.dacOpmode.addr ps.chan,
        ChanReg.dacCurrsetpt.addr ps.chan] ++ [GlobReg.iocAccess.addr, ChanReg.dacRamplen.addr 1,
        ChanReg.dacRampaddr.addr 1, ChanReg.dacRampdata.addr 1]).Nodup := by
      cases ps <;> decide
    have hs : ([GlobReg.resolution.addr, ChanReg.dacOpmode.addr ps.chan,
        ChanReg.dacCurrsetpt.addr ps.chan] ++ [GlobReg.iocAccess.addr,
        ChanReg.smoothPhaseinc.addr ps.chan, ChanReg.dacSetpt.addr ps.chan]).Nodup := by
      cases ps <;> decide
    rintro r v hr a ha rfl
    simp only [Uploads, Sets, Reads, false_or, Access.out32.injEq] at hr
    obtain ⟨r, v, ⟨rfl, -⟩, hr⟩ | ⟨r, v, ⟨rfl, -⟩, hr⟩ := hr
    · exact List.disjoint_of_nodup_append hu ha hr
    · exact List.disjoint_of_nodup_append hs ha hr
  constructor
  · intro i d hi hd
    cases i with
    | out32 r v =>
      exact ⟨fun a ha => (d.xilOut32_regs_of_ne (hapart r v hi a ha) v).trans (hd.regs a ha),
        hd.scalefactors, hd.conv⟩
    | in32 a => exact hd
    | sf j => exact hd
    | conv => exact hd
    | _ => simp [Uploads, Sets, Reads] at hi
  · intro i d d' hi hd hd'
    cases i with
    | out32 r v => rfl
    | in32 a =>
      have ha : Reads ps (.in32 a) := by simpa [Uploads, Sets] using hi
      exact (hd.regs a ha).trans (hd'.regs a ha).symm
    | sf j => exact congrFun (hd.scalefactors.trans hd'.scalefactors.symm) j
    | conv => exact hd.conv.trans hd'.conv.symm
    | _ => simp [Uploads, Sets, Reads] at hi

/-! ## The assignments of each command -/

/-- A setpoint command goes to no address and no point of the table. -/
theorem sets_cells {i : Access} (h : Sets ps i) (addr : BitVec 16) :
    addrAfter addr i = addr ∧ (∀ v, i ≠ .out32 (ChanReg.dacRampdata.addr 1) v) ∧
      ∀ x ∈ assigns ps addr i, x.1 = .phaseinc ∨ x.1 = .setpt := by
  have hapart : ([GlobReg.iocAccess.addr, ChanReg.smoothPhaseinc.addr ps.chan,
      ChanReg.dacSetpt.addr ps.chan] ++ [ChanReg.dacRamplen.addr 1, ChanReg.dacRampaddr.addr 1,
      ChanReg.dacRampdata.addr 1]).Nodup := by
    cases ps <;> decide
  cases i with
  | out32 r v =>
    simp only [Sets, Reads, false_or, Access.out32.injEq] at h
    obtain ⟨r, v, ⟨rfl, rfl⟩, hr⟩ := h
    have hnot : r ∉ [ChanReg.dacRamplen.addr 1, ChanReg.dacRampaddr.addr 1,
        ChanReg.dacRampdata.addr 1] := List.disjoint_of_nodup_append hapart hr
    simp only [List.mem_cons, List.not_mem_nil, or_false, not_or] at hnot
    refine ⟨if_neg hnot.2.1, fun v' heq => hnot.2.2 (Access.out32.inj heq).1, fun x hx => ?_⟩
    obtain ⟨c, hc, rfl⟩ := Option.map_eq_some_iff.mp hx
    rw [cellOf_eq_some] at hc
    cases c with
    | len => exact absurd hc hnot.1
    | point k => exact absurd hc.1 hnot.2.2
    | phaseinc => exact .inl rfl
    | setpt => exact .inr rfl
  | _ => exact ⟨rfl, by simp, by simp [assigns]⟩

/-- An upload goes to the table and its length. -/
theorem uploads_cells {i : Access} (h : Uploads ps i) (addr : BitVec 16) :
    ∀ x ∈ assigns ps addr i, x.1 = .len ∨ ∃ k, x.1 = .point k := by
  have hapart : ([GlobReg.iocAccess.addr, ChanReg.dacRamplen.addr 1, ChanReg.dacRampaddr.addr 1,
      ChanReg.dacRampdata.addr 1] ++ [ChanReg.smoothPhaseinc.addr ps.chan,
      ChanReg.dacSetpt.addr ps.chan]).Nodup := by
    cases ps <;> decide
  cases i with
  | out32 r v =>
    simp only [Uploads, Reads, false_or, Access.out32.injEq] at h
    obtain ⟨r, v, ⟨rfl, rfl⟩, hr⟩ := h
    have hnot : r ∉ [ChanReg.smoothPhaseinc.addr ps.chan, ChanReg.dacSetpt.addr ps.chan] :=
      List.disjoint_of_nodup_append hapart hr
    simp only [List.mem_cons, List.not_mem_nil, or_false, not_or] at hnot
    intro x hx
    obtain ⟨c, hc, rfl⟩ := Option.map_eq_some_iff.mp hx
    rw [cellOf_eq_some] at hc
    cases c with
    | len => exact .inl rfl
    | point k => exact .inr ⟨k, rfl⟩
    | phaseinc => exact absurd hc hnot.1
    | setpt => exact absurd hc hnot.2
  | _ => simp [assigns]

theorem mem_stores {P : Access → Prop} {Q : Cell → Prop}
    (hP : ∀ i addr, P i → ∀ x ∈ assigns ps addr i, Q x.1) {is : List Access}
    (his : ∀ i ∈ is, P i) (addr : BitVec 16) : ∀ x ∈ stores ps addr is, Q x.1 := by
  induction is generalizing addr with
  | nil => simp [stores]
  | cons i is ih =>
    intro x hx
    rcases List.mem_append.mp hx with hx | hx
    · exact hP i addr (his i List.mem_cons_self) x (by simpa using hx)
    · exact ih (fun j hj => his j (List.mem_cons_of_mem i hj)) _ x hx

theorem stores_cons {i : Access} (hmoves : ∀ addr, addrAfter addr i = addr)
    (hdata : ∀ v, i ≠ .out32 (ChanReg.dacRampdata.addr 1) v) {is : List Access}
    {addr addr' : BitVec 16} (h : stores ps addr is = stores ps addr' is) :
    stores ps addr (i :: is) = stores ps addr' (i :: is) := by
  have hsame : assigns ps addr i = assigns ps addr' i := by
    cases i with
    | out32 r v =>
      have hr : r ≠ ChanReg.dacRampdata.addr 1 := fun hr => hdata v (by rw [hr])
      unfold assigns cellOf
      simp only [if_neg hr]
    | _ => rfl
  rw [stores, stores, hmoves, hmoves, hsame, h]

theorem stores_out {r v : BitVec 32} (ha : r ≠ ChanReg.dacRampaddr.addr 1)
    (hd : r ≠ ChanReg.dacRampdata.addr 1) {is : List Access} {addr addr' : BitVec 16}
    (h : stores ps addr is = stores ps addr' is) :
    stores ps addr (.out32 r v :: is) = stores ps addr' (.out32 r v :: is) :=
  stores_cons (i := .out32 r v) (fun _ => if_neg ha) (fun _ h => hd (Access.out32.inj h).1) h

theorem stores_addr (addr : BitVec 16) (v : BitVec 32) (is : List Access) :
    stores ps addr (.out32 (ChanReg.dacRampaddr.addr 1) v :: is) =
      stores ps (v.setWidth 16) is := by
  have hnone : cellOf ps addr (ChanReg.dacRampaddr.addr 1) = none := by
    have hregs := cell_regs ps
    simp only [List.nodup_cons, List.mem_cons, List.not_mem_nil, or_false, not_or] at hregs
    obtain ⟨⟨hla, -⟩, ⟨had, hap, has⟩, -⟩ := hregs
    rw [cellOf, if_neg (Ne.symm hla), if_neg had, if_neg hap, if_neg has]
  rw [stores, assigns, hnone, addrAfter, if_pos rfl]
  rfl

theorem trace_writePoint (msg : Bytes) (res : BitVec 32) (i : ℕ) (d : Device) :
    trace (Access.perform stack) (Code.writePoint fmt 1 msg res i) d =
      .conv :: .sf 0 ::
        match scaledVal (fmt.value (msgWord msg i)) d.convVoltsToDacBits (d.sf 1).dacDccts with
        | .ok v => [.out32 (ChanReg.dacRampaddr.addr 1) (BitVec.ofNat 32 i),
            .out32 (ChanReg.dacRampdata.addr 1) (rampClamp res v)]
        | .error _ => [] := by
  show .conv :: .sf 0 :: trace (Access.perform stack) ((ofExcept (scaledVal
    (fmt.value (msgWord msg i)) d.convVoltsToDacBits (d.sf 1).dacDccts)).bind _) d = _
  cases scaledVal (fmt.value (msgWord msg i)) d.convVoltsToDacBits (d.sf 1).dacDccts <;> rfl

theorem stores_writePoints (msg : Bytes) (res : BitVec 32) (l : List ℕ) (d : Device)
    (addr addr' : BitVec 16) :
    stores ps addr (trace (Access.perform stack) (l.forM (Code.writePoint fmt 1 msg res)) d) =
      stores ps addr'
        (trace (Access.perform stack) (l.forM (Code.writePoint fmt 1 msg res)) d) := by
  cases l with
  | nil => rfl
  | cons i l =>
    show stores ps addr (trace _ (Code.writePoint fmt 1 msg res i >>= fun _ => _) d) =
      stores ps addr' (trace _ (Code.writePoint fmt 1 msg res i >>= fun _ => _) d)
    rw [trace_bind, trace_writePoint]
    refine stores_cons (fun _ => rfl) (by simp) (stores_cons (fun _ => rfl) (by simp) ?_)
    cases hval : scaledVal (fmt.value (msgWord msg i)) d.convVoltsToDacBits (d.sf 1).dacDccts with
    | ok v => exact (stores_addr _ _ _).trans (stores_addr _ _ _).symm
    | error e =>
      have hrun :
          run (Access.perform stack) (Code.writePoint fmt 1 msg res i) d = (.error e, d) := by
        have hval : scaledVal (fmt.value (msgWord msg i)) (d.volts true) (d.sf 1).dacDccts =
          .error e := hval
        rw [Code.writePoint, run_bind, run_scaledVal, hval]
      rw [hrun]
      rfl

/-- The words of a request go where it says, wherever the address register was before. -/
theorem stores_trace {r : Request} (hr : r.To ps) (d : Device) (addr addr' : BitVec 16) :
    stores ps addr (trace (Access.perform stack) (r.code fmt stack ps.chan) d) =
      stores ps addr' (trace (Access.perform stack) (r.code fmt stack ps.chan) d) := by
  cases r with
  | setpt data =>
    have hsets := every_trace (h := Access.perform stack)
      (does_code fmt stack (r := .setpt data) hr) d
    generalize trace (Access.perform stack) ((Request.setpt data).code fmt stack ps.chan) d = is
      at hsets
    induction is with
    | nil => rfl
    | cons i is ih =>
      have hi : Sets ps i := hsets i List.mem_cons_self
      exact stores_cons (fun a => (sets_cells hi a).1) (sets_cells hi addr).2.1
        (ih fun j hj => hsets j (List.mem_cons_of_mem i hj))
  | upload msg msglen =>
    refine stores_out (by decide) (by decide) (stores_out (by decide) (by decide) ?_)
    show stores ps addr (trace _ (Code.writeRamptable fmt 1 msg msglen) _) =
      stores ps addr' (trace _ (Code.writeRamptable fmt 1 msg msglen) _)
    unfold Code.writeRamptable
    simp only
    split_ifs
    · rfl
    · refine stores_out (by decide) (by decide) ?_
      refine stores_cons (fun _ => rfl) (by simp) (stores_cons (fun _ => rfl) (by simp)
        (stores_cons (fun _ => rfl) (by simp) ?_))
      exact stores_writePoints fmt stack msg _ _ _ addr addr'

end Footprints

/-! ## Interleavings -/

section Outcomes

variable {ps : Ps} (fmt : FloatFormat) (stack : Bytes) (T : Table)

/-- The device after two requests one after the other, the first of them last if `b`. -/
def serial (ps : Ps) (b : Bool) (r r' : Request) (d : Device) : Device :=
  let p := if b then r' else r
  let q := if b then r else r'
  (run (Access.perform stack) (q.code fmt stack ps.chan)
    (run (Access.perform stack) (p.code fmt stack ps.chan) d).2).2

/-- The table, its length, the phase increment and the setpoint are those of one of the two
orders. -/
def Serial (ps : Ps) (r r' : Request) (d d' : Device) : Prop :=
  ∃ b, observed ps T d' = observed ps T (serial fmt stack ps b r r' d)

/-- A command that leaves the table alone does not part the words of the other from their
addresses. -/
theorem paired_of_quiet (b₀ : Bool) {own : Bool → BitVec 16} {addr : BitVec 16}
    {zs : List (Bool × Access)} (hown : own b₀ = addr)
    (hquiet : ∀ z ∈ zs, z.1 ≠ b₀ → (∀ a, addrAfter a z.2 = a) ∧
      ∀ v, z.2 ≠ .out32 (ChanReg.dacRampdata.addr 1) v) : Paired own addr zs := by
  induction zs generalizing own addr with
  | nil => trivial
  | cons z zs ih =>
    obtain ⟨b, i⟩ := z
    have hrest := fun z hz => hquiet z (List.mem_cons_of_mem _ hz)
    by_cases hb : b = b₀
    · subst hb
      refine ⟨fun _ _ => hown.symm, ih ?_ hrest⟩
      rw [Function.update_self, hown]
    · obtain ⟨hmoves, hdata⟩ := hquiet (b, i) List.mem_cons_self hb
      refine ⟨fun v hv => absurd hv (hdata v), ih ?_ hrest⟩
      rw [Function.update_of_ne (Ne.symm hb), hmoves, hown]

section Pair

variable {r r' : Request} {d d' : Device} {bs : List Bool} {zs : List (Bool × Access)}

theorem touches_code (hr : r.To ps) :
    (r.code fmt stack ps.chan).Every fun i => Uploads ps i ∨ Sets ps i :=
  (does_code fmt stack hr).mono fun i hi => by
    cases r with
    | upload msg msglen => exact .inl hi
    | setpt data => exact .inr hi

variable (hr : r.To ps) (hr' : r'.To ps)

include hr hr'

/-- One request after the other: the cells hold what the second has written, or else the first. -/
theorem observed_serial (b : Bool) (d : Device) (addr : BitVec 16) :
    observed ps T (serial fmt stack ps b r r' d) =
      assign
        (stores ps addr (trace (Access.perform stack) ((if b then r' else r).code fmt stack ps.chan) d)
          ++ stores ps addr
            (trace (Access.perform stack) ((if b then r else r').code fmt stack ps.chan) d))
        (observed ps T d) := by
  have hfirst : (if b then r' else r).To ps := by split_ifs <;> assumption
  have hlast : (if b then r else r').To ps := by split_ifs <;> assumption
  generalize hp : (if b then r' else r) = p at hfirst
  generalize hq : (if b then r else r') = q at hlast
  have hserial : serial fmt stack ps b r r' d =
      (run (Access.perform stack) (q.code fmt stack ps.chan)
        (run (Access.perform stack) (p.code fmt stack ps.chan) d).2).2 := by
    rw [serial, hp, hq]
  have hsame : SameReads ps d d := ⟨fun _ _ => rfl, rfl, rfl⟩
  have hst := steady stack ps d
  have hmid := hst.run (touches_code fmt stack hfirst) hsame
  have htrace := hst.trace_eq (touches_code fmt stack hlast) hmid hsame
  rw [hserial, run_state, htrace, observed_after, run_state, observed_after, ← assign_append,
    stores_trace fmt stack hfirst d _ addr, stores_trace fmt stack hlast d _ addr]

variable (hpar : par (Access.perform stack) bs (r.code fmt stack ps.chan)
  (r'.code fmt stack ps.chan) d = some (zs, d'))

include hpar

theorem parts_of_par (b : Bool) :
    part b zs =
      trace (Access.perform stack) ((if b then r else r').code fmt stack ps.chan) d := by
  have hsame : SameReads ps d d := ⟨fun _ _ => rfl, rfl, rfl⟩
  obtain ⟨h₁, h₂, -⟩ := (steady stack ps d).par_spec (touches_code fmt stack hr)
    (touches_code fmt stack hr') hsame hsame hpar
  cases b with
  | true => exact h₁
  | false => exact h₂

theorem part_not_of_par (b : Bool) :
    part (!b) zs =
      trace (Access.perform stack) ((if b then r' else r).code fmt stack ps.chan) d := by
  have hpart := parts_of_par fmt stack hr hr' hpar (!b)
  rwa [show (if (!b) then r else r') = if b then r' else r by cases b <;> rfl] at hpart

theorem observed_par :
    observed ps T d' =
      assign ((effects ps (d.table T).addr zs).map Prod.snd) (observed ps T d) := by
  have hsame : SameReads ps d d := ⟨fun _ _ => rfl, rfl, rfl⟩
  obtain ⟨-, -, rfl⟩ := (steady stack ps d).par_spec (touches_code fmt stack hr)
    (touches_code fmt stack hr') hsame hsame hpar
  rw [observed_after, effects_snd]

/-- The outcome is that of the requests one after the other, `b` last, exactly if all that `b` has
written stands. -/
theorem serial_iff (hpaired : Paired (fun _ => (d.table T).addr) (d.table T).addr zs) (b : Bool) :
    observed ps T d' = observed ps T (serial fmt stack ps b r r' d) ↔
      Prevails b (effects ps (d.table T).addr zs) := by
  have hlast := parts_of_par fmt stack hr hr' hpar b
  have hfirst := part_not_of_par fmt stack hr hr' hpar b
  rw [observed_par fmt stack T hr hr' hpar,
    observed_serial fmt stack T hr hr' b d (d.table T).addr, ← hfirst, ← hlast,
    ← hpaired.part b, ← hpaired.part (!b), assign_eq_serial_iff]

/-- Wherever the words of data go, the outcome is that of the requests one after the other, `b`
last, exactly if each cell ends as `b` alone leaves it, or else the other. -/
theorem settled_iff (b : Bool) :
    observed ps T d' = observed ps T (serial fmt stack ps b r r' d) ↔
      Settled ps (d.table T).addr (observed ps T d) zs b := by
  have hlast := parts_of_par fmt stack hr hr' hpar b
  have hfirst := part_not_of_par fmt stack hr hr' hpar b
  rw [observed_par fmt stack T hr hr' hpar,
    observed_serial fmt stack T hr hr' b d (d.table T).addr, ← hfirst, ← hlast]
  unfold Settled
  rw [funext_iff]
  refine forall_congr' fun c => ?_
  rw [assign_apply, assign_apply, last_append]

theorem paired_of_setpt (h : (∃ data, r = .setpt data) ∨ ∃ data, r' = .setpt data) :
    Paired (fun _ => (d.table T).addr) (d.table T).addr zs := by
  -- the other command of the two is the one that may have a table
  have hquiet : ∀ b data, (if b then r else r') = .setpt data →
      ∀ z ∈ zs, z.1 ≠ (!b) → (∀ a, addrAfter a z.2 = a) ∧
        ∀ v, z.2 ≠ .out32 (ChanReg.dacRampdata.addr 1) v := by
    rintro b data hb ⟨b', i⟩ hz hne
    obtain rfl : b' = b := by simpa [Bool.eq_not_iff] using Bool.eq_not_iff.mpr hne
    have hmem : i ∈ part b' zs :=
      List.mem_map.mpr ⟨(b', i), List.mem_filter.mpr ⟨hz, by simp⟩, rfl⟩
    rw [parts_of_par fmt stack hr hr' hpar b', hb] at hmem
    have hi : Sets ps i :=
      every_trace (does_code fmt stack (r := .setpt data) trivial) d i hmem
    exact ⟨fun a => (sets_cells hi a).1, (sets_cells hi 0).2.1⟩
  rcases h with ⟨data, h⟩ | ⟨data, h⟩
  · exact paired_of_quiet false rfl (hquiet true data h)
  · exact paired_of_quiet true rfl (hquiet false data h)

/-- A ramp table and a setpoint go to different cells. -/
theorem serial_of_upload_setpt
    (h : (∃ msg n data, r = .upload msg n ∧ r' = .setpt data) ∨
      ∃ msg n data, r = .setpt data ∧ r' = .upload msg n) :
    Serial fmt stack T ps r r' d d' := by
  have hpaired : Paired (fun _ => (d.table T).addr) (d.table T).addr zs := by
    refine paired_of_setpt fmt stack T hr hr' hpar ?_
    rcases h with ⟨_, _, data, -, h⟩ | ⟨_, _, data, h, -⟩
    · exact .inr ⟨data, h⟩
    · exact .inl ⟨data, h⟩
  have hcells : ∀ b, ∀ x ∈ part b (effects ps (d.table T).addr zs),
      match if b then r else r' with
      | .upload _ _ => x.1 = .len ∨ ∃ k, x.1 = .point k
      | .setpt _ => x.1 = .phaseinc ∨ x.1 = .setpt := by
    intro b
    rw [hpaired.part b, parts_of_par fmt stack hr hr' hpar b]
    have hb : (if b then r else r').To ps := by split_ifs <;> assumption
    generalize (if b then r else r') = q at hb
    have hdoes := every_trace (h := Access.perform stack) (does_code fmt stack hb) d
    cases q with
    | upload msg n =>
      exact mem_stores (Q := fun c => c = .len ∨ ∃ k, c = .point k)
        (fun i addr hi => uploads_cells hi addr) hdoes _
    | setpt data =>
      exact mem_stores (Q := fun c => c = .phaseinc ∨ c = .setpt)
        (fun i addr hi => (sets_cells hi addr).2.2) hdoes _
  refine ⟨true, (serial_iff fmt stack T hr hr' hpar hpaired true).mpr
    (prevails_of_disjoint fun x hx y hy => ?_)⟩
  have hx := hcells true x hx
  have hy := hcells false y hy
  rcases h with ⟨_, _, _, rfl, rfl⟩ | ⟨_, _, _, rfl, rfl⟩
  · rintro heq
    rw [heq] at hx
    rcases hx with hx | ⟨k, hx⟩ <;> simp [hx] at hy
  · rintro heq
    rw [heq] at hx
    rcases hx with hx | hx <;> simp [hx] at hy

end Pair

end Outcomes

/-- Of two setpoints in smooth mode, 1 A and 2 A, the second comes between the two writes of the
first. -/
def between : List Bool := List.replicate 11 true ++ List.replicate 12 false ++ [true]

/-- A write of a point. -/
def Access.isPoint : Access → Bool
  | .out32 r _ => r = ChanReg.dacRampdata.addr 1
  | _ => false

theorem isPoint_iff (i : Access) :
    i.isPoint = true ↔ ∃ v, i = .out32 (ChanReg.dacRampdata.addr 1) v := by
  cases i with
  | out32 r v => simp [Access.isPoint]
  | _ => simp [Access.isPoint]

instance decidablePaired : ∀ own addr zs, Decidable (Paired own addr zs)
  | _, _, [] => isTrue trivial
  | own, addr, (b, i) :: zs =>
    have := decidablePaired (Function.update own b (addrAfter (own b) i)) (addrAfter addr i) zs
    decidable_of_iff ((i.isPoint = true → addr = own b) ∧
        Paired (Function.update own b (addrAfter (own b) i)) (addrAfter addr i) zs)
      (and_congr_left' (by rw [isPoint_iff, forall_exists_index]))

/-- A table of two points. -/
def twoPoints (x y : BitVec 32) : Bytes := fun n => (be32 x ++ be32 y).getD n 0

/-- The setpoint comes between the first address and its word. -/
def inside : List Bool := List.replicate 9 true ++ List.replicate 12 false ++ List.replicate 5 true

/-- The points of two tables by turns. -/
def byTurns : List Bool :=
  List.replicate 10 true ++ List.replicate 10 false ++ List.replicate 4 true ++
    List.replicate 4 false

/-- Tables of 1 A and 2 A, and of 3 A and 4 A. -/
def rising : Request := .upload (twoPoints 0x3F800000 0x40000000) 8

def higher : Request := .upload (twoPoints 0x40400000 0x40800000) 8

end Psc.Control
