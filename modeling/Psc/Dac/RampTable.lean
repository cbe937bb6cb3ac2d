import Psc.Lib.Clocked
import Psc.Records

/-!
# The ramp table

`ramptable_ramp.vhd`: on a request in RAMP mode the machine plays a table from a dual-port memory, a
point at each 10 kHz tick, until it is past the length in `ramplen`. A tick takes it to UPDATE_DAC,
where the word that the memory shows is output and the address moves on, and the next tick to the
word after.

The memory shows a word one clock after its address, and at least two clocks lie between the address
and its use: one in RUN_RAMP, in which the address is held, and the one in UPDATE_DAC. So the word
is the right one at any distance of the ticks but one (`view_clock`), and `playback` says what is
output at each clock, by the number of ticks since the request.
-/

namespace Psc.RampTable

open Clocked

/-- `state_type`. -/
inductive Phase where
  | idle | runRamp | updateDac
  deriving DecidableEq

/-- The input ports. -/
structure Input where
  reset : Bool
  tenkhzTrig : Bool
  mode : BitVec 2
  dacCntrl : DacCntrl

/-- The registers. -/
structure State where
  state : Phase
  dacRdaddr : BitVec 16
  dacRden : Bool
  rampActive : Bool
  rampDacSetpt : BitVec 20

/-- `dac_dpram`: the words, and the one that the read port shows. -/
structure Dpram where
  mem : BitVec 16 → BitVec 20
  doutb : BitVec 20

/-- One clock of `dac_dpram`. -/
def Dpram.clock (r : Dpram) (wea : Bool) (addra : BitVec 16) (dina : BitVec 20) (enb : Bool)
    (addrb : BitVec 16) : Dpram where
  mem := if wea then Function.update r.mem addra dina else r.mem
  doutb := if enb then r.mem addrb else r.doutb

/-- One clock of the state machine, with the word that the memory shows. -/
def step (s : State) (i : Input) (dacRddata : BitVec 20) : State :=
  if i.reset then ⟨.idle, 0, false, false, 0⟩
  else
    match s.state with
    | .idle =>
      if i.dacCntrl.ramprun = true ∧ i.mode = 1 then
        { s with state := .runRamp, dacRdaddr := 0, dacRden := true, rampActive := false }
      else { s with rampActive := false }
    | .runRamp =>
      if i.tenkhzTrig then { s with rampActive := true, dacRden := true, state := .updateDac }
      else s
    | .updateDac =>
      if i.dacCntrl.ramplen < s.dacRdaddr + 1 then { s with dacRden := false, state := .idle }
      else
        { state := .runRamp
          dacRdaddr := s.dacRdaddr + 1
          dacRden := true
          rampActive := true
          rampDacSetpt := dacRddata }

/-- The machine and its memory. -/
structure Core where
  regs : State
  ram : Dpram

/-- One clock. -/
def clock (x : Core) (i : Input) : Core where
  regs := step x.regs i x.ram.doutb
  ram := x.ram.clock i.dacCntrl.dpramWe i.dacCntrl.dpramAddr i.dacCntrl.dpramData x.regs.dacRden
    x.regs.dacRdaddr

/-! ## Playing a table -/

/-- What is output after `k` points: the last of them, or what was output before. -/
def shown (table : BitVec 16 → BitVec 20) (old : BitVec 20) : ℕ → BitVec 20
  | 0 => old
  | k + 1 => table (BitVec.ofNat 16 k)

/-- The machine at a clock of a ramp of `n` points, with `k` ticks before it. -/
inductive View (table : BitVec 16 → BitVec 20) (old : BitVec 20) (n k : ℕ) (x : Core) : Prop
  | waits (mem : x.ram.mem = table) (phase : x.regs.state = .runRamp)
      (addr : x.regs.dacRdaddr = BitVec.ofNat 16 k) (rden : x.regs.dacRden = true)
      (setpt : x.regs.rampDacSetpt = shown table old k) (le : k ≤ n)
  | updates (j : ℕ) (mem : x.ram.mem = table) (phase : x.regs.state = .updateDac)
      (addr : x.regs.dacRdaddr = BitVec.ofNat 16 j) (dout : x.ram.doutb = shown table old k)
      (setpt : x.regs.rampDacSetpt = shown table old j) (eq : k = j + 1) (le : j ≤ n)
  | ended (mem : x.ram.mem = table) (phase : x.regs.state = .idle)
      (setpt : x.regs.rampDacSetpt = shown table old n) (lt : n < k)

/-- A clock of a ramp: no reset, no write to the memory, no other request, the length at `n`. -/
structure Quiet (n : ℕ) (i : Input) : Prop where
  reset : i.reset = false
  dpramWe : i.dacCntrl.dpramWe = false
  ramprun : i.dacCntrl.ramprun = false
  ramplen : i.dacCntrl.ramplen = BitVec.ofNat 16 n

section Play

variable {table : BitVec 16 → BitVec 20} {old : BitVec 20} {n k : ℕ} {x : Core} {i : Input}

theorem ofNat_add_one (j : ℕ) : BitVec.ofNat 16 j + 1 = BitVec.ofNat 16 (j + 1) := by
  rw [BitVec.ofNat_add]
  rfl

theorem ramplen_lt_iff {j : ℕ} (hn : n < 2 ^ 16 - 1) (hj : j ≤ n) :
    BitVec.ofNat 16 n < BitVec.ofNat 16 j + 1 ↔ n < j + 1 := by
  rw [ofNat_add_one, BitVec.lt_def, BitVec.toNat_ofNat, BitVec.toNat_ofNat,
    Nat.mod_eq_of_lt (by omega), Nat.mod_eq_of_lt (by omega)]

theorem clock_past_end (hn : n < 2 ^ 16 - 1) (hi : Quiet n i) {j : ℕ}
    (phase : x.regs.state = .updateDac) (addr : x.regs.dacRdaddr = BitVec.ofNat 16 j) (hj : j = n) :
    (clock x i).regs = { x.regs with dacRden := false, state := .idle } := by
  have hend : BitVec.ofNat 16 n < x.regs.dacRdaddr + 1 := by
    rw [addr]
    exact (ramplen_lt_iff hn hj.le).mpr (by omega)
  simp only [clock, step, hi.reset, phase, hi.ramplen, Bool.false_eq_true, if_false, if_pos hend]

theorem clock_next_point (hn : n < 2 ^ 16 - 1) (hi : Quiet n i) {j : ℕ}
    (phase : x.regs.state = .updateDac) (addr : x.regs.dacRdaddr = BitVec.ofNat 16 j) (hj : j < n) :
    (clock x i).regs = ⟨.runRamp, BitVec.ofNat 16 (j + 1), true, true, x.ram.doutb⟩ := by
  have hend : ¬BitVec.ofNat 16 n < x.regs.dacRdaddr + 1 := by
    rw [addr]
    exact fun h => absurd ((ramplen_lt_iff hn hj.le).mp h) (by omega)
  simp only [clock, step, hi.reset, phase, hi.ramplen, Bool.false_eq_true, if_false, if_neg hend]
  rw [addr, ofNat_add_one]

theorem clock_ended (hi : Quiet n i) (phase : x.regs.state = .idle) :
    (clock x i).regs = { x.regs with rampActive := false } := by
  simp [clock, step, hi.reset, phase, hi.ramprun]

/-- **A clock of a ramp.** A tick is counted; none comes in UPDATE_DAC. -/
theorem view_clock (hn : n < 2 ^ 16 - 1) (hi : Quiet n i) (h : View table old n k x)
    (hspaced : x.regs.state = .updateDac → i.tenkhzTrig = false) :
    View table old n (k + if i.tenkhzTrig then 1 else 0) (clock x i) := by
  have hmem : (clock x i).ram.mem = x.ram.mem := by simp [clock, Dpram.clock, hi.dpramWe]
  cases h with
  | waits mem phase addr rden setpt le =>
    have hdout : (clock x i).ram.doutb = table (BitVec.ofNat 16 k) := by
      simp [clock, Dpram.clock, rden, addr, mem]
    cases htick : i.tenkhzTrig with
    | true =>
      refine .updates k (hmem.trans mem) ?_ ?_ hdout ?_ rfl le
      · simp [clock, step, hi.reset, phase, htick]
      · simp [clock, step, hi.reset, phase, htick, addr]
      · simp [clock, step, hi.reset, phase, htick, setpt]
    | false =>
      have hregs : (clock x i).regs = x.regs := by simp [clock, step, hi.reset, phase, htick]
      exact .waits (hmem.trans mem) (by rw [hregs, phase]) (by rw [hregs, addr]; rfl)
        (by rw [hregs, rden]) (by rw [hregs, setpt]; rfl) le
  | updates j mem phase addr dout setpt eq le =>
    rw [hspaced phase, eq]
    rw [eq] at dout
    rcases le.lt_or_eq with hj | hj
    · have hregs := clock_next_point hn hi phase addr hj
      exact .waits (hmem.trans mem) (by rw [hregs]) (by rw [hregs]; rfl) (by rw [hregs])
        (by rw [hregs, dout]; rfl) hj
    · have hregs := clock_past_end hn hi phase addr hj
      exact .ended (hmem.trans mem) (by rw [hregs]) (by rw [hregs, setpt, hj]) (by simp [hj])
  | ended mem phase setpt lt =>
    have hregs := clock_ended hi phase
    refine .ended (hmem.trans mem) (by rw [hregs, phase]) (by rw [hregs, setpt]) ?_
    split_ifs <;> omega

/-- What a clock of a ramp leaves, in terms of the ticks before it. -/
theorem clock_of_view (hn : n < 2 ^ 16 - 1) (hi : Quiet n i) (h : View table old n k x) :
    (clock x i).regs.rampDacSetpt = shown table old (min k n) ∧
      ((clock x i).regs.state = .idle ↔ n < k) := by
  cases h with
  | waits mem phase addr rden setpt le =>
    have hregs : (clock x i).regs.rampDacSetpt = x.regs.rampDacSetpt ∧
        (clock x i).regs.state ≠ .idle := by
      cases htick : i.tenkhzTrig with
      | true => simp [clock, step, hi.reset, phase, htick]
      | false => simp [clock, step, hi.reset, phase, htick]
    rw [hregs.1, setpt, Nat.min_eq_left le]
    exact ⟨rfl, fun h => absurd h hregs.2, fun h => absurd h (by omega)⟩
  | updates j mem phase addr dout setpt eq le =>
    rcases le.lt_or_eq with hj | hj
    · rw [clock_next_point hn hi phase addr hj, Nat.min_eq_left (by omega)]
      exact ⟨dout, by simp; omega⟩
    · rw [clock_past_end hn hi phase addr hj, Nat.min_eq_right (by omega)]
      exact ⟨by rw [setpt, hj], fun _ => by omega, fun _ => rfl⟩
  | ended mem phase setpt lt =>
    rw [clock_ended hi phase, Nat.min_eq_right lt.le]
    exact ⟨setpt, fun _ => lt, fun _ => phase⟩

theorem tick_of_updateDac (h : (clock x i).regs.state = .updateDac) : i.tenkhzTrig = true := by
  simp only [clock, step] at h
  by_cases hreset : i.reset = true
  · simp [hreset] at h
  · rw [if_neg hreset] at h
    cases hs : x.regs.state with
    | idle =>
      simp only [hs] at h
      split_ifs at h
    | runRamp =>
      simp only [hs] at h
      split_ifs at h with htick
      · exact htick
      · simp [hs] at h
    | updateDac =>
      simp only [hs] at h
      split_ifs at h

end Play

/-! ## A run -/

/-- A run in which a ramp of `n` points is requested at clock `t`. The 10 kHz ticks are pulses of
one clock. -/
structure Plays (x₀ : Core) (inp : ℕ → Input) (t n : ℕ) : Prop where
  length : n < 2 ^ 16 - 1
  idle : (run clock x₀ inp t).regs.state = .idle
  reset : (inp t).reset = false
  ramprun : (inp t).dacCntrl.ramprun = true
  mode : (inp t).mode = 1
  quiet : ∀ v, t < v → Quiet n (inp v)
  spaced : ∀ v, (inp v).tenkhzTrig = true → (inp (v + 1)).tenkhzTrig = false

/-- The number of ticks after clock `t` and before clock `u`. -/
def ticksFrom (inp : ℕ → Input) (t u : ℕ) : ℕ :=
  tickCount (fun k => (inp (t + 1 + k)).tenkhzTrig) (u - (t + 1))

section Run

variable {x₀ : Core} {inp : ℕ → Input} {t n : ℕ}

theorem Plays.regs_start (h : Plays x₀ inp t n) : (run clock x₀ inp (t + 1)).regs =
    ⟨.runRamp, 0, true, false, (run clock x₀ inp t).regs.rampDacSetpt⟩ := by
  simp [run_succ, clock, step, h.reset, h.idle, h.ramprun, h.mode]

/-- The machine at each clock of a ramp. -/
theorem Plays.view (h : Plays x₀ inp t n) (j : ℕ) :
    View (run clock x₀ inp (t + 1)).ram.mem (run clock x₀ inp t).regs.rampDacSetpt n
        (ticksFrom inp t (t + 1 + j)) (run clock x₀ inp (t + 1 + j)) ∧
      ((run clock x₀ inp (t + 1 + j)).regs.state = .updateDac →
        (inp (t + 1 + j)).tenkhzTrig = false) := by
  induction j with
  | zero =>
    have hregs := h.regs_start
    have hticks : ticksFrom inp t (t + 1 + 0) = 0 := by simp [ticksFrom]
    rw [hticks]
    refine ⟨.waits rfl ?_ ?_ ?_ ?_ n.zero_le, ?_⟩
    all_goals simp [hregs, shown]
  | succ j ih =>
    have hspaced := h.spaced (t + 1 + j)
    have hticks : ticksFrom inp t (t + 1 + (j + 1)) = ticksFrom inp t (t + 1 + j) +
        if (inp (t + 1 + j)).tenkhzTrig then 1 else 0 := by
      simp only [ticksFrom, Nat.add_sub_cancel_left]
      exact tickCount_succ j
    rw [hticks, ← Nat.add_assoc, run_succ]
    refine ⟨view_clock h.length (h.quiet _ (by omega)) ih.1 ih.2, ?_⟩
    intro hupd
    exact hspaced (tick_of_updateDac hupd)

/-- **Playback.** With `k` ticks between the request and the last clock, the output is the point
number `min k n` of the table, or what it was before the first, and the machine is idle exactly if
there were more than `n`. -/
theorem Plays.playback (h : Plays x₀ inp t n) (u : ℕ) (htu : t ≤ u) :
    (run clock x₀ inp (u + 1)).regs.rampDacSetpt =
        shown (run clock x₀ inp (t + 1)).ram.mem (run clock x₀ inp t).regs.rampDacSetpt
          (min (ticksFrom inp t u) n) ∧
      ((run clock x₀ inp (u + 1)).regs.state = .idle ↔ n < ticksFrom inp t u) := by
  rcases htu.eq_or_lt with rfl | hlt
  · have hticks : ticksFrom inp t t = 0 := by simp [ticksFrom]
    rw [h.regs_start, hticks, Nat.zero_min]
    exact ⟨rfl, by simp⟩
  · obtain ⟨j, rfl⟩ : ∃ j, u = t + 1 + j := ⟨u - (t + 1), by omega⟩
    exact clock_of_view h.length (h.quiet _ hlt) (h.view j).1

end Run

end Psc.RampTable
