import Psc.Dac.RampTable

/-!
# The end of a ramp table

The end test of `ramptable_ramp.vhd` adds 1 to the address, in 16 bits, and compares the sum with
`ramplen`, which software sets to any 16-bit value.

1. While a table is played, the address is the number of ticks since the request, in 16 bits and
   less one in UPDATE_DAC (`Cursor`).
2. It is `ramplen` at which the test ends a ramp. But 65535 + 1 is 0: with `ramplen` at 65535 the
   machine does not come back to IDLE (`playing_of_max`).
3. `dac_dpram` has 50000 words. A longer ramp outputs what it shows for addresses it does not have.

`playedOut_iff`: a table is played as it should be exactly if it fits the memory.
-/

namespace Psc.RampTable

open Clocked

/-- `Write_Depth_A` of `dac_dpram`. -/
def depth : ℕ := 50000

section Ramp

variable (x : ℕ → Core) (t u : ℕ)

/-- From clock `t` on and up to clock `u` the machine has not been in IDLE again. -/
def Playing : Prop := ∀ v, t < v → v ≤ u → (x v).regs.state ≠ .idle

/-- In clock `u` a word is output: the one that the memory read in the clock before. -/
def outputs : Bool := decide ((x u).regs.state = .updateDac ∧ (x (u + 1)).regs.state = .runRamp)

/-- The number of words output after clock `t` and before clock `u`. -/
def points : ℕ := tickCount (fun k => outputs x (t + 1 + k)) (u - (t + 1))

end Ramp

/-- The ramp requested at clock `t` returns to IDLE within `len + 1` ticks, outputs at most `len`
words, and none for an address that the memory does not have. -/
structure PlayedOut (x : ℕ → Core) (inp : ℕ → Input) (t len : ℕ) : Prop where
  ends : ∃ e, t < e ∧ Playing x t (e - 1) ∧ (x e).regs.state = .idle ∧
    ticksFrom inp t e ≤ len + 1
  points_le : ∀ u, Playing x t u → points x t u ≤ len
  addr : ∀ v, t < v → Playing x t (v + 2) → outputs x (v + 1) = true →
    (x v).regs.dacRdaddr.toNat < depth

/-- A run in which a ramp is requested at clock `t` in RAMP mode, with `ramplen` at `len` from then
on and no reset. The 10 kHz ticks are pulses of one clock, and keep coming. -/
structure Requested (x₀ : Core) (inp : ℕ → Input) (t : ℕ) (len : BitVec 16) : Prop where
  idle : (run clock x₀ inp t).regs.state = .idle
  ramprun : (inp t).dacCntrl.ramprun = true
  mode : (inp t).mode = 1
  reset : ∀ v, t ≤ v → (inp v).reset = false
  ramplen : ∀ v, t < v → (inp v).dacCntrl.ramplen = len
  spaced : ∀ v, (inp v).tenkhzTrig = true → (inp (v + 1)).tenkhzTrig = false
  live : ∀ n, ∃ u, n ≤ u ∧ (inp u).tenkhzTrig = true

/-! ## The address -/

/-- The machine while it plays a table, after `k` ticks and `p` words. The address is held by the
length where the sum of the end test does not wrap. -/
inductive Cursor (len : BitVec 16) (k p : ℕ) (s : State) : Prop
  | waits (phase : s.state = .runRamp) (addr : s.dacRdaddr = BitVec.ofNat 16 k)
      (rden : s.dacRden = true) (eq : p = k) (le : len.toNat < 2 ^ 16 - 1 → k ≤ len.toNat)
  | updates (phase : s.state = .updateDac) (addr : s.dacRdaddr = BitVec.ofNat 16 p)
      (rden : s.dacRden = true) (eq : k = p + 1) (le : len.toNat < 2 ^ 16 - 1 → p ≤ len.toNat)

section Clock

variable {len : BitVec 16} {k p : ℕ} {x : Core} {i : Input}

theorem len_lt_iff : len < BitVec.ofNat 16 p + 1 ↔ len.toNat < (p + 1) % 2 ^ 16 := by
  rw [ofNat_add_one, BitVec.lt_def, BitVec.toNat_ofNat]

theorem clock_updateDac (hreset : i.reset = false) (hlen : i.dacCntrl.ramplen = len)
    (phase : x.regs.state = .updateDac) (addr : x.regs.dacRdaddr = BitVec.ofNat 16 p) :
    (clock x i).regs = if len.toNat < (p + 1) % 2 ^ 16
      then { x.regs with dacRden := false, state := .idle }
      else ⟨.runRamp, BitVec.ofNat 16 (p + 1), true, true, x.ram.doutb⟩ := by
  have hend : i.dacCntrl.ramplen < x.regs.dacRdaddr + 1 ↔ len.toNat < (p + 1) % 2 ^ 16 := by
    rw [hlen, addr]
    exact len_lt_iff
  simp only [clock, step, hreset, phase, hend, Bool.false_eq_true, if_false]
  rw [addr, ofNat_add_one]

theorem clock_runRamp (hreset : i.reset = false) (phase : x.regs.state = .runRamp) :
    (clock x i).regs = if i.tenkhzTrig
      then { x.regs with rampActive := true, dacRden := true, state := .updateDac }
      else x.regs := by
  simp only [clock, step, hreset, phase, Bool.false_eq_true, if_false]

theorem addr_of_updateDac (hreset : i.reset = false)
    (h : (clock x i).regs.state = .updateDac) (hne : x.regs.state ≠ .idle) :
    x.regs.state = .runRamp ∧ (clock x i).regs.dacRdaddr = x.regs.dacRdaddr := by
  cases hs : x.regs.state with
  | idle => exact absurd hs hne
  | runRamp =>
    rw [clock_runRamp hreset hs]
    split_ifs <;> exact ⟨rfl, rfl⟩
  | updateDac =>
    simp only [clock, step, hreset, hs, Bool.false_eq_true, if_false] at h
    split_ifs at h

/-- **A clock of a table.** Unless it ends the ramp, it counts the tick and the word output. -/
theorem cursor_clock (hreset : i.reset = false) (hlen : i.dacCntrl.ramplen = len)
    (h : Cursor len k p x.regs) (hspaced : x.regs.state = .updateDac → i.tenkhzTrig = false)
    (hne : (clock x i).regs.state ≠ .idle) :
    Cursor len (k + if i.tenkhzTrig then 1 else 0)
      (p + if x.regs.state = .updateDac ∧ (clock x i).regs.state = .runRamp then 1 else 0)
      (clock x i).regs := by
  cases h with
  | waits phase addr rden eq le =>
    rw [if_neg (by simp [phase] : ¬(x.regs.state = .updateDac ∧ _)), clock_runRamp hreset phase]
    cases ht : i.tenkhzTrig with
    | true => exact .updates rfl (by rw [eq]; exact addr) rfl (by rw [eq]; rfl) (by rwa [eq])
    | false => exact .waits phase addr rden eq le
  | updates phase addr rden eq le =>
    have hregs := clock_updateDac hreset hlen phase addr
    split_ifs at hregs with hend
    · rw [hregs] at hne
      exact absurd rfl hne
    · have hout : x.regs.state = .updateDac ∧ (clock x i).regs.state = .runRamp :=
        ⟨phase, by rw [hregs]⟩
      rw [if_pos hout, hspaced phase, hregs, eq]
      refine .waits rfl rfl rfl rfl fun hlt => ?_
      show p + 1 ≤ len.toNat
      have := le hlt
      omega

theorem lt_of_ends (hreset : i.reset = false) (hlen : i.dacCntrl.ramplen = len)
    (h : Cursor len k p x.regs) (hidle : (clock x i).regs.state = .idle) :
    x.regs.state = .updateDac ∧ k = p + 1 ∧ len.toNat < (p + 1) % 2 ^ 16 := by
  cases h with
  | waits phase _ _ _ _ =>
    rw [clock_runRamp hreset phase] at hidle
    split_ifs at hidle
    cases phase.symm.trans hidle
  | updates phase addr _ eq _ =>
    refine ⟨phase, eq, ?_⟩
    have hregs := clock_updateDac hreset hlen phase addr
    split_ifs at hregs with hend
    · exact hend
    · rw [hregs] at hidle
      cases hidle

theorem le_of_outputs (hreset : i.reset = false) (hlen : i.dacCntrl.ramplen = len)
    (h : Cursor len k p x.regs) (phase : x.regs.state = .updateDac)
    (hruns : (clock x i).regs.state = .runRamp) : (p + 1) % 2 ^ 16 ≤ len.toNat := by
  cases h with
  | waits phase' _ _ _ _ => cases phase.symm.trans phase'
  | updates _ addr _ _ _ =>
    have hregs := clock_updateDac hreset hlen phase addr
    split_ifs at hregs with hend
    · rw [hregs] at hruns
      cases hruns
    · omega

end Clock

/-! ## A run -/

section Run

variable {x₀ : Core} {inp : ℕ → Input} {t u v : ℕ} {len : BitVec 16}

theorem Playing.mono {x : ℕ → Core} (h : Playing x t u) (hvu : v ≤ u) : Playing x t v :=
  fun w htw hwv => h w htw (hwv.trans hvu)

theorem outputs_iff {x : ℕ → Core} : outputs x u = true ↔
    (x u).regs.state = .updateDac ∧ (x (u + 1)).regs.state = .runRamp := decide_eq_true_iff

theorem ticksFrom_succ (htu : t < u) :
    ticksFrom inp t (u + 1) = ticksFrom inp t u + if (inp u).tenkhzTrig then 1 else 0 := by
  obtain ⟨j, rfl⟩ : ∃ j, u = t + 1 + j := ⟨u - (t + 1), by omega⟩
  unfold ticksFrom
  rw [show t + 1 + j + 1 - (t + 1) = j + 1 by omega, show t + 1 + j - (t + 1) = j by omega]
  exact tickCount_succ j

theorem ticksFrom_mono (huv : u ≤ v) : ticksFrom inp t u ≤ ticksFrom inp t v :=
  tickCount_mono (by omega)

theorem points_succ {x : ℕ → Core} (htu : t < u) :
    points x t (u + 1) = points x t u + if outputs x u then 1 else 0 := by
  obtain ⟨j, rfl⟩ : ∃ j, u = t + 1 + j := ⟨u - (t + 1), by omega⟩
  unfold points
  rw [show t + 1 + j + 1 - (t + 1) = j + 1 by omega, show t + 1 + j - (t + 1) = j by omega]
  exact tickCount_succ j

namespace Requested

variable (h : Requested x₀ inp t len)

include h

theorem regs_start : (run clock x₀ inp (t + 1)).regs =
    ⟨.runRamp, 0, true, false, (run clock x₀ inp t).regs.rampDacSetpt⟩ := by
  simp [run_succ, clock, step, h.reset t le_rfl, h.idle, h.ramprun, h.mode]

theorem not_tick (htu : t < u) (hu : (run clock x₀ inp u).regs.state = .updateDac) :
    (inp u).tenkhzTrig = false := by
  obtain ⟨w, rfl⟩ : ∃ w, u = w + 1 := ⟨u - 1, by omega⟩
  exact h.spaced w (tick_of_updateDac (x := run clock x₀ inp w) hu)

theorem cursor (htu : t < u) (hp : Playing (run clock x₀ inp) t u) :
    Cursor len (ticksFrom inp t u) (points (run clock x₀ inp) t u) (run clock x₀ inp u).regs := by
  induction u, htu using Nat.le_induction with
  | base =>
    have hticks : ticksFrom inp t (t + 1) = 0 := by simp [ticksFrom]
    have hpoints : points (run clock x₀ inp) t (t + 1) = 0 := by simp [points]
    rw [show t.succ = t + 1 from rfl, h.regs_start, hticks, hpoints]
    exact .waits rfl rfl rfl rfl fun _ => Nat.zero_le _
  | succ u htu ih =>
    have hu := ih (hp.mono u.le_succ)
    rw [ticksFrom_succ htu, points_succ htu]
    simp only [outputs_iff, run_succ]
    exact cursor_clock (h.reset u (by omega)) (h.ramplen u htu) hu (h.not_tick htu)
      (hp (u + 1) (by omega) le_rfl)

theorem playing_succ (hp : Playing (run clock x₀ inp) t u)
    (hon : t < u → ticksFrom inp t u = points (run clock x₀ inp) t u + 1 →
      (points (run clock x₀ inp) t u + 1) % 2 ^ 16 ≤ len.toNat) :
    Playing (run clock x₀ inp) t (u + 1) := by
  intro v htv hvu hidle
  rcases hvu.lt_or_eq with hlt | rfl
  · exact hp v htv (by omega) hidle
  · rcases Nat.lt_succ_iff_lt_or_eq.mp htv with htu | rfl
    · obtain ⟨-, heq, hend⟩ :=
        lt_of_ends (h.reset u (by omega)) (h.ramplen u htu) (h.cursor htu hp) hidle
      have := hon htu heq
      omega
    · rw [h.regs_start] at hidle
      cases hidle

theorem playing_of_ticks (hk : ticksFrom inp t u ≤ len.toNat) :
    Playing (run clock x₀ inp) t u := by
  induction u with
  | zero => exact fun v h1 h2 => by omega
  | succ u ih =>
    have hle := (ticksFrom_mono (Nat.le_add_right u 1)).trans hk
    refine h.playing_succ (ih hle) fun _ heq => ?_
    rw [← heq]
    exact (Nat.mod_le _ _).trans hle

/-- With `ramplen` at 65535 a ramp does not end at all. -/
theorem playing_of_max (hmax : len.toNat = 2 ^ 16 - 1) (u : ℕ) :
    Playing (run clock x₀ inp) t u := by
  induction u with
  | zero => exact fun v h1 h2 => by omega
  | succ u ih => exact h.playing_succ ih fun _ _ => by omega

/-! ### Lengths up to 65534 -/

/-- While a table is played its ticks are within the length and one more, and its words within the
length. -/
theorem bounds (hlen : len.toNat < 2 ^ 16 - 1) (htu : t < u)
    (hp : Playing (run clock x₀ inp) t u) :
    ticksFrom inp t u ≤ len.toNat + 1 ∧ points (run clock x₀ inp) t u ≤ len.toNat := by
  cases h.cursor htu hp with
  | waits _ _ _ eq le =>
    have := le hlen
    omega
  | updates _ _ _ eq le =>
    have := le hlen
    omega

theorem exists_ticksFrom (k : ℕ) : ∃ v, t < v ∧ ticksFrom inp t v = k ∧
    (inp v).tenkhzTrig = true := by
  have hlate : ∀ m, ∃ u, m ≤ u ∧ (inp (t + 1 + u)).tenkhzTrig = true := by
    intro m
    obtain ⟨u, hu, htick⟩ := h.live (t + 1 + m)
    exact ⟨u - (t + 1), by omega, by rwa [show t + 1 + (u - (t + 1)) = u by omega]⟩
  obtain ⟨j, hj, htick⟩ := exists_tickCount_eq hlate k
  refine ⟨t + 1 + j, by omega, ?_, htick⟩
  rw [← hj, ticksFrom, Nat.add_sub_cancel_left]

theorem ends (hlen : len.toNat < 2 ^ 16 - 1) :
    ∃ e, t < e ∧ Playing (run clock x₀ inp) t (e - 1) ∧ (run clock x₀ inp e).regs.state = .idle ∧
      ticksFrom inp t e ≤ len.toNat + 1 := by
  have hex : ∃ e, t < e ∧ (run clock x₀ inp e).regs.state = .idle := by
    by_contra hnone
    push Not at hnone
    obtain ⟨v, htv, hticks, -⟩ := h.exists_ticksFrom (len.toNat + 2)
    obtain ⟨hle, -⟩ := h.bounds hlen htv fun w htw _ => hnone w htw
    omega
  classical
  obtain ⟨hte, hidle⟩ := Nat.find_spec hex
  have hmin : Playing (run clock x₀ inp) t (Nat.find hex - 1) :=
    fun v htv hve hv => Nat.find_min hex (by omega : v < Nat.find hex) ⟨htv, hv⟩
  generalize Nat.find hex = e at *
  refine ⟨e, hte, hmin, hidle, ?_⟩
  obtain ⟨w, rfl⟩ : ∃ w, e = w + 1 := ⟨e - 1, by omega⟩
  rcases Nat.lt_succ_iff_lt_or_eq.mp hte with htw | rfl
  · obtain ⟨hupd, -, -⟩ :=
      lt_of_ends (h.reset w (by omega)) (h.ramplen w htw) (h.cursor htw hmin) hidle
    rw [ticksFrom_succ htw, h.not_tick htw hupd]
    exact (h.bounds hlen htw hmin).1
  · rw [h.regs_start] at hidle
    cases hidle

theorem addr_lt (hlen : len.toNat < 2 ^ 16 - 1) (htv : t < v)
    (hp : Playing (run clock x₀ inp) t (v + 2)) (hout : outputs (run clock x₀ inp) (v + 1) = true) :
    (run clock x₀ inp v).regs.dacRdaddr.toNat < len.toNat := by
  obtain ⟨hupd, hruns⟩ := outputs_iff.mp hout
  obtain ⟨-, haddr⟩ := addr_of_updateDac (x := run clock x₀ inp v) (h.reset v (by omega)) hupd
    (hp v htv (by omega))
  have hcur := h.cursor (by omega : t < v + 1) (hp.mono (by omega))
  have hle := le_of_outputs (h.reset (v + 1) (by omega)) (h.ramplen (v + 1) (by omega)) hcur hupd
    hruns
  rw [← haddr, ← run_succ clock x₀ inp v]
  cases hcur with
  | waits phase _ _ _ _ => cases phase.symm.trans hupd
  | updates _ addr _ _ le =>
    have := le hlen
    rw [addr, BitVec.toNat_ofNat]
    omega

/-! ### Lengths past the memory -/

/-- A ramp longer than the memory outputs what the memory shows for the address after its last. -/
theorem outputs_depth (hlen : depth < len.toNat) : ∃ v, t < v ∧
    Playing (run clock x₀ inp) t (v + 2) ∧ outputs (run clock x₀ inp) (v + 1) = true ∧
      (run clock x₀ inp v).regs.dacRdaddr.toNat = depth := by
  obtain ⟨v, htv, hticks, htick⟩ := h.exists_ticksFrom depth
  have hticks₁ : ticksFrom inp t (v + 1) = depth + 1 := by
    rw [ticksFrom_succ htv, htick, hticks]
    rfl
  have hticks₂ : ticksFrom inp t (v + 2) = depth + 1 := by
    rw [ticksFrom_succ (by omega : t < v + 1), h.spaced v htick, hticks₁]
    rfl
  have hp : Playing (run clock x₀ inp) t (v + 2) := h.playing_of_ticks (by omega)
  refine ⟨v, htv, hp, ?_⟩
  cases h.cursor htv (hp.mono (by omega)) with
  | updates phase _ _ _ _ => cases (h.not_tick htv phase).symm.trans htick
  | waits phase addr _ _ _ =>
    have hupd : (run clock x₀ inp (v + 1)).regs.state = .updateDac := by
      rw [run_succ, clock_runRamp (h.reset v (by omega)) phase, if_pos htick]
    have hruns : (run clock x₀ inp (v + 2)).regs.state = .runRamp := by
      cases h.cursor (by omega : t < v + 2) hp with
      | waits phase' _ _ _ _ => exact phase'
      | updates phase' _ _ _ _ =>
        have := tick_of_updateDac (x := run clock x₀ inp (v + 1)) phase'
        cases (h.spaced v htick).symm.trans this
    refine ⟨outputs_iff.mpr ⟨hupd, hruns⟩, ?_⟩
    rw [addr, hticks]
    rfl

end Requested

end Run

/-- **A ramp plays out** exactly if it is no longer than the memory. -/
theorem playedOut_iff (x₀ : Core) (inp : ℕ → Input) (t : ℕ) (len : BitVec 16)
    (h : Requested x₀ inp t len) :
    PlayedOut (run clock x₀ inp) inp t len.toNat ↔ len.toNat ≤ 50000 := by
  constructor
  · intro hplayed
    by_contra hlong
    obtain ⟨v, htv, hp, hout, haddr⟩ := h.outputs_depth (not_le.mp hlong)
    exact absurd (hplayed.addr v htv hp hout) (by omega)
  · intro hle
    have hlen : len.toNat < 2 ^ 16 - 1 := by omega
    refine ⟨h.ends hlen, ?_, ?_⟩
    · intro u hp
      rcases Nat.lt_or_ge t u with htu | hge
      · exact (h.bounds hlen htu hp).2
      · have hzero : points (run clock x₀ inp) t u = 0 := by
          rw [points, show u - (t + 1) = 0 by omega, tickCount_zero]
        omega
    · intro v htv hp hout
      exact (h.addr_lt hlen htv hp hout).trans_le hle

/-! ### Runs -/

/-- The machine and its memory at rest. -/
def restCore : Core := ⟨⟨.idle, 0, false, false, 0⟩, ⟨fun _ => 0, 0⟩⟩

/-- A request at clock 0 in RAMP mode with the length `len`, and a tick on every third clock. -/
def requestRun (len : BitVec 16) (n : ℕ) : Input where
  reset := false
  tenkhzTrig := n % 3 == 1
  mode := 1
  dacCntrl := ⟨0, n == 0, len, 0, 0, 0, 0, 0, 0, false, false, 1⟩

theorem requested_requestRun (len : BitVec 16) : Requested restCore (requestRun len) 0 len where
  idle := rfl
  ramprun := rfl
  mode := rfl
  reset _ _ := rfl
  ramplen _ _ := rfl
  spaced v hv := by
    simp only [requestRun, beq_iff_eq] at hv
    simp only [requestRun, beq_eq_false_iff_ne]
    omega
  live n := ⟨3 * n + 1, by omega, by simp [requestRun, Nat.add_mod]⟩

/-- A ramp that fills the memory plays out. -/
theorem fullTable_playedOut :
    PlayedOut (run clock restCore (requestRun 50000)) (requestRun 50000) 0 50000 :=
  (playedOut_iff _ _ _ _ (requested_requestRun 50000)).mpr le_rfl

/-- The ramp of length 65535 does not end, and one point more than the memory has is enough to read
past it. -/
theorem longRamps_not_playedOut :
    (∀ u, 0 < u → (run clock restCore (requestRun 65535) u).regs.state ≠ .idle) ∧
      ¬PlayedOut (run clock restCore (requestRun 65535)) (requestRun 65535) 0 65535 ∧
      ¬PlayedOut (run clock restCore (requestRun 50001)) (requestRun 50001) 0 50001 := by
  have hnever : ∀ u, 0 < u → (run clock restCore (requestRun 65535) u).regs.state ≠ .idle :=
    fun u hu => (requested_requestRun 65535).playing_of_max rfl u u hu le_rfl
  refine ⟨hnever, fun hplayed => ?_, fun hplayed => ?_⟩
  · obtain ⟨e, he, -, hidle, -⟩ := hplayed.ends
    exact hnever e he hidle
  · obtain ⟨v, hv, hp, hout, haddr⟩ := (requested_requestRun 50001).outputs_depth (by decide)
    exact absurd (hplayed.addr v hv hp hout) (by omega)

end Psc.RampTable
