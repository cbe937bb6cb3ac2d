import Psc.Dac.Ad5781

/-!
# The frames of the DAC

What the AD5781 receives in a run of its serialiser from a reset.

1. `transfer_sends_two_frames`: after the initial transfer a start in IDLE sends the word of the
   control register and the word of the setpoint, each with its 24 bits.
2. `initialisation_follows_iff`: the initial transfer sends the word that sets RESET, and then the
   setpoint. `init_count` counts the frames, of which a start sends two, so the word that clears
   RESET is never sent.
-/

namespace Psc.Ad5781

open Clocked Spi

/-- A run from a reset in clock 0, with `reset` low before clock `u`. -/
structure FromReset (inp : ℕ → Input) (u : ℕ) : Prop where
  reset : (inp 0).reset = true
  low : ∀ n, 0 < n → n < u → (inp n).reset = false

/-- The lines in clock `n`. -/
def wave (p : Generics) (s : State) (inp : ℕ → Input) (n : ℕ) : Lines :=
  lines (run (step p) s inp n).fsm

/-- A start in clock `t`, in IDLE. -/
structure Accepted (p : Generics) (s : State) (inp : ℕ → Input) (t : ℕ) : Prop where
  pos : 0 < t
  idle : (run (step p) s inp t).fsm.presentState = .idle
  start : (inp t).start = true

/-- The clocks of a transfer. -/
def transferClocks (p : Generics) : ℕ := 5 + 5 * p.syncWidth + 98 * p.spiClkDiv

/-- The initial transfer has been started, and its frames are counted. -/
def Counted (s : Fsm) : Prop :=
  match s.presentState with
  | .idle | .waitSyncLow | .sendCtrlReg => s.initCount = 2
  | .dacDone => 1 ≤ s.initCount ∧ s.initCount ≤ 2 ∧ (s.setpointSent = true → s.initCount = 2)
  | .sendSetpoint => 1 ≤ s.initCount ∧ s.initCount ≤ 2
  | _ => s.initCount ≤ 2 ∧ (s.setpointSent = true → 1 ≤ s.initCount)

/-- The initial transfer is yet to be started. -/
structure Fresh (s : Fsm) : Prop where
  idle : s.presentState = .idle
  initCount : s.initCount = 0
  setpointSent : s.setpointSent = false

theorem counted_fsm {p : Generics} {g : InputRegs} {s : Fsm} {i : Input} (hr : i.reset = false)
    (h : Counted s) : Counted (fsm p g s i) := by
  unfold fsm
  rw [if_neg (by simp [hr])]
  cases hs : s.presentState with
  | idle =>
    simp only [Counted, hs] at h
    dsimp only
    cases hstart : i.start with
    | true =>
      rw [if_pos rfl, if_neg (by omega), if_neg (by omega)]
      exact h
    | false => simpa only [Bool.false_eq_true, if_false, Counted, hs] using h
  | sendCtrlReg =>
    simp only [Counted, hs] at h
    exact ⟨h.le, fun hsent => absurd hsent (by simp)⟩
  | sendSetpoint =>
    simp only [Counted, hs] at h
    exact ⟨h.2, fun _ => h.1⟩
  | nSyncZero =>
    simp only [Counted, hs] at h
    dsimp only
    split_ifs
    · exact h
    · simpa only [Counted, hs] using h
  | firstBit =>
    simp only [Counted, hs] at h
    dsimp only
    split_ifs
    · exact h
    · simpa only [Counted, hs] using h
  | sclkLo =>
    simp only [Counted, hs] at h
    dsimp only
    split_ifs
    · exact h
    · simpa only [Counted, hs] using h
  | sclkHi =>
    simp only [Counted, hs] at h
    obtain ⟨hle, hpos⟩ := h
    dsimp only
    split_ifs with hend hlast htwo
    · exact ⟨one_le_two, le_rfl, fun _ => rfl⟩
    · refine ⟨Nat.le_add_left 1 _, ?_, fun hsent => ?_⟩
      · show s.initCount + 1 ≤ 2
        omega
      · have := hpos hsent
        show s.initCount + 1 = 2
        omega
    · exact ⟨hle, hpos⟩
    · simpa only [Counted, hs] using ⟨hle, hpos⟩
  | dacDone =>
    simp only [Counted, hs] at h
    obtain ⟨hpos, hle, hsent⟩ := h
    dsimp only
    split_ifs with hend hs'
    · exact hsent hs'
    · exact ⟨hpos, hle⟩
    · simpa only [Counted, hs] using ⟨hpos, hle, hsent⟩
  | waitSyncLow =>
    simp only [Counted, hs] at h
    dsimp only
    split_ifs
    · exact h
    · simpa only [Counted, hs] using h

theorem fresh_fsm {p : Generics} {g : InputRegs} {s : Fsm} {i : Input} (hr : i.reset = false)
    (hstart : i.start = false) (h : Fresh s) : Fresh (fsm p g s i) := by
  obtain ⟨hs, h0, hsent⟩ := h
  have hfsm : fsm p g s i = { s with done := false } := by simp [fsm, hr, hs, hstart]
  rw [hfsm]
  exact ⟨hs, h0, hsent⟩

theorem fsm_first_start {p : Generics} {g : InputRegs} {s : Fsm} {i : Input} (hr : i.reset = false)
    (hstart : i.start = true) (h : Fresh s) :
    fsm p g s i =
      { s with
        done := false, nSync := true, shiftReg := resetWord, presentState := .nSyncZero } := by
  obtain ⟨hs, h0, -⟩ := h
  simp [fsm, hr, hs, hstart, h0]

/-! ## Runs -/

section Run

variable {p : Generics} {s : State} {inp : ℕ → Input} {t u : ℕ} {c d : BitVec 24}

theorem fsm_run_succ (n : ℕ) : (run (step p) s inp (n + 1)).fsm =
    fsm p (run (step p) s inp n).regs (run (step p) s inp n).fsm (inp n) := rfl

theorem slave_wave_succ (n : ℕ) : slave (wave p s inp) (n + 1) =
    seen p (run (step p) s inp n).regs (run (step p) s inp n).fsm (inp n)
      (slave (wave p s inp) n) := rfl

theorem sample_run {n : ℕ} (hr : (inp n).reset = false) : (run (step p) s inp (n + 1)).regs =
    .of (inp n).dacData (inp n).dacCtrlBits := by
  rw [run_succ, step]
  dsimp only
  rw [sample, if_neg (by simp [hr])]

theorem run_remaining (h : InOrder p (run (step p) s inp t).fsm (slave (wave p s inp) t))
    (hr : ∀ n, t ≤ n → n < u → (inp n).reset = false) :
    ∀ k ≤ remaining p (run (step p) s inp t).fsm, t + k ≤ u →
      InOrder p (run (step p) s inp (t + k)).fsm (slave (wave p s inp) (t + k)) ∧
      remaining p (run (step p) s inp (t + k)).fsm + k =
        remaining p (run (step p) s inp t).fsm := by
  intro k
  induction k with
  | zero => exact fun _ _ => ⟨h, rfl⟩
  | succ k ih =>
    intro hk hu
    obtain ⟨hord, hleft⟩ := ih (by omega) (by omega)
    have hidle : (run (step p) s inp (t + k)).fsm.presentState ≠ .idle := by
      rw [Ne, ← remaining_eq_zero_iff hord]
      omega
    have hadv := @step_promised p (run (step p) s inp (t + k)).regs _ _ _ _ _ hidle
      (hr (t + k) (by omega) (by omega)) hord (fun _ => rfl) fun _ => rfl
    rw [← Nat.add_assoc, fsm_run_succ, slave_wave_succ]
    exact ⟨hadv.inOrder, by have := hadv.remaining; omega⟩

/-- **A transfer sends what it promises.** -/
theorem run_promised (h : InOrder p (run (step p) s inp t).fsm (slave (wave p s inp) t))
    (hr : ∀ n, t ≤ n → n < u → (inp n).reset = false)
    (hc : ∀ n, t ≤ n → n < u → (run (step p) s inp n).fsm.presentState = .sendCtrlReg →
      ctrlRegWord (run (step p) s inp n).regs = c)
    (hd : ∀ n, t ≤ n → n < u → (run (step p) s inp n).fsm.presentState = .sendSetpoint →
      setpointWord (run (step p) s inp n).regs = d) :
    ∀ k ≤ remaining p (run (step p) s inp t).fsm, t + k ≤ u →
      promised c d (run (step p) s inp (t + k)).fsm (slave (wave p s inp) (t + k)) =
        promised c d (run (step p) s inp t).fsm (slave (wave p s inp) t) := by
  intro k
  induction k with
  | zero => exact fun _ _ => rfl
  | succ k ih =>
    intro hk hu
    obtain ⟨hord, hleft⟩ := run_remaining h hr k (by omega) (by omega)
    have hidle : (run (step p) s inp (t + k)).fsm.presentState ≠ .idle := by
      rw [Ne, ← remaining_eq_zero_iff hord]
      omega
    have hadv := step_promised hidle (hr (t + k) (by omega) (by omega)) hord
      (hc (t + k) (by omega) (by omega)) (hd (t + k) (by omega) (by omega))
    rw [← Nat.add_assoc, fsm_run_succ, slave_wave_succ]
    exact hadv.promised.trans (ih (by omega) (by omega))

theorem inOrder_succ {n : ℕ} (hr : (inp n).reset = false)
    (h : InOrder p (run (step p) s inp n).fsm (slave (wave p s inp) n)) :
    InOrder p (run (step p) s inp (n + 1)).fsm (slave (wave p s inp) (n + 1)) := by
  rw [fsm_run_succ, slave_wave_succ]
  by_cases hidle : (run (step p) s inp n).fsm.presentState = .idle
  · cases hstart : (inp n).start with
    | true => exact (inOrder_start hidle hr hstart h).1
    | false => exact (idle_of_not_start hidle hr hstart h).2.1
  · exact (step_promised hidle hr h (fun _ => rfl) fun _ => rfl).inOrder

theorem inOrder_run (h : FromReset inp u) : ∀ n, 0 < n → n ≤ u →
    InOrder p (run (step p) s inp n).fsm (slave (wave p s inp) n) := by
  intro n hpos
  induction n, hpos using Nat.le_induction with
  | base =>
    intro _
    rw [fsm_run_succ, fsm, if_pos h.reset]
    exact ⟨rfl, rfl⟩
  | succ n hn ih => exact fun hu => inOrder_succ (h.low n hn (by omega)) (ih (by omega))

/-- Until the first start nothing is sent. -/
theorem fresh_run (h : FromReset inp u) : ∀ n, 0 < n → n ≤ u →
    (∀ m, 0 < m → m < n → (inp m).start = false) →
    Fresh (run (step p) s inp n).fsm ∧ frames (wave p s inp) n = [] := by
  intro n hpos
  induction n, hpos using Nat.le_induction with
  | base =>
    intro _ _
    have hsync : (wave p s inp 1).nSync = true := by
      rw [wave, fsm_run_succ, fsm, if_pos h.reset]
      rfl
    refine ⟨?_, ?_⟩
    · rw [fsm_run_succ, fsm, if_pos h.reset]
      exact ⟨rfl, rfl, rfl⟩
    · rw [frames, slave_succ, Slave.observe_of_nSync hsync]
      rfl
  | succ n hn ih =>
    intro hu hnone
    obtain ⟨hfresh, hframes⟩ := ih (by omega) fun m h0 hm => hnone m h0 (by omega)
    have hstart := hnone n hn n.lt_succ_self
    have hr := h.low n hn (by omega)
    obtain ⟨-, -, hkept⟩ := @idle_of_not_start p (run (step p) s inp n).regs _ _ _ hfresh.idle hr
      hstart (inOrder_run h n hn (by omega))
    refine ⟨?_, ?_⟩
    · rw [fsm_run_succ]
      exact fresh_fsm hr hstart hfresh
    · rw [frames, slave_wave_succ, hkept]
      exact hframes

/-- After an accepted start the frames are counted. -/
theorem counted_run (h : FromReset inp u) (ht : Accepted p s inp t) :
    ∀ n, t < n → n ≤ u → Counted (run (step p) s inp n).fsm := by
  have hearlier : ∀ n, 0 < n → n ≤ u →
      Counted (run (step p) s inp n).fsm ∨ ∀ m, 0 < m → m < n → (inp m).start = false := by
    intro n hpos
    induction n, hpos using Nat.le_induction with
    | base => exact fun _ => .inr fun m h0 hm => by omega
    | succ n hn ih =>
      intro hu
      have hr := h.low n hn (by omega)
      rcases ih (by omega) with hc | hnone
      · rw [fsm_run_succ]
        exact .inl (counted_fsm hr hc)
      · cases hstart : (inp n).start with
        | true =>
          obtain ⟨hfresh, -⟩ := @fresh_run p s inp u h n hn (by omega) hnone
          left
          rw [fsm_run_succ, fsm_first_start hr hstart hfresh]
          refine ⟨?_, fun hsent => ?_⟩
          · show (run (step p) s inp n).fsm.initCount ≤ 2
            rw [hfresh.initCount]
            omega
          · exact absurd (hfresh.setpointSent.symm.trans hsent) (by simp)
        | false =>
          right
          intro m h0 hm
          rcases Nat.lt_succ_iff_lt_or_eq.mp hm with hlt | rfl
          · exact hnone m h0 hlt
          · exact hstart
  intro n htn hu
  rcases hearlier n (by omega) hu with hc | hnone
  · exact hc
  · have hno := hnone t ht.pos htn
    rw [ht.start] at hno
    exact absurd hno (by simp)

/-- The setpoint is loaded with the clocks of its frame, and one, to go. -/
theorem sendSetpoint_of_remaining {f : Fsm} {r : Slave} (h : InOrder p f r)
    (hleft : remaining p f = 1 + frameClocks p + p.syncWidth) : f.presentState = .sendSetpoint := by
  have hle : ∀ k ≤ 47, k * p.spiClkDiv ≤ 47 * p.spiClkDiv := fun k hk => Nat.mul_le_mul_right _ hk
  have hsw := p.syncWidth_pos
  cases hs : f.presentState with
  | sendSetpoint => rfl
  | idle | waitSyncLow | sendCtrlReg =>
    simp only [remaining, frameClocks, hs] at hleft
    omega
  | nSyncZero | firstBit | dacDone =>
    simp only [InOrder, hs] at h
    simp only [remaining, frameLeft, restLeft, frameClocks, hs] at hleft
    split_ifs at hleft <;> omega
  | sclkLo =>
    simp only [InOrder, bits, hs] at h
    have := hle (2 * (24 - f.bitCount) + 1) (by omega)
    simp only [remaining, frameLeft, restLeft, frameClocks, hs] at hleft
    split_ifs at hleft <;> omega
  | sclkHi =>
    simp only [InOrder, bits, hs] at h
    have := hle (2 * (24 - f.bitCount)) (by omega)
    simp only [remaining, frameLeft, restLeft, frameClocks, hs] at hleft
    split_ifs at hleft <;> omega

/-- While `sclk` falls, `sdo` keeps its value. -/
theorem sdo_of_falls {n : ℕ} (hr : (inp n).reset = false)
    (h : Falls (wave p s inp n) (wave p s inp (n + 1))) :
    (wave p s inp (n + 1)).sdo = (wave p s inp n).sdo := by
  have hshift : (fsm p (run (step p) s inp n).regs (run (step p) s inp n).fsm (inp n)).shiftReg =
      (run (step p) s inp n).fsm.shiftReg := by
    obtain ⟨hhi, hlo⟩ := h
    simp only [wave, lines, fsm_run_succ] at hhi hlo
    generalize (run (step p) s inp n).fsm = f at *
    generalize (run (step p) s inp n).regs = g at *
    unfold fsm at hlo ⊢
    rw [if_neg (by simp [hr])] at hlo ⊢
    cases hs : f.presentState with
    | sendCtrlReg | sendSetpoint =>
      rw [hs] at hlo
      exact absurd (hhi.symm.trans hlo) (by simp)
    | _ =>
      rw [hs] at hlo
      dsimp only at hlo ⊢
      split_ifs at hlo ⊢ <;> simp_all
  simp only [wave, lines, fsm_run_succ, hshift]

/-- Starts outside IDLE are not looked at. -/
theorem run_congr_start {inp' : ℕ → Input}
    (hsame : ∀ n, inp' n = { inp n with start := (inp' n).start })
    (hidle : ∀ n, (run (step p) s inp n).fsm.presentState = .idle →
      (inp' n).start = (inp n).start) (n : ℕ) :
    run (step p) s inp' n = run (step p) s inp n := by
  induction n with
  | zero => rfl
  | succ n ih =>
    rw [run_succ, run_succ, ih]
    have hsame := hsame n
    have hidle := hidle n
    generalize run (step p) s inp n = x at *
    generalize (inp' n).start = b at *
    rw [hsame]
    unfold step
    congr 1
    unfold fsm
    dsimp only
    cases hs : x.fsm.presentState with
    | idle => rw [hidle hs]
    | _ => rfl

end Run

/-! ## The initial transfer -/

/-- The clocks of the initial transfer, after its start. -/
def initialClocks (p : Generics) : ℕ := 2 * frameClocks p + 1 + p.syncWidth

/-- The first start after the reset, in clock `t`. -/
structure FirstStart (inp : ℕ → Input) (t : ℕ) : Prop where
  pos : 0 < t
  start : (inp t).start = true
  none : ∀ m, 0 < m → m < t → (inp m).start = false

/-- The registers when an initial transfer, started in clock `t`, loads its setpoint. -/
def loaded (p : Generics) (s : State) (inp : ℕ → Input) (t : ℕ) : InputRegs :=
  (run (step p) s inp (t + 1 + frameClocks p)).regs

/-- The first start promises the word that sets RESET and, in the same transfer, the setpoint. -/
theorem initial_transfer {p : Generics} {s : State} {inp : ℕ → Input} {t u k : ℕ}
    (h : FromReset inp u) (ht : FirstStart inp t) (hk : k ≤ initialClocks p) (hu : t + 1 + k ≤ u)
    (c : BitVec 24) :
    InOrder p (run (step p) s inp (t + 1 + k)).fsm (slave (wave p s inp) (t + 1 + k)) ∧
      remaining p (run (step p) s inp (t + 1 + k)).fsm + k = initialClocks p ∧
      promised c (setpointWord (loaded p s inp t)) (run (step p) s inp (t + 1 + k)).fsm
        (slave (wave p s inp) (t + 1 + k)) =
        [wordBits resetWord, wordBits (setpointWord (loaded p s inp t))] := by
  obtain ⟨hfresh, hnone⟩ := @fresh_run p s inp u h t ht.pos (by omega) ht.none
  have hr : ∀ n, t + 1 ≤ n → n < u → (inp n).reset = false :=
    fun n hn hu => h.low n (by omega) hu
  have hfsm : (run (step p) s inp (t + 1)).fsm = { (run (step p) s inp t).fsm with
      done := false, nSync := true, shiftReg := resetWord, presentState := .nSyncZero } := by
    rw [fsm_run_succ]
    exact fsm_first_start (h.low t ht.pos (by omega)) ht.start hfresh
  have hord := @inOrder_run p s inp _ h (t + 1) (by omega) (by omega)
  have hslave : slave (wave p s inp) (t + 1) = ⟨[], []⟩ := by
    have hsync : (wave p s inp (t + 1)).nSync = true := by rw [wave, hfsm]; rfl
    have hseen := @Slave.observe_of_nSync (slave (wave p s inp) t) (wave p s inp t) _ hsync
    rw [show (slave (wave p s inp) t).frames = [] from hnone] at hseen
    exact hseen
  have hclk : (run (step p) s inp t).fsm.clkCount = 0 := by
    have hord' := @inOrder_run p s inp _ h t ht.pos (by omega)
    rw [InOrder, hfresh.idle] at hord'
    exact hord'.1
  have hleft : remaining p (run (step p) s inp (t + 1)).fsm = initialClocks p := by
    rw [hfsm]
    simp only [remaining, frameLeft, restLeft, hfresh.setpointSent, hclk, initialClocks,
      frameClocks]
    simp
    omega
  have hrun := run_remaining hord hr
  rw [hleft] at hrun
  obtain ⟨hord', hleft'⟩ := hrun k hk hu
  refine ⟨hord', hleft', ?_⟩
  rw [run_promised hord (fun n hn hnk => hr n hn (by omega : n < u)) ?_ ?_ k (by omega) le_rfl,
    hfsm, hslave]
  · simp [promised, unsent, rest, hfresh.setpointSent]
  -- the control register is not loaded, and the setpoint in one clock only
  · intro n hn hnk hs
    obtain ⟨j, rfl⟩ := Nat.exists_eq_add_of_le hn
    obtain ⟨-, hj⟩ := hrun j (by omega) (by omega)
    simp only [remaining, hs, initialClocks] at hj
    omega
  · intro n hn hnk hs
    obtain ⟨j, rfl⟩ := Nat.exists_eq_add_of_le hn
    obtain ⟨-, hj⟩ := hrun j (by omega) (by omega)
    simp only [remaining, hs, initialClocks] at hj
    rw [show j = frameClocks p by omega]
    rfl

theorem initial_transfer_ends {p : Generics} {s : State} {inp : ℕ → Input} {t : ℕ}
    (h : FromReset inp (t + 1 + initialClocks p)) (ht : FirstStart inp t) :
    (run (step p) s inp (t + 1 + initialClocks p)).fsm.presentState = .idle ∧
      frames (wave p s inp) (t + 1 + initialClocks p) =
        [wordBits resetWord, wordBits (setpointWord (loaded p s inp t))] := by
  obtain ⟨hord, hleft, hprom⟩ := @initial_transfer p s inp t _ _ h ht le_rfl le_rfl 0
  have hidle := (remaining_eq_zero_iff hord).mp (by omega)
  rw [promised, hidle] at hprom
  exact ⟨hidle, hprom⟩

/-- The generics of the DAC channels. -/
def channel : Generics := ⟨5, 10, Nat.le_add_left 1 4, by decide, by decide, by decide⟩

/-- A reset, and then a start in every clock, with the inputs held. -/
def startsAlways (d : BitVec 20) (b : BitVec 5) (n : ℕ) : Input := ⟨n == 0, true, d, b⟩

/-- The registers at configuration. -/
def restState : State where
  regs := .of 0 0
  fsm := resetFsm ⟨.idle, 0, false, 0, 0, false, false, 0, false⟩

theorem fromReset_startsAlways (d : BitVec 20) (b : BitVec 5) (u : ℕ) :
    FromReset (startsAlways d b) u :=
  ⟨rfl, fun _ hn _ => beq_false_of_ne hn.ne'⟩

theorem firstStart_startsAlways (d : BitVec 20) (b : BitVec 5) : FirstStart (startsAlways d b) 1 :=
  ⟨Nat.one_pos, rfl, fun m h0 hm => by omega⟩

/-! ## Transfers -/

/-- **A transfer.** After the initial transfer, a start in IDLE sends two frames, the word of the
control register and the word of the setpoint, with `n_sync` high between them and the bits steady
at the edges; starts in between change nothing, and the machine ends in IDLE. -/
theorem transfer_sends_two_frames (p : Generics) (s : State) (inp : ℕ → Input) {t₀ t : ℕ}
    {d : BitVec 20} {b : BitVec 5} (h : FromReset inp (t + transferClocks p))
    (hfirst : Accepted p s inp t₀) (hlt : t₀ < t) (ht : Accepted p s inp t)
    (hheld : ∀ n, t ≤ n → n < t + transferClocks p →
      (inp n).dacData = d ∧ (inp n).dacCtrlBits = b) :
    frames (wave p s inp) (t + transferClocks p) = frames (wave p s inp) t ++
      [wordBits (ctrlRegWord (.of d b)), wordBits (setpointWord (.of d b))] ∧
    (∃ m, t < m ∧ m < t + transferClocks p ∧ (wave p s inp m).nSync = true ∧
      frames (wave p s inp) m = frames (wave p s inp) t ++ [wordBits (ctrlRegWord (.of d b))]) ∧
    (∀ n, t ≤ n → n < t + transferClocks p → Falls (wave p s inp n) (wave p s inp (n + 1)) →
      (wave p s inp (n + 1)).sdo = (wave p s inp n).sdo) ∧
    (∀ inp' : ℕ → Input, (∀ n, inp' n = { inp n with start := (inp' n).start }) →
      (∀ n, (run (step p) s inp n).fsm.presentState = .idle → (inp' n).start = (inp n).start) →
      ∀ n, run (step p) s inp' n = run (step p) s inp n) ∧
    (∀ n, t < n → n < t + transferClocks p →
      (run (step p) s inp n).fsm.presentState ≠ .idle) ∧
    (run (step p) s inp (t + transferClocks p)).fsm.presentState = .idle := by
  have hr : ∀ n, t ≤ n → n < t + transferClocks p → (inp n).reset = false :=
    fun n hn hu => h.low n (by have := ht.pos; omega) hu
  have hlen : 1 < transferClocks p := by unfold transferClocks; omega
  -- the start: the initial transfer is over, so the control register comes first
  have hcount := counted_run h hfirst t hlt (by omega)
  rw [Counted, ht.idle] at hcount
  have hstart : (run (step p) s inp (t + 1)).fsm = { (run (step p) s inp t).fsm with
      done := false, nSync := true, presentState := .sendCtrlReg } := by
    rw [fsm_run_succ]
    simp [fsm, hr t le_rfl (by omega), ht.idle, ht.start, hcount]
  have hseen : slave (wave p s inp) (t + 1) = ⟨frames (wave p s inp) t, []⟩ := by
    have hsync : (wave p s inp (t + 1)).nSync = true := by rw [wave, hstart]; rfl
    exact Slave.observe_of_nSync hsync
  have hord := @inOrder_run p s inp _ h (t + 1) (by omega) (by omega)
  have hregs : ∀ n, t + 1 ≤ n → n < t + transferClocks p →
      (run (step p) s inp n).regs = .of d b := by
    intro n hn hu
    obtain ⟨k, rfl⟩ : ∃ k, n = k + 1 := ⟨n - 1, by omega⟩
    obtain ⟨hd, hb⟩ := hheld k (by omega) (by omega)
    rw [sample_run (hr k (by omega) (by omega)), hd, hb]
  -- what the transfer promises, and when it ends
  have hleft : remaining p (run (step p) s inp (t + 1)).fsm + 1 = transferClocks p := by
    rw [hstart]
    simp only [remaining, frameClocks, transferClocks]
    omega
  have hrun := run_remaining hord fun n hn hu => hr n (by omega) hu
  have hsent := @run_promised p s inp (t + 1) (t + transferClocks p)
    (ctrlRegWord (.of d b)) (setpointWord (.of d b)) hord (fun n hn hu => hr n (by omega) hu)
    (fun n hn hu _ => by rw [hregs n hn hu]) (fun n hn hu _ => by rw [hregs n hn hu])
  have hprom : promised (ctrlRegWord (.of d b)) (setpointWord (.of d b))
      (run (step p) s inp (t + 1)).fsm (slave (wave p s inp) (t + 1)) = frames (wave p s inp) t ++
        [wordBits (ctrlRegWord (.of d b)), wordBits (setpointWord (.of d b))] := by
    rw [hstart, hseen]
    rfl
  have hend : (run (step p) s inp (t + transferClocks p)).fsm.presentState = .idle := by
    obtain ⟨hord', hleft'⟩ := hrun (transferClocks p - 1) (by omega) (by omega)
    rw [show t + 1 + (transferClocks p - 1) = t + transferClocks p by omega] at hord' hleft'
    exact (remaining_eq_zero_iff hord').mp (by omega)
  refine ⟨?_, ?_, ?_, fun inp' hsame hidle => run_congr_start hsame hidle, ?_, hend⟩
  · have hprom' := hsent (transferClocks p - 1) (by omega) (by omega)
    rw [show t + 1 + (transferClocks p - 1) = t + transferClocks p by omega, hprom, promised,
      hend] at hprom'
    exact hprom'
  · refine ⟨t + 1 + (1 + frameClocks p), by omega, ?_, ?_⟩
    · unfold frameClocks transferClocks
      omega
    · have hk : 1 + frameClocks p + (1 + frameClocks p + p.syncWidth) + 1 = transferClocks p := by
        unfold frameClocks transferClocks
        omega
      obtain ⟨hord', hleft'⟩ := hrun (1 + frameClocks p) (by omega) (by omega)
      have hprom' := hsent (1 + frameClocks p) (by omega) (by omega)
      have hs := sendSetpoint_of_remaining hord' (by omega)
      rw [InOrder, hs] at hord'
      rw [hprom, promised, hs] at hprom'
      refine ⟨hord'.2.2.2, (List.append_left_inj [wordBits (setpointWord (.of d b))]).mp ?_⟩
      rw [List.append_assoc]
      exact hprom'
  · exact fun n hn hu hfall => sdo_of_falls (hr n hn hu) hfall
  · intro n hn hu hidle
    obtain ⟨k, rfl⟩ := Nat.exists_eq_add_of_lt hn
    obtain ⟨hord', hleft'⟩ := hrun k (by omega) (by omega)
    rw [show t + 1 + k = t + k + 1 by omega] at hord' hleft'
    have := (remaining_eq_zero_iff hord').mpr hidle
    omega

/-- The first transfer after the initial one. -/
theorem transfer_after_initial :
    frames (wave channel restState (startsAlways 0x12345 0b10010)) 1090 =
      frames (wave channel restState (startsAlways 0x12345 0b10010)) 545 ++
        [wordBits 0x200030#24, wordBits 0x112345#24] := by
  have hidle := (@initial_transfer_ends channel restState (startsAlways 0x12345 0b10010) 1
    (fromReset_startsAlways _ _ _) (firstStart_startsAlways _ _)).1
  have hfirst : Accepted channel restState (startsAlways 0x12345 0b10010) 1 :=
    ⟨Nat.one_pos, rfl, rfl⟩
  have hnext : Accepted channel restState (startsAlways 0x12345 0b10010) 545 :=
    ⟨by omega, hidle, rfl⟩
  exact (transfer_sends_two_frames channel restState (startsAlways 0x12345 0b10010)
    (fromReset_startsAlways _ _ _) hfirst (by omega) hnext fun _ _ _ => ⟨rfl, rfl⟩).1

/-! ## The initialisation -/

/-- The clocks, of those that a transfer has left, from which on the second frame has two bits. -/
def twoBitsLeft (p : Generics) : ℕ := 46 * p.spiClkDiv + 2 * p.syncWidth

/-- While the first of two frames is under way, the slave has a part of it; while the second is, the
first and a part of the second. -/
theorem frames_under_way {r : Slave} {w y v : List Bool} {l : List (List Bool)}
    (h : r.sent ++ (r.bits ++ v) :: l = [w, y]) :
    (l = [y] ∧ (r.frames = [] ∨ ∃ b, r.frames = [b] ∧ b <+: w)) ∨
      (l = [] ∧ r.sent = [w] ∧ r.bits <+: y) := by
  obtain ⟨sent, b⟩ := r
  match sent with
  | [] =>
    left
    simp only [List.nil_append, List.cons.injEq] at h
    obtain ⟨rfl, rfl⟩ := h
    refine ⟨rfl, ?_⟩
    by_cases hb : b = []
    · exact .inl (by simp [Slave.frames, hb])
    · exact .inr ⟨b, by simp [Slave.frames, hb], List.prefix_append b v⟩
  | [a] =>
    right
    simp only [List.cons_append, List.nil_append, List.cons.injEq] at h
    obtain ⟨rfl, rfl, rfl⟩ := h
    exact ⟨rfl, rfl, List.prefix_append b v⟩
  | _ :: _ :: _ => simp at h

/-- While a bit of a frame has been sent, whether the setpoint has gone out tells which frame it
is. -/
theorem frames_of_bits {f : Fsm} {r : Slave} {d : BitVec 24} {w y v : List Bool}
    (hne : r.bits ≠ []) (h : r.sent ++ (r.bits ++ v) :: rest d f = [w, y]) :
    (f.setpointSent = false ∧ (r.frames = [] ∨ ∃ b, r.frames = [b] ∧ b <+: w)) ∨
      (f.setpointSent = true ∧ r.frames = [w, r.bits] ∧ r.bits <+: y) := by
  rcases frames_under_way h with ⟨hrest, hframes⟩ | ⟨hrest, hfirst, hpre⟩
  · refine .inl ⟨?_, hframes⟩
    rw [← Bool.not_eq_true, ← rest_eq_nil_iff (d := d), hrest]
    exact List.cons_ne_nil _ _
  · refine .inr ⟨rest_eq_nil_iff.mp hrest, ?_, hpre⟩
    rw [Slave.frames_of_ne_nil hne, hfirst]
    rfl

/-- The frames in a transfer that promises two: at most the first one, or both, with two bits of the
second from `twoBitsLeft` on. -/
theorem frames_of_promised {p : Generics} {f : Fsm} {r : Slave} {c d : BitVec 24}
    {w : List Bool} {x : BitVec 24} (h : InOrder p f r)
    (hprom : promised c d f r = [w, wordBits x]) :
    (twoBitsLeft p < remaining p f ∧ (r.frames = [] ∨ ∃ b, r.frames = [b] ∧ b <+: w)) ∨
    ∃ b, r.frames = [w, b] ∧ b <+: wordBits x ∧ (2 ≤ b.length ↔ remaining p f ≤ twoBitsLeft p) := by
  have hle : ∀ k ≤ 45, k * p.spiClkDiv ≤ 45 * p.spiClkDiv := fun k hk => Nat.mul_le_mul_right _ hk
  have hsw := p.syncWidth_pos
  have hdiv := p.spiClkDiv_pos
  unfold twoBitsLeft
  cases hs : f.presentState with
  | idle | waitSyncLow =>
    right
    simp only [InOrder, hs] at h
    simp only [promised, hs] at hprom
    refine ⟨wordBits x, hprom, List.prefix_rfl, iff_of_true (by simp) ?_⟩
    simp only [remaining, hs]
    omega
  | sendCtrlReg =>
    left
    simp only [promised, hs] at hprom
    have hlen := congrArg List.length hprom
    simp at hlen
    refine ⟨?_, .inl hlen⟩
    simp only [remaining, frameClocks, hs]
    omega
  | sendSetpoint =>
    left
    simp only [promised, hs] at hprom
    obtain ⟨hframes, -⟩ := List.append_inj' (show r.frames ++ [_] = [w] ++ [_] from hprom) rfl
    refine ⟨?_, .inr ⟨w, hframes, List.prefix_rfl⟩⟩
    simp only [remaining, frameClocks, hs]
    omega
  | dacDone =>
    simp only [InOrder, hs] at h
    simp only [promised, rest, hs] at hprom
    cases hsent : f.setpointSent with
    | true =>
      right
      rw [hsent, if_pos rfl, List.append_nil] at hprom
      refine ⟨wordBits x, hprom, List.prefix_rfl, iff_of_true (by simp) ?_⟩
      simp only [remaining, frameLeft, restLeft, hs, hsent, if_true]
      omega
    | false =>
      left
      rw [hsent, if_neg (by simp)] at hprom
      obtain ⟨hframes, -⟩ := List.append_inj' (show r.frames ++ [_] = [w] ++ [_] from hprom) rfl
      refine ⟨?_, .inr ⟨w, hframes, List.prefix_rfl⟩⟩
      simp only [remaining, frameLeft, restLeft, frameClocks, hs, hsent, Bool.false_eq_true,
        if_false]
      omega
  | nSyncZero | firstBit =>
    left
    simp only [InOrder, hs] at h
    simp only [promised, hs] at hprom
    refine ⟨?_, ?_⟩
    · simp only [remaining, frameLeft, restLeft, frameClocks, hs]
      split_ifs <;> omega
    · rcases frames_under_way hprom with ⟨-, hframes⟩ | ⟨-, hframes, -⟩
      · exact hframes
      · exact .inr ⟨w, by simp [Slave.frames, h.2.2, hframes], List.prefix_rfl⟩
  | sclkLo =>
    simp only [InOrder, bits, hs] at h
    simp only [promised, hs] at hprom
    obtain ⟨hclk, hlo, hhi, hlen, -, -⟩ := h
    have hne : r.bits ≠ [] := fun hnil => by simp [hnil] at hlen; omega
    simp only [remaining, frameLeft, restLeft, frameClocks, hs]
    rcases frames_of_bits hne hprom with ⟨hsent, hframes⟩ | ⟨hsent, hframes, hpre⟩
    · rw [hsent]
      exact .inl ⟨by simp; omega, hframes⟩
    · rw [hsent]
      refine .inr ⟨r.bits, hframes, hpre, ?_⟩
      rw [hlen, if_pos rfl]
      rcases Nat.lt_or_ge f.bitCount 2 with hone | htwo
      · rw [show f.bitCount = 1 by omega]
        omega
      · have := hle (2 * (24 - f.bitCount) + 1) (by omega)
        omega
  | sclkHi =>
    simp only [InOrder, bits, hs] at h
    simp only [promised, hs] at hprom
    obtain ⟨hclk, hlo, hhi, hlen, -, -⟩ := h
    have hne : r.bits ≠ [] := fun hnil => by simp [hnil] at hlen; omega
    simp only [remaining, frameLeft, restLeft, frameClocks, hs]
    rcases frames_of_bits hne hprom with ⟨hsent, hframes⟩ | ⟨hsent, hframes, hpre⟩
    · rw [hsent]
      exact .inl ⟨by simp; omega, hframes⟩
    · rw [hsent]
      refine .inr ⟨r.bits, hframes, hpre, ?_⟩
      rw [hlen, if_pos rfl]
      rcases Nat.lt_or_ge f.bitCount 2 with hone | htwo
      · rw [show f.bitCount = 1 by omega]
        omega
      · have := hle (2 * (24 - f.bitCount)) (by omega)
        omega

/-- The words of the initialisation, in the order of the device. -/
def initialisation : List (List Bool) := [wordBits resetWord, wordBits clearWord]

/-- The clocks from the first start to the second bit of the frame after the first. -/
def secondBitClocks (p : Generics) : ℕ := 4 + 3 * p.syncWidth + 52 * p.spiClkDiv

theorem exists_firstStart {inp : ℕ → Input} {t : ℕ} (hpos : 0 < t) (h : (inp t).start = true) :
    ∃ t₀ ≤ t, FirstStart inp t₀ := by
  have hex : ∃ t, 0 < t ∧ (inp t).start = true := ⟨t, hpos, h⟩
  refine ⟨Nat.find hex, Nat.find_min' hex ⟨hpos, h⟩, (Nat.find_spec hex).1, (Nat.find_spec hex).2,
    fun m h0 hm => ?_⟩
  have hmin := Nat.find_min hex hm
  cases hs : (inp m).start with
  | true => exact absurd ⟨h0, hs⟩ hmin
  | false => rfl

theorem wordBits_setpointWord (g : InputRegs) :
    ∃ l, wordBits (setpointWord g) = false :: false :: l := by
  have h0 : (setpointWord g).getMsbD 0 = false :=
    (BitVec.getMsbD_append (x := 0#1 ++ 0b001#3) (y := g.dataInReg) (i := 0)).trans rfl
  have h1 : (setpointWord g <<< 1).getMsbD 0 = false := by
    rw [BitVec.getMsbD_shiftLeft]
    exact (BitVec.getMsbD_append (x := 0#1 ++ 0b001#3) (y := g.dataInReg) (i := 1)).trans rfl
  unfold wordBits
  rw [topBits_succ, topBits_succ, h0, h1]
  exact ⟨_, rfl⟩

section Initialisation

variable {p : Generics} {s : State} {inp : ℕ → Input} {t n : ℕ}

/-- Up to the second bit of its second frame, the initial transfer follows the initialisation. -/
theorem follows_before_second_bit (h : FromReset inp n) (ht : FirstStart inp t) (htn : t < n)
    (hn : n < t + secondBitClocks p) : Follows (frames (wave p s inp) n) initialisation := by
  have hinit : initialClocks p = twoBitsLeft p + (secondBitClocks p - 1) := by
    unfold initialClocks frameClocks twoBitsLeft secondBitClocks
    omega
  obtain ⟨k, rfl⟩ := Nat.exists_eq_add_of_lt htn
  obtain ⟨hord, hleft, hprom⟩ :=
    @initial_transfer p s inp t _ k h ht (by omega) (by omega) 0
  rw [show t + k + 1 = t + 1 + k by omega]
  rcases frames_of_promised hord hprom with ⟨-, hnil | ⟨b, hb, hpre⟩⟩ | ⟨b, hb, hpre, hlen⟩
  · rw [show frames (wave p s inp) (t + 1 + k) = [] from hnil]
    exact True.intro
  · rw [show frames (wave p s inp) (t + 1 + k) = [b] from hb]
    exact hpre
  · rw [show frames (wave p s inp) (t + 1 + k) = [wordBits resetWord, b] from hb]
    obtain ⟨l, hl⟩ := wordBits_setpointWord (loaded p s inp t)
    have hshort : b.length < 2 := by
      by_contra hge
      have := hlen.mp (by omega)
      omega
    rw [hl] at hpre
    refine ⟨rfl, ?_⟩
    match b, hshort with
    | [], _ => exact List.nil_prefix
    | [x], _ =>
      obtain ⟨rfl, -⟩ := List.cons_prefix_cons.mp hpre
      exact ⟨(wordBits clearWord).tail, rfl⟩

/-- The second bit of the second frame does not follow it. -/
theorem not_follows_at_second_bit (h : FromReset inp n) (ht : FirstStart inp t)
    (hn : n = t + secondBitClocks p) : ¬Follows (frames (wave p s inp) n) initialisation := by
  have hclocks : 0 < secondBitClocks p := by unfold secondBitClocks; omega
  have hinit : initialClocks p = twoBitsLeft p + (secondBitClocks p - 1) := by
    unfold initialClocks frameClocks twoBitsLeft secondBitClocks
    omega
  obtain ⟨hord, hleft, hprom⟩ :=
    @initial_transfer p s inp t n (secondBitClocks p - 1) h ht (by omega) (by omega) 0
  rw [show t + 1 + (secondBitClocks p - 1) = n by omega] at hord hleft hprom
  intro hfollows
  rcases frames_of_promised hord hprom with ⟨hlt, -⟩ | ⟨b, hb, hpre, hlen⟩
  · omega
  · rw [show frames (wave p s inp) n = [wordBits resetWord, b] from hb] at hfollows
    obtain ⟨-, hclear⟩ := hfollows
    obtain ⟨l, hl⟩ := wordBits_setpointWord (loaded p s inp t)
    rw [hl] at hpre
    have htwo := hlen.mpr (by omega)
    match b, htwo with
    | x :: y :: b, _ =>
      obtain ⟨-, hpre'⟩ := List.cons_prefix_cons.mp hpre
      obtain ⟨hy, -⟩ := List.cons_prefix_cons.mp hpre'
      obtain ⟨-, hclear'⟩ := List.cons_prefix_cons.mp (show x :: y :: b <+: _ :: _ from hclear)
      obtain ⟨hy', -⟩ := List.cons_prefix_cons.mp (show y :: b <+: _ :: _ from hclear')
      rw [hy] at hy'
      exact absurd hy' (by decide)

end Initialisation

/-- **The initialisation.** The frames begin with the word that sets RESET and the word that clears
it, as far as they have come, exactly while no start is older than `secondBitClocks`: the second
frame is then the setpoint, as two of its bits tell. -/
theorem initialisation_follows_iff (p : Generics) (s : State) (inp : ℕ → Input) {n : ℕ}
    (h : FromReset inp n) :
    Follows (frames (wave p s inp) n) initialisation ↔
      ∀ t, 0 < t → t + secondBitClocks p ≤ n → (inp t).start = false := by
  constructor
  · intro hfollows t hpos htn
    by_contra hstart
    obtain ⟨t₀, ht₀, hfirst⟩ := exists_firstStart hpos (by simpa using hstart)
    refine not_follows_at_second_bit ⟨h.reset, fun m h0 hm => h.low m h0 ?_⟩ hfirst rfl
      (hfollows.of_le (m := t₀ + secondBitClocks p) (by omega))
    omega
  · intro hnone
    by_cases hstart : ∃ t, 0 < t ∧ t < n ∧ (inp t).start = true
    · obtain ⟨t, hpos, htn, hs⟩ := hstart
      obtain ⟨t₀, ht₀, hfirst⟩ := exists_firstStart hpos hs
      refine follows_before_second_bit h hfirst (by omega) ?_
      by_contra hge
      have hlow := hnone t₀ hfirst.pos (by omega)
      rw [hfirst.start] at hlow
      exact absurd hlow (by simp)
    · rcases Nat.eq_zero_or_pos n with rfl | hpos
      · exact True.intro
      · obtain ⟨-, hnil⟩ := @fresh_run p s inp n h n hpos le_rfl fun m h0 hm => by
          cases hs : (inp m).start with
          | true => exact absurd ⟨m, h0, hm, hs⟩ hstart
          | false => rfl
        rw [hnil]
        exact True.intro

/-- In the run that starts always, the second bit of the second frame comes in clock 295. -/
theorem initialisation_followed_until_295 :
    Follows (frames (wave channel restState (startsAlways 0 0)) 294) initialisation ∧
      ¬Follows (frames (wave channel restState (startsAlways 0 0)) 295) initialisation := by
  have hiff := fun n => initialisation_follows_iff channel restState (startsAlways 0 0)
    (fromReset_startsAlways 0 0 n)
  have hK : secondBitClocks channel = 294 := rfl
  constructor
  · rw [hiff]
    intro t hpos ht
    omega
  · rw [hiff]
    intro hnone
    have hlow := hnone 1 Nat.one_pos (by omega)
    exact Bool.noConfusion hlow

/-- In place of the word that clears RESET the DAC gets a setpoint. -/
theorem clear_not_sent :
    frames (wave channel restState (startsAlways 0 0)) 545 =
      [wordBits 0x400004#24, wordBits 0x100000#24] ∧
    ¬Follows (frames (wave channel restState (startsAlways 0 0)) 545) initialisation := by
  obtain ⟨-, hframes⟩ := @initial_transfer_ends channel restState (startsAlways 0 0) 1
    (fromReset_startsAlways 0 0 _) (firstStart_startsAlways 0 0)
  have hloaded : loaded channel restState (startsAlways 0 0) 1 = .of 0 0 :=
    sample_run (beq_false_of_ne (Nat.succ_ne_zero _))
  rw [hloaded, show 1 + 1 + initialClocks channel = 545 from rfl] at hframes
  refine ⟨hframes, ?_⟩
  rw [hframes]
  intro hfollows
  have hsecond : wordBits (setpointWord (.of 0 0)) <+: wordBits clearWord := hfollows.2
  have heq := hsecond.eq_of_length (by simp)
  exact absurd (wordBits_injective heq) (by decide)

end Psc.Ad5781
