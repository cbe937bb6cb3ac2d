import Psc.Dac.Chan
import Psc.Dac.RampTable
import Psc.Dac.Transfers

/-!
# What a DAC is sent

A channel of `dac_chan.vhd` with its serialiser: at each 10 kHz tick the raw setpoint is taken from
its source, calibrated, and sent.

1. `frames_of_starts`: starts of the serialiser send two frames each, in their order.
2. `gainoff_of_ticks`: the calibration is done twelve clocks after each tick, and its result stays
   until the next one.
3. `frames_of_ticks`: so the frames that the DAC gets are those of the ticks.
-/

namespace Psc

open Clocked Spi

/-! ## Starts -/

namespace Ad5781

/-- The frames of the starts, latest first: the control register and the setpoint, but the word that
sets RESET for the first. -/
def framesOf (p : Generics) (inp : ℕ → Input) : List ℕ → List (List Bool)
  | [] => []
  | [t] => [wordBits resetWord, wordBits (setpointWord (.of (inp (t + frameClocks p)).dacData 0))]
  | t :: t' :: ts => framesOf p inp (t' :: ts) ++
      [wordBits (ctrlRegWord (.of 0 (inp t).dacCtrlBits)),
        wordBits (setpointWord (.of (inp (t + 1 + frameClocks p)).dacData 0))]

section Starts

variable {p : Generics} {s : State} {inp : ℕ → Input} {t : ℕ}

/-- A start after the initial transfer, with the inputs that its two words are made of. -/
theorem frames_of_start (h : ∀ u, FromReset inp u) (hpos : 0 < t)
    (hidle : (run (step p) s inp t).fsm.presentState = .idle) (hstart : (inp t).start = true)
    (hcount : (run (step p) s inp t).fsm.initCount = 2) :
    (run (step p) s inp (t + transferClocks p)).fsm.presentState = .idle ∧
      frames (wave p s inp) (t + transferClocks p) = frames (wave p s inp) t ++
        [wordBits (ctrlRegWord (.of 0 (inp t).dacCtrlBits)),
          wordBits (setpointWord (.of (inp (t + 1 + frameClocks p)).dacData 0))] := by
  have hclocks :
      transferClocks p = 1 + (1 + frameClocks p + (1 + frameClocks p + p.syncWidth)) := by
    unfold transferClocks frameClocks
    omega
  have hr : ∀ n, t ≤ n → n < t + transferClocks p → (inp n).reset = false :=
    fun n hn _ => (h (n + 1)).low n (by omega) n.lt_succ_self
  have hfsm : (run (step p) s inp (t + 1)).fsm = { (run (step p) s inp t).fsm with
      done := false, nSync := true, presentState := .sendCtrlReg } := by
    rw [fsm_run_succ]
    simp [fsm, hr t le_rfl (by omega), hidle, hstart, hcount]
  have hslave : slave (wave p s inp) (t + 1) = ⟨frames (wave p s inp) t, []⟩ := by
    have hsync : (wave p s inp (t + 1)).nSync = true := by
      rw [wave, hfsm]
      rfl
    exact Slave.observe_of_nSync hsync
  have hord := @inOrder_run p s inp _ (h (t + 1)) (t + 1) (by omega) le_rfl
  have hleft : remaining p (run (step p) s inp (t + 1)).fsm =
      1 + frameClocks p + (1 + frameClocks p + p.syncWidth) := by
    rw [hfsm]
    rfl
  have hrun := run_remaining hord fun n hn hnu => hr n (by omega) hnu
  rw [hleft] at hrun
  have hregs : ∀ n, t ≤ n → n < t + transferClocks p → (run (step p) s inp (n + 1)).regs =
      .of (inp n).dacData (inp n).dacCtrlBits := fun n hn hnu => sample_run (hr n hn hnu)
  have hprom : promised (ctrlRegWord (.of 0 (inp t).dacCtrlBits))
      (setpointWord (.of (inp (t + 1 + frameClocks p)).dacData 0))
      (run (step p) s inp (t + 1)).fsm (slave (wave p s inp) (t + 1)) = frames (wave p s inp) t ++
        [wordBits (ctrlRegWord (.of 0 (inp t).dacCtrlBits)),
          wordBits (setpointWord (.of (inp (t + 1 + frameClocks p)).dacData 0))] := by
    rw [hfsm, hslave]
    rfl
  have hsent := @run_promised p s inp (t + 1) (t + transferClocks p)
    (ctrlRegWord (.of 0 (inp t).dacCtrlBits))
    (setpointWord (.of (inp (t + 1 + frameClocks p)).dacData 0)) hord
    (fun n hn hnu => hr n (by omega) hnu) ?_ ?_ (transferClocks p - 1) (by omega) (by omega)
  · obtain ⟨hord', hleft'⟩ := hrun (transferClocks p - 1) (by omega) (by omega)
    rw [show t + 1 + (transferClocks p - 1) = t + transferClocks p by omega] at hord' hleft' hsent
    have hend := (remaining_eq_zero_iff hord').mp (by omega)
    rw [hprom, promised, hend] at hsent
    exact ⟨hend, hsent⟩
  -- each word is loaded in the clock that the clocks left tell
  · intro n hn hnu hs
    obtain ⟨j, rfl⟩ := Nat.exists_eq_add_of_le hn
    obtain ⟨-, hj⟩ := hrun j (by omega) (by omega)
    simp only [remaining, hs] at hj
    rw [show t + 1 + j = t + 1 by omega, hregs t le_rfl (by omega)]
    rfl
  · intro n hn hnu hs
    obtain ⟨j, rfl⟩ := Nat.exists_eq_add_of_le hn
    obtain ⟨-, hj⟩ := hrun j (by omega) (by omega)
    simp only [remaining, hs] at hj
    rw [show t + 1 + j = t + 1 + frameClocks p + 1 by omega, hregs _ (by omega) (by omega)]
    rfl

/-- **Starts.** When the last start is long enough ago, the DAC has the frames of all of them, and
the serialiser waits for the next. -/
theorem frames_of_starts (h : ∀ u, FromReset inp u) (h0 : (inp 0).start = false)
    (hspaced : Spaced (fun n => (inp n).start) (transferClocks p)) :
    ∀ n, Rested (fun n => (inp n).start) (transferClocks p) n → 0 < n →
      (run (step p) s inp n).fsm.presentState = .idle ∧
        frames (wave p s inp) n = framesOf p inp (ticks (fun n => (inp n).start) n) := by
  have hd : transferClocks p = initialClocks p + 2 := by
    unfold transferClocks initialClocks frameClocks
    omega
  -- a clock without a start
  have hstays : ∀ n, 0 < n → (inp n).start = false →
      (run (step p) s inp n).fsm.presentState = .idle →
        (run (step p) s inp (n + 1)).fsm.presentState = .idle ∧
          frames (wave p s inp) (n + 1) = frames (wave p s inp) n := by
    intro n hn hstart hidle
    obtain ⟨hfsm, -, hkept⟩ := @idle_of_not_start p (run (step p) s inp n).regs _ _ _ hidle
      ((h (n + 1)).low n hn n.lt_succ_self) hstart (inOrder_run (h n) n hn le_rfl)
    refine ⟨?_, hkept⟩
    rw [fsm_run_succ, hfsm]
    exact hidle
  refine hspaced.induction (by omega) (fun hn => absurd hn (Nat.lt_irrefl 0)) ?_ ?_
  · intro n ih hstart _
    rcases Nat.eq_zero_or_pos n with rfl | hn
    · obtain ⟨hfresh, hframes⟩ := @fresh_run p s inp 1 (h 1) 1 Nat.one_pos le_rfl
        fun m h1 h2 => by omega
      refine ⟨hfresh.idle, ?_⟩
      rw [hframes, ticks_succ_of_not_tick hstart]
      rfl
    · obtain ⟨hidle, hframes⟩ := ih hn
      obtain ⟨hidle', hkept⟩ := hstays n hn hstart hidle
      refine ⟨hidle', ?_⟩
      rw [hkept, hframes, ticks_succ_of_not_tick hstart]
  · intro t ih hstart _
    have hpos : ∀ t, (inp t).start = true → 0 < t := fun t ht => Nat.pos_of_ne_zero fun h => by
      rw [h] at ht
      exact absurd (ht.symm.trans h0) (by simp)
    have ht := hpos t hstart
    obtain ⟨hidle, hframes⟩ := ih ht
    have hnone : ∀ n, t + 1 ≤ n → n < t + transferClocks p → (inp n).start = false := by
      intro n hn hnt
      by_contra hs
      have := hspaced t n hn hstart (by simpa using hs)
      omega
    have hticks : ticks (fun n => (inp n).start) (t + transferClocks p) =
        t :: ticks (fun n => (inp n).start) t := by
      rw [ticks_eq_of_none (by omega) hnone]
      exact @ticks_succ_of_tick (fun n => (inp n).start) t hstart
    rw [hticks]
    cases hlist : ticks (fun n => (inp n).start) t with
    | nil =>
      have hfirst : FirstStart inp t := ⟨ht, hstart, fun m _ hm => by
        by_contra hs
        have hmem := @mem_ticks (fun n => (inp n).start) t m hm (by simpa using hs)
        rw [hlist] at hmem
        cases hmem⟩
      obtain ⟨hidle', hframes'⟩ := @initial_transfer_ends p s inp t (h _) hfirst
      obtain ⟨hidle'', hkept⟩ := hstays (t + 1 + initialClocks p) (by omega)
        (hnone _ (by omega) (by omega)) hidle'
      rw [show t + transferClocks p = t + 1 + initialClocks p + 1 by omega]
      refine ⟨hidle'', hkept.trans (hframes'.trans ?_)⟩
      rw [loaded, show t + 1 + frameClocks p = t + frameClocks p + 1 by omega,
        sample_run ((h _).low _ (by omega) (Nat.lt_succ_self _))]
      rfl
    | cons t' ts =>
      have hmem : t' ∈ ticks (fun n => (inp n).start) t := hlist.symm ▸ List.mem_cons_self
      have ht' : (inp t').start = true := tick_of_mem_ticks hmem
      have htt' : t' < t := lt_of_mem_ticks hmem
      obtain ⟨t₀, hle, hfirst⟩ := exists_firstStart (hpos t' ht') ht'
      have hfresh := (@fresh_run p s inp t₀ (h t₀) t₀ hfirst.pos le_rfl hfirst.none).1
      have hcount := counted_run (h t) ⟨hfirst.pos, hfresh.idle, hfirst.start⟩ t (by omega) le_rfl
      rw [Counted, hidle] at hcount
      obtain ⟨hidle', hframes'⟩ := frames_of_start h ht hidle hstart hcount
      refine ⟨hidle', ?_⟩
      rw [hframes', hframes, hlist]
      rfl

end Starts

end Ad5781

/-! ## Ticks -/

namespace GainOffset

/-- What the conversion of a tick in clock `t` leaves in `dac_setpt`, with each operand as it is in
the clock that uses it. -/
def converted (inp : ℕ → Input) (t : ℕ) : BitVec 20 :=
  calibrate (inp (t + 4)).numbitsSel (inp (t + 1)).dacSetptRaw (inp (t + 1)).dacCntrl.offset
    (inp (t + 2)).dacCntrl.gain

section Ticks

variable {s : State} {inp : ℕ → Input} {t : ℕ}

/-- A conversion with operands that may change. -/
theorem conversion_of_tick (hs : s.state = .idle) (hr : ∀ n < 12, (inp n).reset = false)
    (htick : (inp 0).tenkhzTrig = true) :
    (∀ n < 12, 0 < n → (run step s inp n).done = false) ∧ (run step s inp 12).done = true ∧
      (run step s inp 12).state = .idle ∧ (run step s inp 12).dacSetpt = converted inp 0 := by
  have h1 : run step s inp 1 = { s with done := false, sat := false, state := .applyOffsets } := by
    rw [run_succ, run_zero, step, if_neg (by simp [hr 0]), hs, htick]
    rfl
  have h2 : run step s inp 2 = { run step s inp 1 with
      dacSetptOc := (inp 1).dacSetptRaw - (inp 1).dacCntrl.offset, state := .applyGains } := by
    rw [run_succ, step, if_neg (by simp [hr 1]), h1]
  have h3 : run step s inp 3 = { run step s inp 2 with
      dacSetptFs := NumericStd.mulFull ((inp 1).dacSetptRaw - (inp 1).dacCntrl.offset)
        (inp 2).dacCntrl.gain
      state := .scale, multdlycnt := 0 } := by
    rw [run_succ, step, if_neg (by simp [hr 2]), h2]
  have h4 : run step s inp 4 = { run step s inp 3 with
      dacSetpt := scaled (run step s inp 3).dacSetptFs, state := .checkForSat } := by
    rw [run_succ, step, if_neg (by simp [hr 3]), h3]
  have h5 : run step s inp 5 = { run step s inp 4 with
      sat := (saturation (inp 4).numbitsSel (run step s inp 4).dacSetptOc
        (run step s inp 4).dacSetpt).isSome || false
      dacSetpt := converted inp 0, state := .multDly } := by
    rw [run_succ, step, if_neg (by simp [hr 4]), h4, h3, h2, h1]
    rfl
  have hdelay := @run_delay (fun n => inp (5 + n)) (run step s inp 5)
    (fun n hn => hr (5 + n) (by omega)) (by rw [h5]) (by rw [h5, h4, h3])
  have hend : run step s inp 12 =
      { run step s inp 5 with multdlycnt := 6, state := .idle, done := true } := by
    rw [show 12 = 5 + 6 + 1 from rfl, run_succ, run_add, hdelay 6 le_rfl, step,
      if_neg (by simp [hr 11]), h5]
    rfl
  have hlow : ∀ n ≤ 5, 0 < n → (run step s inp n).done = false := by
    intro n hn hpos
    interval_cases n
    · rw [h1]
    · rw [h2, h1]
    · rw [h3, h2, h1]
    · rw [h4, h3, h2, h1]
    · rw [h5, h4, h3, h2, h1]
  refine ⟨?_, by rw [hend], by rw [hend], by rw [hend, h5]⟩
  intro n hn hpos
  rcases Nat.lt_or_ge n 5 with hlt | hge
  · exact hlow n hlt.le hpos
  · obtain ⟨m, rfl⟩ := Nat.exists_eq_add_of_le hge
    rw [run_add, hdelay m (by omega)]
    exact hlow 5 le_rfl (by omega)

theorem run_of_none (hs : s.state = .idle) {k : ℕ}
    (hnone : ∀ n < k, (inp n).tenkhzTrig = false) :
    (run step s inp k).state = .idle ∧ (run step s inp k).dacSetpt = s.dacSetpt ∧
      (0 < k → (run step s inp k).done = false) := by
  induction k with
  | zero => exact ⟨hs, rfl, fun h => absurd h (Nat.lt_irrefl 0)⟩
  | succ k ih =>
    obtain ⟨hidle, hdac, -⟩ := ih fun n hn => hnone n (by omega)
    rw [run_succ, step]
    by_cases hr : (inp k).reset = true
    · rw [if_pos hr]
      exact ⟨hidle, hdac, fun _ => rfl⟩
    · rw [if_neg hr, hidle]
      dsimp only
      rw [hnone k k.lt_succ_self]
      exact ⟨rfl, hdac, fun _ => rfl⟩

/-- A run with `reset` low after clock 0, which has no tick, and ticks twelve clocks apart. -/
structure Ticked (inp : ℕ → Input) : Prop where
  first : (inp 0).tenkhzTrig = false
  low : ∀ n, 0 < n → (inp n).reset = false
  spaced : Spaced (fun n => (inp n).tenkhzTrig) 12

theorem run_of_tick (h : Ticked inp) (htick : (inp t).tenkhzTrig = true)
    (hidle : (run step s inp t).state = .idle) :
    (∀ n < 12, 0 < n → (run step s inp (t + n)).done = false) ∧
      (run step s inp (t + 12)).done = true ∧ (run step s inp (t + 12)).state = .idle ∧
      (run step s inp (t + 12)).dacSetpt = converted inp t := by
  have hpos : 0 < t := Nat.pos_of_ne_zero fun h0 => by
    rw [h0] at htick
    exact absurd (htick.symm.trans h.first) (by simp)
  simp only [run_add step s inp t]
  exact @conversion_of_tick _ (fun k => inp (t + k)) hidle
    (fun n _ => h.low (t + n) (by omega)) htick

theorem idle_of_rested (hs : s.state = .idle) (h : Ticked inp) :
    ∀ n, Rested (fun n => (inp n).tenkhzTrig) 12 n → (run step s inp n).state = .idle := by
  refine h.spaced.induction (by decide) hs ?_ ?_
  · intro n hidle hnone
    exact (@run_of_none _ (fun k => inp (n + k)) hidle 1
      fun k hk => by rw [Nat.lt_one_iff.mp hk]; exact hnone).1
  · intro t hidle htick
    exact (run_of_tick h htick hidle).2.2.1

/-- **The calibration in a run.** `done` is up exactly twelve clocks after each tick, and from then
on until the next tick the result stays. -/
theorem gainoff_of_ticks (hs : s.state = .idle) (h : Ticked inp) {n : ℕ} (hpos : 0 < n) :
    ((run step s inp n).done = true ↔ 12 ≤ n ∧ (inp (n - 12)).tenkhzTrig = true) ∧
      ∀ t, (inp t).tenkhzTrig = true → t + 12 ≤ n →
        (∀ m, t < m → m < n → (inp m).tenkhzTrig = false) →
          (run step s inp n).dacSetpt = converted inp t := by
  by_cases hlast : ∃ m, m < n ∧ (inp m).tenkhzTrig = true
  · obtain ⟨m, hmn, hm⟩ := hlast
    obtain ⟨t, -, htn, htick, hnone⟩ := @exists_last_tick (fun n => (inp n).tenkhzTrig) m n hm hmn
    have hidle := idle_of_rested hs h t (h.spaced.rested htick)
    obtain ⟨hlow, hup, hidle', hdac⟩ := run_of_tick h htick hidle
    have hlast : ∀ t', (inp t').tenkhzTrig = true → t' < n → t' ≤ t := by
      intro t' ht' hlt
      by_contra hgt
      exact absurd ht' (by simp [hnone t' (by omega) hlt])
    rcases Nat.lt_or_ge n (t + 12) with hbusy | hdone
    · -- the conversion is under way, and the one before it is at least as long ago
      have hlow' := hlow (n - t) (by omega) (by omega)
      rw [show t + (n - t) = n by omega] at hlow'
      refine ⟨iff_of_false (by simp [hlow']) ?_, ?_⟩
      · rintro ⟨h12, hlate⟩
        have := h.spaced (n - 12) t (by omega) hlate htick
        omega
      · intro t' ht' ht'n hnone'
        have := hlast t' ht' (by omega)
        exact absurd htick (by simp [hnone' t (by omega) htn])
    · have hhold := @run_of_none _ (fun k => inp (t + 12 + k)) hidle' (n - (t + 12))
        fun k hk => hnone _ (by omega) (by omega)
      rw [← run_add, show t + 12 + (n - (t + 12)) = n by omega] at hhold
      refine ⟨?_, ?_⟩
      · rcases Nat.eq_or_lt_of_le hdone with rfl | hlt
        · rw [Nat.add_sub_cancel]
          exact iff_of_true hup ⟨by omega, htick⟩
        · refine iff_of_false (by simp [hhold.2.2 (by omega)]) ?_
          rintro ⟨h12, hlate⟩
          have := hlast _ hlate (by omega)
          omega
      · intro t' ht' ht'n hnone'
        have hle := hlast t' ht' (by omega)
        have heq : t' = t := by
          by_contra hne
          exact absurd htick (by simp [hnone' t (by omega) htn])
        rw [heq, hhold.2.1, hdac]
  · have hnone : ∀ m < n, (inp m).tenkhzTrig = false := by
      intro m hm
      by_contra htick
      exact hlast ⟨m, hm, by simpa using htick⟩
    have hhold := run_of_none hs hnone
    refine ⟨iff_of_false (by simp [hhold.2.2 hpos]) ?_, ?_⟩
    · rintro ⟨h12, hlate⟩
      exact absurd hlate (by simp [hnone (n - 12) (by omega)])
    · intro t htick htn _
      exact absurd htick (by simp [hnone t (by omega)])

end Ticks

end GainOffset

/-! ## The channel -/

namespace DacChan

open Ad5781

/-- The input ports. -/
structure Input where
  reset : Bool
  tenkhzTrig : Bool
  fofbDacSetpt : BitVec 20
  dacNumbitsSel : Bool
  dacCntrl : DacCntrl

/-- The registers: the multiplexer with the smooth ramp and the calibration, the ramp table, and the
serialiser. -/
structure State where
  chan : Chan.State
  ramp : RampTable.Core
  spi : Ad5781.State

/-- `dac_data`: 20 bits, or 18 bits in their place. -/
def dacData (dacNumbitsSel : Bool) (dacSetpt : BitVec 20) : BitVec 20 :=
  if dacNumbitsSel then dacSetpt else dacSetpt.extractLsb' 0 18 ++ 0#2

def chanIn (c : State) (i : Input) : Chan.Input :=
  ⟨i.reset, i.tenkhzTrig, i.dacNumbitsSel, c.ramp.regs.rampDacSetpt, i.fofbDacSetpt, i.dacCntrl⟩

def gainIn (c : State) (i : Input) : GainOffset.Input :=
  ⟨i.reset, i.tenkhzTrig, i.dacNumbitsSel, c.chan.dacSetptRaw, i.dacCntrl⟩

/-- The serialiser has a reset of its own, and is started by the calibration. -/
def spiIn (c : State) (i : Input) : Ad5781.Input :=
  ⟨i.dacCntrl.reset, c.chan.gainoff.done, dacData i.dacNumbitsSel c.chan.gainoff.dacSetpt,
    i.dacCntrl.cntrl.extractLsb' 0 5⟩

/-- One clock of the channel. -/
def step (cosine : BitVec 24 → BitVec 24) (c : State) (i : Input) : State where
  chan := Chan.step cosine c.chan (chanIn c i)
  ramp := RampTable.clock c.ramp ⟨i.reset, i.tenkhzTrig, i.dacCntrl.mode, i.dacCntrl⟩
  spi := Ad5781.step channel c.spi (spiIn c i)

/-- The lines to the DAC in clock `n`. -/
def wave (cosine : BitVec 24 → BitVec 24) (c : State) (inp : ℕ → Input) (n : ℕ) : Lines :=
  lines (run (step cosine) c inp n).spi.fsm

/-- What is calibrated for a tick in clock `t`. -/
def setpoint (cosine : BitVec 24 → BitVec 24) (c : State) (inp : ℕ → Input) (t : ℕ) : BitVec 20 :=
  let c := run (step cosine) c inp t
  Chan.source (chanIn c (inp t)) c.chan.smooth.regs.rampout

/-- The output for a tick in clock `t`. -/
def output (cosine : BitVec 24 → BitVec 24) (c : State) (inp : ℕ → Input) (t : ℕ) : BitVec 20 :=
  GainOffset.calibrate (inp (t + 4)).dacNumbitsSel (setpoint cosine c inp t)
    (inp (t + 1)).dacCntrl.offset (inp (t + 2)).dacCntrl.gain

/-- The clocks from a tick to the end of its transfer. -/
def tickClocks : ℕ := 12 + transferClocks channel

/-- The frames of the ticks, latest first: the control register and the output, but the word that
sets RESET for the first. -/
def framesOf (cosine : BitVec 24 → BitVec 24) (c : State) (inp : ℕ → Input) :
    List ℕ → List (List Bool)
  | [] => []
  | [t] => [wordBits resetWord, wordBits (setpointWord (.of
      (dacData (inp (t + 12 + frameClocks channel)).dacNumbitsSel (output cosine c inp t)) 0))]
  | t :: t' :: ts => framesOf cosine c inp (t' :: ts) ++
      [wordBits (ctrlRegWord (.of 0 ((inp (t + 12)).dacCntrl.cntrl.extractLsb' 0 5))),
        wordBits (setpointWord (.of (dacData (inp (t + 12 + 1 + frameClocks channel)).dacNumbitsSel
          (output cosine c inp t)) 0))]

/-- A run from a reset in clock 0, and without another, in which the ticks leave the time for a
transfer. -/
structure Powered (c : State) (inp : ℕ → Input) : Prop where
  state : c.chan.gainoff.state = .idle
  done : c.chan.gainoff.done = false
  first : (inp 0).tenkhzTrig = false
  dacReset : (inp 0).dacCntrl.reset = true
  low : ∀ n, 0 < n → (inp n).reset = false
  dacLow : ∀ n, 0 < n → (inp n).dacCntrl.reset = false
  spaced : Spaced (fun n => (inp n).tenkhzTrig) tickClocks

section Channel

variable (cosine : BitVec 24 → BitVec 24) {c : State} {inp : ℕ → Input} {t n : ℕ}

/-- What the calibration and the serialiser get in a run. -/
def gainRun (c : State) (inp : ℕ → Input) (n : ℕ) : GainOffset.Input :=
  gainIn (run (step cosine) c inp n) (inp n)

def spiRun (c : State) (inp : ℕ → Input) (n : ℕ) : Ad5781.Input :=
  spiIn (run (step cosine) c inp n) (inp n)

theorem run_gainoff (n : ℕ) : (run (step cosine) c inp n).chan.gainoff =
    run GainOffset.step c.chan.gainoff (gainRun cosine c inp) n :=
  run_map (step cosine) c inp (fun c => c.chan.gainoff) gainIn (fun _ _ => rfl) n

theorem run_spi (n : ℕ) : (run (step cosine) c inp n).spi =
    run (Ad5781.step channel) c.spi (spiRun cosine c inp) n :=
  run_map (step cosine) c inp (fun c => c.spi) spiIn (fun _ _ => rfl) n

theorem wave_eq : wave cosine c inp = Ad5781.wave channel c.spi (spiRun cosine c inp) := by
  funext n
  rw [wave, run_spi]
  rfl

theorem converted_gainRun (htick : (inp t).tenkhzTrig = true) (hr : (inp t).reset = false) :
    GainOffset.converted (gainRun cosine c inp) t = output cosine c inp t := by
  have hraw : (run (step cosine) c inp (t + 1)).chan.dacSetptRaw = setpoint cosine c inp t := by
    rw [run_succ, step]
    show (if (inp t).reset then _ else if (inp t).tenkhzTrig then _ else _) = _
    rw [if_neg (by simp [hr]), if_pos htick]
    rfl
  unfold GainOffset.converted output
  rw [← hraw]
  rfl

theorem ticked (h : Powered c inp) : GainOffset.Ticked (gainRun cosine c inp) :=
  ⟨h.first, h.low, h.spaced.mono (by decide)⟩

theorem start_iff (h : Powered c inp) (n : ℕ) : (spiRun cosine c inp n).start = true ↔
    12 ≤ n ∧ (inp (n - 12)).tenkhzTrig = true := by
  show (run (step cosine) c inp n).chan.gainoff.done = true ↔ _
  rcases Nat.eq_zero_or_pos n with rfl | hn
  · exact iff_of_false (by simp [h.done]) (by omega)
  · rw [run_gainoff]
    exact (GainOffset.gainoff_of_ticks h.state (ticked cosine h) hn).1

theorem fromReset (h : Powered c inp) (u : ℕ) : FromReset (spiRun cosine c inp) u :=
  ⟨h.dacReset, fun n hn _ => h.dacLow n hn⟩

theorem dacData_spiRun (h : Powered c inp) (htick : (inp t).tenkhzTrig = true) {k : ℕ}
    (hk : k ≤ 1 + frameClocks channel) : (spiRun cosine c inp (t + 12 + k)).dacData =
      dacData (inp (t + 12 + k)).dacNumbitsSel (output cosine c inp t) := by
  have hframe : frameClocks channel = 266 := rfl
  have hclocks : tickClocks = 557 := rfl
  have hpos : 0 < t := Nat.pos_of_ne_zero fun h0 => by
    rw [h0] at htick
    exact absurd (htick.symm.trans h.first) (by simp)
  have hnone : ∀ m, t < m → m < t + 12 + k → (inp m).tenkhzTrig = false := by
    intro m htm hm
    by_contra hs
    have := h.spaced t m htm htick (by simpa using hs)
    omega
  have hdac := (GainOffset.gainoff_of_ticks h.state (ticked cosine h)
    (show 0 < t + 12 + k by omega)).2 t htick (by omega) hnone
  rw [← run_gainoff, converted_gainRun cosine htick (h.low t hpos)] at hdac
  show dacData _ (run (step cosine) c inp (t + 12 + k)).chan.gainoff.dacSetpt = _
  rw [hdac]

theorem framesOf_map (h : Powered c inp) {l : List ℕ} (hl : ∀ t ∈ l, (inp t).tenkhzTrig = true) :
    Ad5781.framesOf channel (spiRun cosine c inp) (l.map (· + 12)) = framesOf cosine c inp l := by
  induction l with
  | nil => rfl
  | cons t l ih =>
    have htick := hl t List.mem_cons_self
    have ih := ih fun t' ht' => hl t' (List.mem_cons_of_mem t ht')
    cases l with
    | nil =>
      show [_, wordBits (setpointWord (.of (spiRun cosine c inp (t + 12 + frameClocks channel)).dacData
        0))] = _
      rw [dacData_spiRun cosine h htick (Nat.le_add_left ..)]
      rfl
    | cons t' ts =>
      show Ad5781.framesOf channel _ ((t' :: ts).map (· + 12)) ++ [_, wordBits (setpointWord (.of
        (spiRun cosine c inp (t + 12 + 1 + frameClocks channel)).dacData 0))] = _
      rw [ih, Nat.add_assoc (t + 12) 1, dacData_spiRun cosine h htick le_rfl]
      rfl

/-- **The channel.** In every run from a reset in which the ticks leave the time for a transfer:
when the transfer of the last tick is over, the DAC has got the frames of all ticks, in their order,
each with the setpoint that the mode selected at the tick, calibrated. -/
theorem frames_of_ticks (h : Powered c inp)
    (hrest : Rested (fun n => (inp n).tenkhzTrig) tickClocks n) (hn : 0 < n) :
    frames (wave cosine c inp) n =
      framesOf cosine c inp (ticks (fun n => (inp n).tenkhzTrig) n) := by
  have hclocks : tickClocks = 12 + transferClocks channel := rfl
  have hpos : 0 < transferClocks channel := by decide
  have hspaced : Spaced (fun n => (spiRun cosine c inp n).start) (transferClocks channel) := by
    intro t t' htt' ht ht'
    obtain ⟨h12, htick⟩ := (start_iff cosine h t).mp ht
    obtain ⟨h12', htick'⟩ := (start_iff cosine h t').mp ht'
    have := h.spaced (t - 12) (t' - 12) (by omega) htick htick'
    omega
  have hrest' : Rested (fun n => (spiRun cosine c inp n).start) (transferClocks channel) n := by
    intro t htn ht
    obtain ⟨h12, htick⟩ := (start_iff cosine h t).mp ht
    have := hrest (t - 12) (by omega) htick
    omega
  have hticks : ticks (fun n => (spiRun cosine c inp n).start) n =
      (ticks (fun n => (inp n).tenkhzTrig) n).map (· + 12) := by
    have hlate : ticks (fun n => (inp n).tenkhzTrig) n =
        ticks (fun n => (inp n).tenkhzTrig) (n - 12) := by
      refine ticks_eq_of_none (Nat.sub_le ..) ?_
      intro m hm hmn
      by_contra hs
      have := hrest m hmn (by simpa using hs)
      omega
    rw [hlate]
    refine ticks_delay ?_ ?_
    · intro m hm _
      by_contra hs
      have := ((start_iff cosine h m).mp (by simpa using hs)).1
      omega
    · intro m _
      have hiff := start_iff cosine h (m + 12)
      rw [Nat.add_sub_cancel] at hiff
      exact Bool.eq_iff_iff.mpr (hiff.trans (and_iff_right (Nat.le_add_left ..)))
  rw [wave_eq, (frames_of_starts (fromReset cosine h) h.done hspaced n hrest' hn).2, hticks]
  exact framesOf_map cosine h fun t ht => @tick_of_mem_ticks (fun n => (inp n).tenkhzTrig) n t ht

end Channel

end DacChan

end Psc
