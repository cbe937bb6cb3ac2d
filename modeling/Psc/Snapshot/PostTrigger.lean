import Psc.Snapshot.Nco
import Psc.Snapshot.Triggers

/-!
# The records after a trigger

A waveform holds `posttrigpts` records from the trigger on, and is copied `posttrigpts / 1000` polls
after the poll that finds the trigger, as if a poll of 100 ms always brought 1000 of them. The
10 kHz generator brings 996 in 10^7 clocks.

1. `bursts_eq`: the bursts that were begun are the turns of the generator, so both the trigger and
   the copying have their place in its phase.
2. `passed_iff`: the writer has passed all the records when the waveform is sent exactly if the
   phase has made `posttrigpts` turns since the trigger.
3. `passed_of_polls`: polls of 10038419 clocks are long enough, whatever the time of the trigger.
-/

namespace Psc.Snapshot

open Clocked PhaseAcc

/-! ## Bursts and turns -/

/-- The writer is triggered by the generator, with the step of `main`, and takes up each pulse. -/
structure NcoDriven (x₀ : Hw) (inp : ℕ → HwInput) (nco : ℕ → Nco.Input) : Prop where
  reset : ∀ n, (nco n).reset = false
  stepSize : ∀ n, (nco n).stepSize = Nco.stepSize10kHz
  trigger : ∀ n, (inp n).writer.trigger = Nco.pulseOut nco n
  once : ∀ n, Nco.pulseOut nco n = true → taken x₀.sys (fun k => (inp k).writer) n = true

section Turns

variable {x₀ : Hw} {inp : ℕ → HwInput} {nco : ℕ → Nco.Input}

theorem NcoDriven.taken_eq (h : NcoDriven x₀ inp nco) :
    taken x₀.sys (fun k => (inp k).writer) = Nco.pulseOut nco := by
  funext n
  cases hp : Nco.pulseOut nco n with
  | true => exact h.once n hp
  | false =>
    have hlow : (inp n).writer.trigger = false := (h.trigger n).trans hp
    unfold taken accepts
    simp [hlow]

/-- The bursts begun before clock `n`. -/
theorem bursts_eq (h : NcoDriven x₀ inp nco) (n : ℕ) :
    bursts x₀ inp n = turns (2 ^ 31) (Nco.phaseAt nco (n - 3)) := by
  unfold bursts triggers
  rw [h.taken_eq]
  apply Nco.tickCount_pulseOut h.reset
  intro m
  rw [h.stepSize]
  decide

end Turns

/-! ## The wait -/

section Wait

variable (x₀ : Hw) (inp : ℕ → HwInput) (reads : ℕ → Kind → Ps → ℕ) (kind : Kind) (ps : Ps)

/-- The clock at which the line last rose before clock `n`; `0` if it never did. -/
def lastRise (line : Line) : ℕ → ℕ
  | 0 => 0
  | n + 1 => if risesAt x₀ inp line n then n else lastRise line n

/-- The waveform of the trigger found in poll `k` is sent in poll `m`. -/
def SentAt (k m : ℕ) : Prop :=
  k ≤ m ∧ (∀ j, k < j → j ≤ m → (slots x₀ inp reads j kind ps).active = true) ∧
    (checkforTriggers (slots x₀ inp reads m) (bufptrAt x₀ inp reads m) kind ps).sendbuf = true

/-- When the waveform of the trigger found in poll `k` is sent, the writer has passed the records
that it holds from the trigger on. -/
def Passed (k : ℕ) : Prop :=
  ∀ m, SentAt x₀ inp reads kind ps k m →
    recorded x₀ inp reads kind ps m + kind.posttrigpts ≤ bursts x₀ inp (reads m kind ps)

variable {x₀ inp reads kind ps}

theorem latchedBursts_eq (line : Line) (n : ℕ) :
    latchedBursts x₀ inp line n = bursts x₀ inp (lastRise x₀ inp line n) := by
  induction n with
  | zero => rfl
  | succ n ih =>
    rw [latchedBursts, lastRise]
    split_ifs
    · rfl
    · exact ih

theorem lastRest_of_active {k j : ℕ} (hrest : (slots x₀ inp reads k kind ps).active = false)
    (hact : ∀ i, k < i → i ≤ j → (slots x₀ inp reads i kind ps).active = true) (hkj : k ≤ j) :
    lastRest x₀ inp reads kind ps (j + 1) = some k := by
  induction j, hkj using Nat.le_induction with
  | base => rw [lastRest, if_pos hrest]
  | succ j hkj ih =>
    rw [lastRest, if_neg (by simp [hact (j + 1) (by omega) le_rfl])]
    exact ih fun i hki hij => hact i hki (by omega)

theorem sentAt_iff {k m : ℕ} (hrest : (slots x₀ inp reads k kind ps).active = false)
    (hact : (checkforTriggers (slots x₀ inp reads k) (bufptrAt x₀ inp reads k) kind ps).active =
      true) : SentAt x₀ inp reads kind ps k m ↔ m = k + kind.polls := by
  obtain ⟨hsend, hactive, hend⟩ := wait_slots hrest ((activates_iff hrest).mp hact)
  constructor
  · rintro ⟨hkm, hstay, hsent⟩
    by_contra hne
    rcases Nat.lt_or_gt_of_ne hne with hlt | hgt
    · rw [checkforTriggers_slots, hsend m hkm hlt.le] at hsent
      simp [hlt.ne] at hsent
    · have hstill := hstay (k + kind.polls + 1) (by omega) hgt
      rw [hend] at hstill
      simp at hstill
  · rintro rfl
    refine ⟨by omega, hactive, ?_⟩
    rw [checkforTriggers_slots, hsend _ (by omega) le_rfl]
    simp

theorem recorded_of_sent {k : ℕ} (hrest : (slots x₀ inp reads k kind ps).active = false)
    (hact : (checkforTriggers (slots x₀ inp reads k) (bufptrAt x₀ inp reads k) kind ps).active =
      true) : recorded x₀ inp reads kind ps (k + kind.polls) =
        bursts x₀ inp (lastRise x₀ inp (kind.line ps) (reads k kind ps)) := by
  obtain ⟨-, hactive, -⟩ := wait_slots hrest ((activates_iff hrest).mp hact)
  have hpos := kind.polls_pos
  have hlast := lastRest_of_active hrest (j := k + kind.polls - 1)
    (fun i hki hij => hactive i hki (by omega)) (by omega)
  rw [Nat.sub_add_cancel (by omega)] at hlast
  unfold recorded
  rw [hlast]
  exact latchedBursts_eq _ _

theorem passed_iff_bursts {k : ℕ} (hrest : (slots x₀ inp reads k kind ps).active = false)
    (hact : (checkforTriggers (slots x₀ inp reads k) (bufptrAt x₀ inp reads k) kind ps).active =
      true) : Passed x₀ inp reads kind ps k ↔
        bursts x₀ inp (lastRise x₀ inp (kind.line ps) (reads k kind ps)) + kind.posttrigpts ≤
          bursts x₀ inp (reads (k + kind.polls) kind ps) := by
  rw [← recorded_of_sent hrest hact]
  constructor
  · intro hpassed
    exact hpassed _ ((sentAt_iff hrest hact).mpr rfl)
  · intro hle m hm
    rw [(sentAt_iff hrest hact).mp hm]
    exact hle

end Wait

/-- **The records after a trigger.** For each slot, and each poll that finds a trigger: the writer
has passed the records from the trigger on when the waveform is sent exactly if the generator has
made as many turns between the trigger and the poll that sends. -/
theorem passed_iff (x₀ : Hw) (inp : ℕ → HwInput) (nco : ℕ → Nco.Input)
    (reads : ℕ → Kind → Ps → ℕ) (kind : Kind) (ps : Ps) (h : NcoDriven x₀ inp nco) (k : ℕ)
    (hrest : (slots x₀ inp reads k kind ps).active = false)
    (hact : (checkforTriggers (slots x₀ inp reads k) (bufptrAt x₀ inp reads k) kind ps).active =
      true) :
    Passed x₀ inp reads kind ps k ↔
      turns (2 ^ 31) (Nco.phaseAt nco
        (lastRise x₀ inp (kind.line ps) (reads k kind ps) - 3)) + kind.posttrigpts ≤
      turns (2 ^ 31) (Nco.phaseAt nco (reads (k + kind.polls) kind ps - 3)) := by
  rw [passed_iff_bursts hrest hact, bursts_eq h, bursts_eq h]

/-- What has been passed is in memory: the counters of the records from the trigger on. -/
theorem stored_of_passed {x₀ : Hw} {inp : ℕ → HwInput} {reads : ℕ → Kind → Ps → ℕ} {kind : Kind}
    {ps : Ps} {k m : ℕ} (h : Passed x₀ inp reads kind ps k) (hm : SentAt x₀ inp reads kind ps k m)
    {j : ℕ} (hj : j < kind.posttrigpts) : recorded x₀ inp reads kind ps m + j ≤
      stored x₀.sys (fun n => (inp n).writer) (reads m kind ps) := by
  have hpassed := h m hm
  have hstored : bursts x₀ inp (reads m kind ps) ≤
      stored x₀.sys (fun n => (inp n).writer) (reads m kind ps) + 1 := by
    unfold bursts stored inMemory
    split
    · omega
    · split_ifs <;> omega
    · omega
  omega

theorem lastRise_le (x₀ : Hw) (inp : ℕ → HwInput) (line : Line) (n : ℕ) :
    lastRise x₀ inp line n ≤ n := by
  induction n with
  | zero => exact le_rfl
  | succ n ih =>
    rw [lastRise]
    split_ifs <;> omega

/-- **Longer polls.** Without resynchronisation the records are passed whenever the polls are at
least 10038419 clocks apart. -/
theorem passed_of_polls {x₀ : Hw} {inp : ℕ → HwInput} {nco : ℕ → Nco.Input}
    {reads : ℕ → Kind → Ps → ℕ} {kind : Kind} {ps : Ps} (h : NcoDriven x₀ inp nco)
    (hfree : ∀ n, (nco n).resyncPulse = false)
    (hpolls : ∀ j, reads j kind ps + 10038419 ≤ reads (j + 1) kind ps) {k : ℕ}
    (hrest : (slots x₀ inp reads k kind ps).active = false)
    (hact : (checkforTriggers (slots x₀ inp reads k) (bufptrAt x₀ inp reads k) kind ps).active =
      true) : Passed x₀ inp reads kind ps k := by
  have hsteps : Nco.steps nco = fun _ => some 427853 := by
    funext n
    simp [Nco.steps, hfree n, h.stepSize n, Nco.stepSize10kHz]
  have hphase : ∀ n, Nco.phaseAt nco n = 427853 * n := by
    intro n
    unfold Nco.phaseAt
    rw [hsteps, phase_const]
  have hwait : ∀ d, reads k kind ps + 10038419 * d ≤ reads (k + d) kind ps := by
    intro d
    induction d with
    | zero => simp
    | succ d ih =>
      rw [Nat.mul_succ, ← Nat.add_assoc, ← Nat.add_assoc]
      exact (Nat.add_le_add_right ih 10038419).trans (hpolls (k + d))
  have hlast := lastRise_le x₀ inp (kind.line ps) (reads k kind ps)
  have hsent := hwait kind.polls
  have hturns : ∀ φ, turns (2 ^ 31) φ = (φ + 2147483648) / 4294967296 := fun _ => rfl
  rw [passed_iff_bursts hrest hact, bursts_eq h, bursts_eq h, hphase, hphase, hturns, hturns]
  have hkind : kind.polls = 50 ∧ kind.posttrigpts = 50000 ∨
      kind.polls = 8 ∧ kind.posttrigpts = 8000 := by
    cases kind <;> decide
  rcases hkind with ⟨hp, hpost⟩ | ⟨hp, hpost⟩
  · rw [hp] at hsent ⊢
    rw [hpost]
    omega
  · rw [hp] at hsent ⊢
    rw [hpost]
    omega

/-! ## A run -/

section Ready

/-- An input with a memory that is always ready. -/
def ready (trigger : Bool) : Input := { pulses 0 with trigger := trigger }

theorem idle_after_ready {x : Sys} (hs : x.regs.state = .idle) (hp : x.regs.prevTrigger = false) :
    (run sysStep x (fun j => ready (j == 0)) 50).regs.state = .idle ∧
      (run sysStep x (fun j => ready (j == 0)) 50).regs.prevTrigger = false := by
  obtain ⟨⟨state, wordnum, addrBase, datacnt, prev, axi, addrPtr, cnt⟩, ddr⟩ := x
  obtain rfl : state = .idle := hs
  obtain rfl : prev = false := hp
  exact ⟨rfl, rfl⟩

variable {trig : ℕ → Bool}
  (hspaced : ∀ n, trig n = true → ∀ j, 0 < j → j < 50 → trig (n + j) = false)

include hspaced

theorem far_of_spaced {m n : ℕ} (hm : trig m = true) (hn : trig n = true) (hmn : m < n) :
    m + 50 ≤ n := by
  by_contra hnear
  have hlow := hspaced m hm (n - m) (by omega) (by omega)
  rw [show m + (n - m) = n by omega, hn] at hlow
  simp at hlow

/-- The writer is idle fifty clocks after the last pulse. -/
theorem idle_between (n : ℕ) (hn : ∀ m < n, trig m = true → m + 50 ≤ n) :
    (run sysStep restSys (fun k => ready (trig k)) n).regs.state = .idle ∧
      (run sysStep restSys (fun k => ready (trig k)) n).regs.prevTrigger = false := by
  induction n using Nat.strong_induction_on with
  | _ n ih =>
    by_cases hlast : ∃ m, m + 50 = n ∧ trig m = true
    · -- a burst ends here
      obtain ⟨m, rfl, hm⟩ := hlast
      obtain ⟨hs, hp⟩ := ih m (by omega) (fun l hl htl => far_of_spaced hspaced htl hm hl)
      have hsame : ∀ j < 50, ready (trig (m + j)) = ready (j == 0) := by
        intro j hj
        rcases Nat.eq_zero_or_pos j with rfl | hpos
        · rw [Nat.add_zero, hm]
          rfl
        · rw [hspaced m hm j hpos hj, show (j == 0) = false by simpa using hpos.ne']
      rw [run_add, run_congr _ _ _ hsame]
      exact idle_after_ready hs hp
    · cases n with
      | zero => exact ⟨rfl, rfl⟩
      | succ n =>
        have hlow : trig n = false := by
          by_contra hhigh
          have := hn n (by omega) (by simpa using hhigh)
          omega
        obtain ⟨hs, hp⟩ := ih n (by omega) (fun m hm htm => by
          have hle := hn m (by omega) htm
          have hne : m + 50 ≠ n + 1 := fun heq => hlast ⟨m, heq, htm⟩
          omega)
        rw [run_succ]
        show (step _ _).state = .idle ∧ (step _ _).prevTrigger = false
        rw [step_of_not_reset rfl, hs, hlow]
        exact ⟨rfl, rfl⟩

theorem taken_of_spaced {n : ℕ} (hn : trig n = true) :
    taken restSys (fun k => ready (trig k)) n = true := by
  obtain ⟨hs, hp⟩ := idle_between hspaced n (fun m hm htm => far_of_spaced hspaced htm hn hm)
  have htrig : (ready (trig n)).trigger = true := hn
  unfold taken accepts
  rw [hs, hp, htrig]
  rfl

end Ready

/-- The generator drives the writer, and the first user line is high at clock 20000. -/
def oneUsr (n : ℕ) : HwInput where
  writer := ready (Nco.pulseOut Nco.freeRunning n)
  trig line := line = .usr .ps1 && n == 20000

theorem ncoDriven_oneUsr : NcoDriven restHw oneUsr Nco.freeRunning where
  reset _ := rfl
  stepSize _ := rfl
  trigger _ := rfl
  once _ hn := taken_of_spaced
    (fun _ hm _ hj hj' => Nco.pulseOut_freeRunning_spaced hm hj hj') hn

theorem bursts_oneUsr (n : ℕ) :
    bursts restHw oneUsr n = (427853 * (n - 3) + 2147483648) / 4294967296 := by
  unfold bursts triggers
  rw [ncoDriven_oneUsr.taken_eq, Nco.tickCount_freeRunning]

theorem lastRise_oneUsr {n : ℕ} (hn : 20001 ≤ n) :
    lastRise restHw oneUsr (.usr .ps1) n = 20000 := by
  induction n, hn using Nat.le_induction with
  | base =>
    have hprev : (run hwStep restHw oneUsr 20000).latches.trigPrev = (oneUsr 19999).trig := rfl
    have hrise : risesAt restHw oneUsr (.usr .ps1) 20000 = true := by
      unfold risesAt Latches.rises
      rw [hprev]
      decide
    rw [lastRise, if_pos hrise]
  | succ n hn ih =>
    have hlow : (oneUsr n).trig (.usr .ps1) = false := by
      simp only [oneUsr]
      simp
      omega
    rw [lastRise, if_neg (by simp [risesAt_of_low hlow]), ih]

theorem activates_oneUsr {reads : ℕ → Kind → Ps → ℕ} (hreads : 20001 ≤ reads 0 .usr .ps1) :
    (checkforTriggers (slots restHw oneUsr reads 0) (bufptrAt restHw oneUsr reads 0) .usr
      .ps1).active = true := by
  apply (activates_iff rfl).mpr
  unfold bufptrAt
  rw [bufptr_run _ powerUp_restHw (fun _ => rfl)]
  show ptrOf (latchedBursts restHw oneUsr (.usr .ps1) _) ≠ 0
  rw [latchedBursts_eq, lastRise_oneUsr hreads, bursts_oneUsr]
  decide

/-- Polls every 10^7 clocks, the first one just after the pulse. -/
def pollsAfter (k : ℕ) (_ : Kind) (_ : Ps) : ℕ := 20001 + 10000000 * k

/-- Polls every 10^7 clocks, the first one 20 ms later. -/
def pollsLater (k : ℕ) (_ : Kind) (_ : Ps) : ℕ := 2020001 + 10000000 * k

/-- A pulse 20 ms before the poll that finds it leaves enough time. -/
theorem oneUsr_passed : Passed restHw oneUsr pollsLater .usr .ps1 0 := by
  refine (passed_iff restHw oneUsr Nco.freeRunning pollsLater .usr .ps1 ncoDriven_oneUsr 0 rfl
    (activates_oneUsr (by decide))).mpr ?_
  have hrise : lastRise restHw oneUsr (Kind.usr.line .ps1) (pollsLater 0 .usr .ps1) = 20000 :=
    lastRise_oneUsr (by decide)
  rw [hrise, Nco.phaseAt_freeRunning, Nco.phaseAt_freeRunning]
  decide

/-- A pulse just before the poll does not: 190 of the records have not been begun when the waveform
is sent. -/
theorem oneUsr_not_passed :
    PowerUp restHw ∧ NcoDriven restHw oneUsr Nco.freeRunning ∧
      (∀ k kind ps, pollsAfter k kind ps + 10000000 ≤ pollsAfter (k + 1) kind ps) ∧
      (slots restHw oneUsr pollsAfter 0 .usr .ps1).active = false ∧
      (checkforTriggers (slots restHw oneUsr pollsAfter 0) (bufptrAt restHw oneUsr pollsAfter 0)
        .usr .ps1).active = true ∧
      ¬Passed restHw oneUsr pollsAfter .usr .ps1 0 := by
  have hact : (checkforTriggers (slots restHw oneUsr pollsAfter 0)
      (bufptrAt restHw oneUsr pollsAfter 0) .usr .ps1).active = true :=
    activates_oneUsr (by decide)
  refine ⟨powerUp_restHw, ncoDriven_oneUsr, ?_, rfl, hact, ?_⟩
  · intro k kind ps
    show 20001 + 10000000 * k + 10000000 ≤ 20001 + 10000000 * (k + 1)
    omega
  · intro hpassed
    have hle := (passed_iff_bursts rfl hact).mp hpassed
    have hrise : lastRise restHw oneUsr (Kind.usr.line .ps1) (pollsAfter 0 .usr .ps1) = 20000 :=
      lastRise_oneUsr (by decide)
    rw [hrise, bursts_oneUsr, bursts_oneUsr] at hle
    revert hle
    decide

end Psc.Snapshot
