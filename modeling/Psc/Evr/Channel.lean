import Psc.Lib.Clocked

/-!
# Event channels

`event_rcv_chan.vhd`: a code of the event stream that is the channel's own starts a delay counter,
and the end of the delay a width counter, which times the trigger pulse. Each of the four processes
sees the others one clock late, so both counters pass their limit by one.

`trigger_iff`: an event gives one pulse, of `myWidth + 1` clocks. `pulses_iff`: the channel makes
pulses of `myWidth` clocks on the streams without an event only.
-/

namespace Psc.EventChannel

open Clocked

/-- The input ports. -/
structure Input where
  reset : Bool
  eventStream : BitVec 8
  myEvent : BitVec 8
  myDelay : BitVec 32
  myWidth : BitVec 32
  myPolarity : Bool

/-- The registers. -/
@[ext] structure State where
  delayCounter : BitVec 32
  widthCounter : BitVec 32
  startDelay : Bool
  startWidth : Bool

/-- The initial values, and those of a reset. -/
def cleared : State := ⟨0, 0, false, false⟩

/-- One clock: each field is a process of the source. -/
def step (s : State) (i : Input) : State where
  delayCounter :=
    if i.reset then 0
    else if s.startDelay then s.delayCounter + 1
    else if i.myDelay ≤ s.delayCounter then 0
    else s.delayCounter
  widthCounter :=
    if i.reset then 0
    else if s.startWidth then s.widthCounter + 1
    else if i.myWidth ≤ s.widthCounter then 0
    else s.widthCounter
  startDelay :=
    if i.reset then false
    else if i.myEvent = i.eventStream then true
    else if i.myDelay ≤ s.delayCounter then false
    else s.startDelay
  startWidth :=
    if i.reset then false
    else if i.myDelay < s.delayCounter then true
    else if i.myWidth ≤ s.widthCounter then false
    else s.startWidth

/-- `trigger`. -/
def trigger (s : State) (i : Input) : Bool :=
  let trigVal := if i.myPolarity then !s.startWidth else s.startWidth
  if i.myDelay ≠ 0 ∧ i.myWidth ≠ 0 then trigVal else false

theorem step_of_reset {s : State} {i : Input} (h : i.reset = true) : step s i = cleared := by
  simp [step, h, cleared]

/-! ## One pulse -/

section Channel

variable (ev : BitVec 8) (D W : BitVec 32)

/-- The inputs of a channel with polarity 0, out of reset. -/
def input (code : BitVec 8) : Input := ⟨false, code, ev, D, W, false⟩

/-- The registers, `a` clocks after those that took the event. -/
def pulseState (a : ℕ) : State where
  delayCounter := if a ≤ D.toNat + 1 then BitVec.ofNat 32 a else 0
  widthCounter :=
    if D.toNat + 2 ≤ a ∧ a ≤ D.toNat + W.toNat + 3 then BitVec.ofNat 32 (a - (D.toNat + 2)) else 0
  startDelay := a ≤ D.toNat
  startWidth := D.toNat + 2 ≤ a ∧ a ≤ D.toNat + W.toNat + 2

variable {ev D W} (hD : 0 < D.toNat) (hW : 0 < W.toNat)
  (hD' : D.toNat < 2 ^ 31) (hW' : W.toNat < 2 ^ 31)

theorem pulseState_of_le {a : ℕ} (ha : D.toNat + W.toNat + 4 ≤ a) :
    pulseState D W a = cleared := by
  apply State.ext
  · exact if_neg (by omega)
  · exact if_neg (by omega)
  · exact decide_eq_false (by omega)
  · exact decide_eq_false (by omega)

include hD' in
theorem toNat_delayCounter (a : ℕ) :
    (pulseState D W a).delayCounter.toNat = if a ≤ D.toNat + 1 then a else 0 := by
  unfold pulseState
  by_cases h : a ≤ D.toNat + 1
  · simp only [if_pos h]
    exact Nat.mod_eq_of_lt (by omega)
  · simp [if_neg h]

include hW' in
theorem toNat_widthCounter (a : ℕ) : (pulseState D W a).widthCounter.toNat =
    if D.toNat + 2 ≤ a ∧ a ≤ D.toNat + W.toNat + 3 then a - (D.toNat + 2) else 0 := by
  unfold pulseState
  by_cases h : D.toNat + 2 ≤ a ∧ a ≤ D.toNat + W.toNat + 3
  · simp only [if_pos h]
    exact Nat.mod_eq_of_lt (by omega)
  · simp [if_neg h]

include hD hD' in
theorem myDelay_le_iff (a : ℕ) :
    D ≤ (pulseState D W a).delayCounter ↔ D.toNat ≤ a ∧ a ≤ D.toNat + 1 := by
  rw [BitVec.le_def, toNat_delayCounter hD']
  split_ifs <;> omega

include hD' in
theorem myDelay_lt_iff (a : ℕ) :
    D < (pulseState D W a).delayCounter ↔ a = D.toNat + 1 := by
  rw [BitVec.lt_def, toNat_delayCounter hD']
  split_ifs <;> omega

include hW hW' in
theorem myWidth_le_iff (a : ℕ) : W ≤ (pulseState D W a).widthCounter ↔
    D.toNat + W.toNat + 2 ≤ a ∧ a ≤ D.toNat + W.toNat + 3 := by
  rw [BitVec.le_def, toNat_widthCounter hW']
  split_ifs <;> omega

include hD hW hD' hW'

/-- A clock without an event. -/
theorem step_pulseState {code : BitVec 8} (hcode : ev ≠ code) (a : ℕ) :
    step (pulseState D W a) (input ev D W code) = pulseState D W (a + 1) := by
  have hdelay := @myDelay_le_iff D W hD hD' a
  have hdelay' := @myDelay_lt_iff D W hD' a
  have hwidth := @myWidth_le_iff D W hW hW' a
  apply State.ext
  · simp only [step, input, hdelay, Bool.false_eq_true, if_false]
    simp only [pulseState, decide_eq_true_eq, Nat.add_le_add_iff_right]
    by_cases hle : a ≤ D.toNat
    · rw [if_pos hle, if_pos hle, if_pos (by omega), BitVec.ofNat_add]
      rfl
    · rw [if_neg hle, if_neg hle]
      split_ifs <;> first | rfl | omega
  · simp only [step, input, hwidth, Bool.false_eq_true, if_false]
    simp only [pulseState, decide_eq_true_eq]
    by_cases hhigh : D.toNat + 2 ≤ a ∧ a ≤ D.toNat + W.toNat + 2
    · rw [if_pos hhigh, if_pos (by omega), if_pos (by omega),
        show a + 1 - (D.toNat + 2) = a - (D.toNat + 2) + 1 by omega, BitVec.ofNat_add]
      rfl
    · rw [if_neg hhigh]
      by_cases hfirst : a = D.toNat + 1
      · rw [if_neg (by omega), if_neg (by omega), if_pos (by omega), hfirst,
          show D.toNat + 1 + 1 - (D.toNat + 2) = 0 by omega]
        rfl
      · split_ifs <;> first | rfl | omega
  · simp only [step, input, hdelay, if_neg hcode]
    rw [Bool.eq_iff_iff]
    simp [pulseState]
    omega
  · simp only [step, input, hdelay', hwidth]
    rw [Bool.eq_iff_iff]
    simp [pulseState]
    omega

omit hD' hW' in
theorem step_cleared_of_event {code : BitVec 8} (hcode : ev = code) :
    step cleared (input ev D W code) = pulseState D W 0 := by
  have hdelay : ¬D ≤ 0 := by
    rw [BitVec.le_def]
    exact Nat.not_le.mpr hD
  have hwidth : ¬W ≤ 0 := by
    rw [BitVec.le_def]
    exact Nat.not_le.mpr hW
  apply State.ext
  · simp [step, input, cleared, pulseState]
  · simp [step, input, cleared, pulseState]
  · simp [step, input, hcode, pulseState]
  · simp [step, input, cleared, pulseState]

theorem step_cleared {code : BitVec 8} (hcode : ev ≠ code) :
    step cleared (input ev D W code) = cleared := by
  have hidle := @pulseState_of_le D W (D.toNat + W.toNat + 4) le_rfl
  have hstep := step_pulseState hD hW hD' hW' hcode (D.toNat + W.toNat + 4)
  rw [hidle, pulseState_of_le (by omega)] at hstep
  exact hstep

/-! ## Streams of events -/

/-- The registers before clock `n`. -/
def runAt (ev : BitVec 8) (D W : BitVec 32) (stream : ℕ → BitVec 8) (n : ℕ) : State :=
  run step cleared (fun k => input ev D W (stream k)) n

/-- `trigger` at clock `n`. -/
def triggerAt (ev : BitVec 8) (D W : BitVec 32) (stream : ℕ → BitVec 8) (n : ℕ) : Bool :=
  trigger (runAt ev D W stream n) (input ev D W (stream n))

/-- The events are far enough apart for one pulse each. -/
def Spaced (ev : BitVec 8) (D W : BitVec 32) (stream : ℕ → BitVec 8) : Prop :=
  ∀ t t', stream t = ev → stream t' = ev → t < t' → t + D.toNat + W.toNat + 4 < t'

/-- Each event is followed, `latency` clocks later, by a pulse of `myWidth` clocks, and there is no
other. -/
def Pulses (ev : BitVec 8) (D W : BitVec 32) (stream : ℕ → BitVec 8) (latency : ℕ) : Prop :=
  ∀ n, triggerAt ev D W stream n = true ↔
    ∃ t, stream t = ev ∧ t + latency ≤ n ∧ n < t + latency + W.toNat

section Stream

variable {stream : ℕ → BitVec 8} (hs : Spaced ev D W stream)

include hs in
/-- Before the first event the channel is idle, and after an event it makes its pulse. -/
theorem runAt_cases (n : ℕ) :
    ((∀ u < n, stream u ≠ ev) ∧ runAt ev D W stream n = cleared) ∨
    ∃ t a, n = t + 1 + a ∧ stream t = ev ∧ (∀ u, t < u → u < n → stream u ≠ ev) ∧
      runAt ev D W stream n = pulseState D W a := by
  induction n with
  | zero => exact .inl ⟨by simp, rfl⟩
  | succ n ih =>
    have hrun : runAt ev D W stream (n + 1) =
      step (runAt ev D W stream n) (input ev D W (stream n)) := rfl
    by_cases hn : stream n = ev
    · -- the pulse of the event before has ended
      have hidle : runAt ev D W stream n = cleared := by
        rcases ih with ⟨-, hidle⟩ | ⟨t, a, rfl, ht, -, hstate⟩
        · exact hidle
        · have hfar := hs t (t + 1 + a) ht hn (by omega)
          rw [hstate, pulseState_of_le (by omega)]
      refine .inr ⟨n, 0, rfl, hn, fun u h1 h2 => by omega, ?_⟩
      rw [hrun, hidle, step_cleared_of_event hD hW hn.symm]
    · have hquiet : ∀ {t}, (∀ u, t < u → u < n → stream u ≠ ev) →
          ∀ u, t < u → u < n + 1 → stream u ≠ ev := by
        intro t hnone u h1 h2
        rcases Nat.lt_succ_iff_lt_or_eq.mp h2 with h2 | rfl
        · exact hnone u h1 h2
        · exact hn
      rcases ih with ⟨hnone, hidle⟩ | ⟨t, a, heq, ht, hnone, hstate⟩
      · refine .inl ⟨fun u hu => ?_, ?_⟩
        · rcases Nat.lt_succ_iff_lt_or_eq.mp hu with hu | rfl
          · exact hnone u hu
          · exact hn
        · rw [hrun, hidle, step_cleared hD hW hD' hW' (Ne.symm hn)]
      · refine .inr ⟨t, a + 1, by omega, ht, hquiet hnone, ?_⟩
        rw [hrun, hstate, step_pulseState hD hW hD' hW' (Ne.symm hn)]

omit hD' hW' in
theorem trigger_input (s : State) (code : BitVec 8) :
    trigger s (input ev D W code) = s.startWidth := by
  have hD0 : D ≠ 0#32 := by
    rintro rfl
    simp at hD
  have hW0 : W ≠ 0#32 := by
    rintro rfl
    simp at hW
  simp [trigger, input, hD0, hW0]

include hs in
/-- **The pulses**: an event is followed, `myDelay + 3` clocks later, by `myWidth + 1` clocks of the
trigger, and there are no others. -/
theorem trigger_iff (n : ℕ) : triggerAt ev D W stream n = true ↔
    ∃ t, stream t = ev ∧ t + (D.toNat + 3) ≤ n ∧ n ≤ t + (D.toNat + 3) + W.toNat := by
  rw [triggerAt, trigger_input hD hW]
  rcases runAt_cases hD hW hD' hW' hs n with ⟨hnone, hidle⟩ | ⟨t, a, heq, ht, hnone, hstate⟩
  · rw [hidle]
    refine ⟨fun h => by simp [cleared] at h, ?_⟩
    rintro ⟨t, ht, hle, -⟩
    exact absurd ht (hnone t (by omega))
  · rw [hstate]
    simp only [pulseState, decide_eq_true_eq]
    constructor
    · intro h
      exact ⟨t, ht, by omega, by omega⟩
    · rintro ⟨t', ht', hle, hge⟩
      have htt : t = t' := by
        rcases Nat.lt_trichotomy t' t with hlt | heq | hgt
        · have hfar := hs t' t ht' ht hlt
          omega
        · exact heq.symm
        · exact absurd ht' (hnone t' hgt (by omega))
      omega

include hs in
/-- **A channel makes pulses of `myWidth` clocks** if and only if there is no event, whatever the
latency is. -/
theorem pulses_iff (latency : ℕ) :
    Pulses ev D W stream latency ↔ ∀ t, stream t ≠ ev := by
  constructor
  · intro hall t ht
    obtain ⟨t₁, ht₁, hle₁, hlt₁⟩ := (hall (t + (D.toNat + 3))).mp
      ((trigger_iff hD hW hD' hW' hs _).mpr ⟨t, ht, le_rfl, Nat.le_add_right _ _⟩)
    -- the trigger is still high when the pulse of `t₁` should have ended
    obtain ⟨t₂, ht₂, hle₂, hlt₂⟩ := (hall (t₁ + latency + W.toNat)).mp
      ((trigger_iff hD hW hD' hW' hs _).mpr ⟨t, ht, by omega, by omega⟩)
    have hfar := hs t₁ t₂ ht₁ ht₂ (by omega)
    omega
  · intro hnone n
    rw [trigger_iff hD hW hD' hW' hs]
    constructor <;> rintro ⟨t, ht, -⟩ <;> exact absurd ht (hnone t)

end Stream

end Channel

/-! ## The 1 Hz channel -/

/-- An event 30 every 100 clocks. -/
def every100 (n : ℕ) : BitVec 8 := if n % 100 = 0 then 30 else 0

theorem every100_eq_iff (n : ℕ) : every100 n = 30 ↔ n % 100 = 0 := by
  unfold every100
  split_ifs with h <;> simp [h]

theorem spaced_every100 : Spaced 30 1 12 every100 := by
  intro t t' ht ht' hlt
  rw [every100_eq_iff] at ht ht'
  simp
  omega

/-- With the delay 1 and the width 12 of the 1 Hz event, no latency gives pulses of 12 clocks. -/
theorem not_pulses_every100 : ¬Pulses 30 1 12 every100 4 := by
  rw [pulses_iff (by decide) (by decide) (by decide) (by decide) spaced_every100]
  exact fun h => h 0 rfl

/-- The pulse of the first event is 13 clocks long, whatever the latency is. -/
theorem pulse_too_long :
    Spaced 30 1 12 every100 ∧ ¬∃ latency, Pulses 30 1 12 every100 latency := by
  refine ⟨spaced_every100, ?_⟩
  rintro ⟨latency, hall⟩
  have htrig : ∀ n, triggerAt 30 1 12 every100 n = true ↔
      ∃ t, every100 t = 30 ∧ t + 4 ≤ n ∧ n ≤ t + 16 := by
    intro n
    rw [trigger_iff (by decide) (by decide) (by decide) (by decide) spaced_every100]
    rfl
  obtain ⟨t₁, ht₁, hle₁, hlt₁⟩ := (hall 4).mp ((htrig 4).mpr ⟨0, rfl, by omega, by omega⟩)
  obtain ⟨t₂, ht₂, hle₂, hlt₂⟩ := (hall 16).mp ((htrig 16).mpr ⟨0, rfl, by omega, by omega⟩)
  rw [every100_eq_iff] at ht₁ ht₂
  have hwidth : (12 : BitVec 32).toNat = 12 := rfl
  omega

end Psc.EventChannel
