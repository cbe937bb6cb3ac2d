import Mathlib.Algebra.Order.Field.Basic
import Mathlib.Tactic.Positivity
import Psc.Control.Binary32
import Psc.Snapshot.Nco

/-!
# The ticks and their frequency

`tenkhz_gen.vhd`: the pulses of the oscillator are the ticks, and a counter measures the clocks from
one to the next. `sadata_push` takes the register for the period.

1. `freq_after`: the register has one clock less than there are between the last two ticks.
2. `gap_of_ticks`: without resynchronisation there is one turn of the oscillator between them.
3. `far_of_ticks`: with one, at least half a turn.
4. `tenkhzFreq_near`: what `sadata_push` makes of the register is its inverse, up to the roundings.
-/

namespace Psc.TenkhzGen

open Clocked PhaseAcc Rounding Control

/-- The registers. -/
structure State where
  nco : Nco.State
  rateCnt : BitVec 32
  trigPrev : Bool
  freq : BitVec 32

/-- `tenkhz_trig`. -/
def State.trig (s : State) : Bool := s.nco.outPulseInt

/-- One clock. The measurement goes on in a reset. -/
def step (s : State) (i : Nco.Input) : State where
  nco := Nco.step s.nco i
  rateCnt := if !s.trigPrev && s.trig then 0 else s.rateCnt + 1
  trigPrev := s.trig
  freq := if !s.trigPrev && s.trig then s.rateCnt else s.freq

/-- The result of an operation on numbers of type `double`. -/
def double (x : ℚ) : ℚ := toBits 53 x

/-- `sadata.tenkhz_freq`, in hertz: the register goes through a `float`, the operations are on
numbers of type `double`, and the result is stored in a `float`. -/
def tenkhzFreq (reg : BitVec 32) : BitVec 32 :=
  binary32.word (double (1 / double (binary32.value (binary32.word reg.toNat) *
    double (10 / 10 ^ 9))))

/-- The clocks of the ticks. -/
def tick (s : State) (inp : ℕ → Nco.Input) (n : ℕ) : Bool := (run step s inp n).trig

/-- A run from a reset in clock 0, with a constant step. -/
structure Steady (d : ℕ) (inp : ℕ → Nco.Input) : Prop where
  reset : (inp 0).reset = true
  low : ∀ n, 0 < n → (inp n).reset = false
  held : ∀ n, (inp n).stepSize.toNat = d
  pos : 0 < d
  le : d ≤ 2 ^ 31

section Run

variable {d : ℕ} {s : State} {inp : ℕ → Nco.Input} {t t' n : ℕ}

/-- The oscillator after the reset. -/
def ncoRun (inp : ℕ → Nco.Input) (n : ℕ) : Nco.Input := inp (1 + n)

theorem tick_eq (h : Steady d inp) (n : ℕ) :
    tick s inp (1 + n) = Nco.pulseOut (ncoRun inp) n := by
  have hnco : (run step s inp (1 + n)).nco = run Nco.step s.nco inp (1 + n) :=
    run_map step s inp State.nco (fun _ i => i) (fun _ _ => rfl) (1 + n)
  have hfirst : run Nco.step s.nco inp 1 = Nco.cleared := by
    change Nco.step s.nco (inp 0) = _
    rw [Nco.step, if_pos h.reset]
  unfold tick State.trig
  rw [hnco, run_add, hfirst]
  rfl

theorem ncoRun_low (h : Steady d inp) (n : ℕ) : (ncoRun inp n).reset = false :=
  h.low (1 + n) (by omega)

theorem steps_ncoRun (h : Steady d inp) (n : ℕ) : ∀ e ∈ Nco.steps (ncoRun inp) n, e = d := by
  intro e he
  unfold Nco.steps at he
  split_ifs at he
  · simp at he
  · rw [Option.mem_some] at he
    exact he.symm.trans (h.held (1 + n))

theorem exists_rises (h : Steady d inp) (ht : 0 < t) (htick : tick s inp t = true) :
    ∃ m, t = m + 4 ∧ rises (2 ^ 31) (Nco.steps (ncoRun inp)) m = true := by
  obtain ⟨k, rfl⟩ : ∃ k, t = 1 + k := ⟨t - 1, by omega⟩
  rw [tick_eq h] at htick
  obtain ⟨m, rfl, hm⟩ := Nco.exists_rises_of_pulseOut (ncoRun_low h) htick
  exact ⟨m, by omega, hm⟩

/-- Whatever is resynchronised, there is half a turn between two ticks. -/
theorem far_of_ticks (h : Steady d inp) (ht : 0 < t) (htt' : t < t') (htick : tick s inp t = true)
    (htick' : tick s inp t' = true) : 2 ^ 31 ≤ (t' - t) * d := by
  obtain ⟨m, rfl, hm⟩ := exists_rises h ht htick
  obtain ⟨m', rfl, hm'⟩ := exists_rises h (by omega) htick'
  have := le_mul_of_rises (by norm_num) h.le (steps_ncoRun h) hm hm' (by omega)
  rwa [Nat.add_sub_add_right]

/-- Without resynchronisation there is a turn between two ticks in sequence, but for less than a
step. -/
theorem gap_of_ticks (h : Steady d inp) (ht : 0 < t) (htt' : t < t') (htick : tick s inp t = true)
    (htick' : tick s inp t' = true) (hnone : ∀ n, t < n → n < t' → tick s inp n = false)
    (hquiet : ∀ n, t < n + 3 → n + 3 < t' → (inp n).resyncPulse = false) :
    2 ^ 32 < (t' - t + 1) * d ∧ (t' - t) * d < 2 ^ 32 + d := by
  obtain ⟨m, rfl, hm⟩ := exists_rises h ht htick
  obtain ⟨m', rfl, hm'⟩ := exists_rises h (by omega) htick'
  rw [Nat.add_sub_add_right]
  refine turn_of_rises (by norm_num) h.le (steps_ncoRun h) hm hm' (by omega) fun k hmk hkm =>
    ⟨?_, ?_⟩
  · have hlow := hnone (k + 4) (by omega) (by omega)
    rw [show k + 4 = 1 + (k + 3) by omega, tick_eq h, Nco.pulseOut_add_three (ncoRun_low h)] at hlow
    exact hlow
  · unfold Nco.steps
    rw [show (ncoRun inp k).resyncPulse = false from hquiet (1 + k) (by omega) (by omega)]
    simp

/-! ## The measurement -/

theorem tick_pred (h : Steady d inp) (ht : 0 < t) (htick : tick s inp t = true) :
    tick s inp (t - 1) = false := by
  obtain ⟨k, rfl⟩ : ∃ k, t = 1 + (k + 1) := by
    obtain ⟨m, rfl, -⟩ := exists_rises h ht htick
    exact ⟨m + 2, by omega⟩
  rw [show 1 + (k + 1) - 1 = 1 + k by omega, tick_eq h]
  rw [tick_eq h] at htick
  by_contra hup
  rw [Nco.pulseOut_succ (ncoRun inp) (by simpa using hup)] at htick
  cases htick

theorem edge_of_tick (h : Steady d inp) (ht : 0 < t) (htick : tick s inp t = true) :
    run step s inp (t + 1) = { run step s inp (t + 1) with
      rateCnt := 0, trigPrev := true, freq := (run step s inp t).rateCnt } := by
  have hprev : (run step s inp t).trigPrev = false := by
    obtain ⟨k, rfl⟩ : ∃ k, t = k + 1 := ⟨t - 1, by omega⟩
    exact tick_pred h ht htick
  have hedge : (!(run step s inp t).trigPrev && (run step s inp t).trig) = true := by
    rw [hprev]
    exact htick
  have hrate : (run step s inp (t + 1)).rateCnt = 0 := if_pos hedge
  have hfreq : (run step s inp (t + 1)).freq = (run step s inp t).rateCnt := if_pos hedge
  have htrig : (run step s inp (t + 1)).trigPrev = true := htick
  rw [← hrate, ← hfreq, ← htrig]

/-- Between ticks the counter goes on and the register stays. -/
theorem run_of_none (hnone : ∀ n, t < n → n < t' → tick s inp n = false) {k : ℕ}
    (hk : t + 1 + k ≤ t') :
    (run step s inp (t + 1 + k)).rateCnt =
        (run step s inp (t + 1)).rateCnt + BitVec.ofNat 32 k ∧
      (run step s inp (t + 1 + k)).freq = (run step s inp (t + 1)).freq := by
  induction k with
  | zero => simp
  | succ k ih =>
    obtain ⟨hcnt, hfreq⟩ := ih (by omega)
    have hedge : ¬(!(run step s inp (t + 1 + k)).trigPrev && (run step s inp (t + 1 + k)).trig) =
        true := by
      have hlow : (run step s inp (t + 1 + k)).trig = false := hnone _ (by omega) (by omega)
      simp [hlow]
    constructor
    · have hnext : (run step s inp (t + 1 + k + 1)).rateCnt =
          (run step s inp (t + 1 + k)).rateCnt + 1 := if_neg hedge
      rw [← Nat.add_assoc, hnext, hcnt, BitVec.add_assoc, BitVec.ofNat_add]
      rfl
    · have hnext : (run step s inp (t + 1 + k + 1)).freq = (run step s inp (t + 1 + k)).freq :=
        if_neg hedge
      rw [← Nat.add_assoc, hnext, hfreq]

/-- The register after two ticks, up to the next. -/
theorem freq_after (h : Steady d inp) (ht : 0 < t) (htt' : t < t') (htick : tick s inp t = true)
    (htick' : tick s inp t' = true) (hnone : ∀ n, t < n → n < t' → tick s inp n = false)
    (hn : t' < n) (hlast : ∀ m, t' < m → m < n → tick s inp m = false) :
    (run step s inp n).freq = BitVec.ofNat 32 (t' - t - 1) := by
  obtain ⟨j, rfl⟩ := Nat.exists_eq_add_of_lt htt'
  obtain ⟨k, rfl⟩ := Nat.exists_eq_add_of_lt hn
  have hfirst : (run step s inp (t + 1)).rateCnt = 0 :=
    (congrArg State.rateCnt (edge_of_tick h ht htick) :)
  have hcnt := (run_of_none (s := s) hnone (k := j) (by omega)).1
  have hfreq : (run step s inp (t + j + 1 + 1)).freq = (run step s inp (t + j + 1)).rateCnt :=
    (congrArg State.freq (edge_of_tick h (by omega) htick') :)
  have hstay := (run_of_none (s := s) hlast (k := k) (by omega)).2
  rw [show t + j + 1 + k + 1 = t + j + 1 + 1 + k by omega, hstay, hfreq,
    show t + j + 1 = t + 1 + j by omega, hcnt, hfirst, show t + 1 + j - t - 1 = j by omega]
  exact BitVec.zero_add _

end Run

/-! ## The frequency -/

/-- `y` is `x` up to the part `ε` of it. -/
def Near (ε x y : ℚ) : Prop := (1 - ε) * x ≤ y ∧ y ≤ (1 + ε) * x

theorem near_of_abs_le {n : ℕ} {x y : ℚ} (h : |y - x| ≤ x / 2 ^ n) : Near (1 / 2 ^ n) x y := by
  obtain ⟨h1, h2⟩ := abs_le.mp h
  rw [div_eq_mul_one_div] at h1 h2
  constructor <;> linarith

theorem near_double {x : ℚ} (hx : 0 ≤ x) : Near (1 / 2 ^ 53) x (double x) := by
  have h := abs_toBits_sub_le 53 x
  rw [abs_of_nonneg hx] at h
  exact near_of_abs_le h

theorem near_float {x : ℚ} (hlow : 1 / 2 ^ 126 ≤ x) (hhigh : x < 2 ^ 100) :
    Near (1 / 2 ^ 24) x (binary32.value (binary32.word x)) :=
  near_of_abs_le (binary32_word_near hlow hhigh)

theorem Near.mul {ε δ x y a b : ℚ} (hε : ε ≤ 1) (hδ : δ ≤ 1) (hx : 0 ≤ x) (ha : 0 ≤ a)
    (h : Near ε x y) (h' : Near δ a b) :
    (1 - ε) * (1 - δ) * (x * a) ≤ y * b ∧ y * b ≤ (1 + ε) * (1 + δ) * (x * a) := by
  have hy : 0 ≤ y := (mul_nonneg (by linarith) hx).trans h.1
  have hb : 0 ≤ b := (mul_nonneg (by linarith) ha).trans h'.1
  constructor
  · calc (1 - ε) * (1 - δ) * (x * a) = (1 - ε) * x * ((1 - δ) * a) := by ring
      _ ≤ y * b := mul_le_mul h.1 h'.1 (mul_nonneg (by linarith) ha) hy
  · calc y * b ≤ (1 + ε) * x * ((1 + δ) * a) := mul_le_mul h.2 h'.2 hb (hy.trans h.2)
      _ = (1 + ε) * (1 + δ) * (x * a) := by ring

/-- The frequency times the register is the frequency of the clock, up to one part in `2 ^ 22`. -/
theorem tenkhzFreq_near {reg : BitVec 32} (hreg : reg ≠ 0) :
    Near (1 / 2 ^ 22) (10 ^ 8) (binary32.value (tenkhzFreq reg) * reg.toNat) := by
  have hpos : 0 < reg.toNat := Nat.pos_of_ne_zero fun h => hreg (BitVec.eq_of_toNat_eq h)
  have hone : (1 : ℚ) ≤ reg.toNat := by exact_mod_cast hpos
  have hlt : (reg.toNat : ℚ) < 2 ^ 32 := by exact_mod_cast reg.isLt
  unfold tenkhzFreq
  generalize (reg.toNat : ℚ) = k at *
  have hg := near_float (x := k) (by norm_num; linarith) (by linarith)
  have hc := near_double (x := 10 / 10 ^ 9) (by norm_num)
  obtain ⟨hgc, hgc'⟩ := hg.mul (by norm_num) (by norm_num) (by linarith) (by norm_num) hc
  generalize binary32.value (binary32.word k) * double (10 / 10 ^ 9) = x at *
  -- the period in seconds
  have hx : 0 ≤ x := by linarith
  obtain ⟨hp, hp'⟩ := near_double hx
  generalize double x = p at *
  have hplow : 1 / 10 ^ 9 ≤ p := by linarith
  have hphigh : p ≤ 10 ^ 2 := by linarith
  have hp0 : 0 < p := by linarith
  have hinv : 1 / 10 ^ 2 ≤ 1 / p ∧ 1 / p ≤ 10 ^ 9 := by
    rw [div_le_div_iff₀ (by norm_num) hp0, div_le_iff₀ hp0]
    constructor <;> linarith
  have hr := near_double (x := 1 / p) (by positivity)
  obtain ⟨hr1, hr2⟩ := hr
  obtain ⟨hf1, hf2⟩ := near_float (x := double (1 / p)) (by linarith) (by linarith)
  generalize double (1 / p) = r at *
  generalize binary32.value (binary32.word r) = f at *
  -- the register by the period
  have ht : 10 ^ 8 * (1 - 1 / 2 ^ 23) ≤ 1 / p * k ∧ 1 / p * k ≤ 10 ^ 8 * (1 + 1 / 2 ^ 23) := by
    rw [one_div_mul_eq_div, le_div_iff₀ hp0, div_le_iff₀ hp0]
    constructor <;> linarith
  -- the frequency by the period
  have hf : (1 - 1 / 2 ^ 24) * (1 - 1 / 2 ^ 53) * (1 / p) ≤ f ∧
      f ≤ (1 + 1 / 2 ^ 24) * (1 + 1 / 2 ^ 53) * (1 / p) := by
    constructor <;> linarith
  have hk0 : 0 ≤ k := by linarith
  have hlow := mul_le_mul_of_nonneg_right hf.1 hk0
  have hhigh := mul_le_mul_of_nonneg_right hf.2 hk0
  rw [mul_assoc _ (1 / p)] at hlow hhigh
  constructor <;> linarith

/-- **The frequency.** In a run from a reset with a constant step, whatever is resynchronised, the
register has after each tick one clock less than the period that ends with it, and two ticks are
half a turn apart. Without resynchronisation in the period what `sadata_push` makes of it is above
the frequency of the ticks, by less than two steps of the oscillator, up to one part in `2 ^ 22`,
which the roundings may take. -/
theorem freq_of_ticks {d : ℕ} {inp : ℕ → Nco.Input} (h : Steady d inp) (s : State) {t t' : ℕ}
    (ht : 0 < t) (htt' : t < t') (htick : tick s inp t = true) (htick' : tick s inp t' = true)
    (hnone : ∀ n, t < n → n < t' → tick s inp n = false) :
    2 ^ 31 ≤ (t' - t) * d ∧
    ∀ n, t' < n → (∀ m, t' < m → m < n → tick s inp m = false) →
      (run step s inp n).freq = BitVec.ofNat 32 (t' - t - 1) ∧
      ((∀ k, t < k + 3 → k + 3 < t' → (inp k).resyncPulse = false) →
        (1 - 1 / 2 ^ 22) * (d * 10 ^ 8 / 2 ^ 32 : ℚ) <
            binary32.value (tenkhzFreq (run step s inp n).freq) ∧
        binary32.value (tenkhzFreq (run step s inp n).freq) * (2 ^ 32 - 2 * d) <
          (1 + 1 / 2 ^ 22) * (d * 10 ^ 8)) := by
  refine ⟨far_of_ticks h ht htt' htick htick', fun n hn hlast => ?_⟩
  have hfreq := freq_after h ht htt' htick htick' hnone hn hlast
  refine ⟨hfreq, fun hquiet => ?_⟩
  obtain ⟨hlow, hhigh⟩ := gap_of_ticks h ht htt' htick htick' hnone hquiet
  have hd := h.le
  have hpos := h.pos
  rw [hfreq]
  generalize t' - t = g at *
  have hg : 2 ≤ g := by
    by_contra hlt
    have : (g + 1) * d ≤ 2 * d := Nat.mul_le_mul_right d (by omega)
    omega
  obtain ⟨k, rfl⟩ : ∃ k, g = k + 1 := ⟨g - 1, by omega⟩
  rw [Nat.succ_mul k] at hhigh
  have hk : k ≤ k * d := Nat.le_mul_of_pos_right k hpos
  rw [Nat.add_sub_cancel]
  have hreg : (BitVec.ofNat 32 k).toNat = k := by
    rw [BitVec.toNat_ofNat, Nat.mod_eq_of_lt (by omega)]
  have hne : BitVec.ofNat 32 k ≠ 0 := fun h0 => by
    rw [h0] at hreg
    have hzero : 0 = k := hreg
    omega
  obtain ⟨hf, hf'⟩ := tenkhzFreq_near hne
  rw [hreg] at hf hf'
  generalize binary32.value (tenkhzFreq (BitVec.ofNat 32 k)) = f at *
  have hlow' : (2 ^ 32 : ℚ) < (k + 2) * d := by exact_mod_cast hlow
  have hhigh' : (k : ℚ) * d < 2 ^ 32 := by
    have : k * d < 2 ^ 32 := by omega
    exact_mod_cast this
  have hd' : (0 : ℚ) ≤ d := Nat.cast_nonneg d
  have hf0 : 0 < f := by
    by_contra hneg
    have := mul_nonpos_of_nonpos_of_nonneg (not_lt.mp hneg) (Nat.cast_nonneg (α := ℚ) k)
    linarith
  constructor
  · have := mul_le_mul_of_nonneg_right hf hd'
    have := mul_lt_mul_of_pos_left hhigh' hf0
    linarith
  · have := mul_le_mul_of_nonneg_right hf' hd'
    have := mul_lt_mul_of_pos_left hlow' hf0
    linarith

/-- The registers at configuration. -/
def restState : State := ⟨Nco.cleared, 0, false, 0⟩

/-- A reset, and then the step of `main`. -/
def freeRun (n : ℕ) : Nco.Input := ⟨n == 0, Nco.stepSize10kHz, false⟩

theorem steady_freeRun : Steady 427853 freeRun where
  reset := rfl
  low _ hn := beq_false_of_ne hn.ne'
  held _ := rfl
  pos := by decide
  le := by decide

theorem ncoRun_freeRun : ncoRun freeRun = Nco.freeRunning := by
  funext n
  unfold ncoRun freeRun Nco.freeRunning
  rw [beq_false_of_ne (by omega)]

/-- The first two ticks come in clocks 5023 and 15061. -/
theorem tick_freeRun {n : ℕ} (hn : 0 < n) (hn' : n < 15062) :
    tick restState freeRun n = true ↔ n = 5023 ∨ n = 15061 := by
  obtain ⟨k, rfl⟩ : ∃ k, n = 1 + k := ⟨n - 1, by omega⟩
  rw [tick_eq steady_freeRun, ncoRun_freeRun]
  have hcount := @tickCount_succ (Nco.pulseOut Nco.freeRunning) k
  rw [Nco.tickCount_freeRunning, Nco.tickCount_freeRunning] at hcount
  cases hp : Nco.pulseOut Nco.freeRunning k with
  | true =>
    rw [hp, if_pos rfl] at hcount
    simp only [true_iff]
    obtain hq | hq : (427853 * (k - 3) + 2147483648) / 4294967296 = 0 ∨
        (427853 * (k - 3) + 2147483648) / 4294967296 = 1 := by omega
    · rw [hq] at hcount
      omega
    · rw [hq] at hcount
      omega
  | false =>
    rw [hp, if_neg Bool.false_ne_true] at hcount
    simp only [Bool.false_eq_true, false_iff]
    omega

/-- The register after the second tick, and the frequency: the ticks come at 9961.729 Hz. -/
theorem second_tick_freq : (run step restState freeRun 15062).freq = BitVec.ofNat 32 10037 ∧
    9961.72 < binary32.value (tenkhzFreq (run step restState freeRun 15062).freq) ∧
    binary32.value (tenkhzFreq (run step restState freeRun 15062).freq) < 9963.72 := by
  have hnone : ∀ m, 5023 < m → m < 15061 → tick restState freeRun m = false := by
    intro m hm hm'
    rw [← Bool.not_eq_true, tick_freeRun (by omega) (by omega)]
    omega
  obtain ⟨hreg, hfreq⟩ := (freq_of_ticks steady_freeRun restState (by omega) (by omega)
    ((tick_freeRun (by omega) (by omega)).mpr (Or.inl rfl))
    ((tick_freeRun (by omega) (by omega)).mpr (Or.inr rfl)) hnone).2 15062 (by omega)
    fun m _ _ => by omega
  obtain ⟨hlow, hhigh⟩ := hfreq fun _ _ _ => rfl
  refine ⟨hreg, ?_, ?_⟩
  · linarith
  · linarith

end Psc.TenkhzGen
