import Psc.Lib.NumericStd
import Psc.Lib.Clocked
import Psc.Lib.DelayLine

/-!
# The smooth ramp

`smooth_ramp.vhd`: a change of the setpoint starts a raised-cosine ramp from the value being
output to the new one. The phase runs from -π to 0 in steps of `phase_inc`, one a 10 kHz tick, and
the CORDIC core turns it into a cosine.

1. The machine acts on ticks alone while it runs, and reads at each tick the cosine of the phase
   word sampled at the tick before. So a ramp is a sequence of *beats* (`beat`) on its registers
   and on the newest cosine, however the ticks lie on the clock (`view_eq_beats`).
2. What a beat registers is four beats old: `rampout_beats_add_four`.
3. With `phase_inc` held at `inc`, the phase after `k` beats is `-π + k * inc` as long as it is not
   past zero (`phase_beats`), and the ramp has `π / inc + 3` beats (`state_beats_last`).
-/

namespace Psc.SmoothRamp

open NumericStd Clocked

/-- `state_type`. -/
inductive Phase where
  | idle | runRamp
  deriving DecidableEq

/-- The input ports. -/
structure Input where
  reset : Bool
  tenkhzTrig : Bool
  mode : BitVec 2
  curSetpt : BitVec 20
  newSetpt : BitVec 20
  phaseInc : BitVec 32

/-- The registers. -/
structure State where
  state : Phase
  phase : BitVec 32
  phaseOut : BitVec 24
  raisedCos : BitVec 24
  cnt : BitVec 20
  rampoutWdiff : BitVec 48
  rampoutFp : BitVec 24
  rampout : BitVec 20
  lastPoint : Bool
  smoothActive : Bool
  diffSetpt : BitVec 24
  newSetptPrev : BitVec 20
  newSetptLat : BitVec 20
  oldSetpt : BitVec 20
  deriving DecidableEq

/-! ## The datapath -/

/-- The magnitude of `NEG_PI`. -/
def piWord : ℤ := 421657300

/-- `NEG_PI`. -/
def negPi : BitVec 32 := BitVec.ofInt 32 (-421657300)

/-- `phase(31 downto 8)`. -/
def phaseWord (phase : BitVec 32) : BitVec 24 := phase.extractLsb' 8 24

/-- `(cos + 2**20) srl 1`: from -1..1 to 0..1. -/
def raise (cos : BitVec 24) : BitVec 24 := (cos + BitVec.ofInt 24 (2 ^ 20)) >>> 1

/-- The distance to go. -/
def diff (new old : BitVec 20) : BitVec 24 := new.signExtend 24 - old.signExtend 24

/-- The sum of the starting point and bits 43 to 20 of the weighted distance. -/
def interpolate (old : BitVec 20) (wdiff : BitVec 48) : BitVec 24 :=
  old.signExtend 24 + wdiff.extractLsb' 20 24

/-- `rampout_fp(19 downto 0)`. -/
def toSetpt (fp : BitVec 24) : BitVec 20 := fp.extractLsb' 0 20

/-! ## The state machine -/

/-- A tick in RUN_RAMP: the pipeline moves on, and the tick after the last point ends the ramp. -/
def shift (s : State) (cos : BitVec 24) : State :=
  { s with
    raisedCos := raise cos
    diffSetpt := diff s.newSetptLat s.oldSetpt
    rampoutWdiff := mulFull (diff s.newSetptLat s.oldSetpt) s.raisedCos
    rampoutFp := interpolate s.oldSetpt s.rampoutWdiff
    rampout := toSetpt s.rampoutFp
    state := if s.lastPoint then .idle else s.state }

/-- A tick in RUN_RAMP: with it, the phase advances until it is past zero. -/
def tickRamp (s : State) (phaseInc : BitVec 32) (cos : BitVec 24) : State :=
  if (0 : BitVec 32).slt s.phase then { shift s cos with phase := 0, lastPoint := true }
  else
    { shift s cos with
      cnt := s.cnt + 1
      phase := s.phase + phaseInc
      phaseOut := phaseWord s.phase }

/-- A clock in IDLE. -/
def idleClock (s : State) (i : Input) : State :=
  let s' := { s with
    newSetptPrev := i.newSetpt
    lastPoint := false
    smoothActive := false
    phase := negPi
    raisedCos := 0
    rampoutWdiff := 0 }
  if s.newSetptPrev ≠ i.newSetpt ∧ i.mode = 0 then
    { s' with
      oldSetpt := i.curSetpt
      newSetptLat := i.newSetpt
      state := .runRamp
      phaseOut := phaseWord negPi
      cnt := 0
      smoothActive := true }
  else s'

/-- One clock, with the cosine that the CORDIC core shows. -/
def step (s : State) (i : Input) (cos : BitVec 24) : State :=
  if i.reset then
    { s with
      state := .idle
      phase := negPi
      phaseOut := phaseWord negPi
      rampoutWdiff := 0
      rampout := 0
      raisedCos := 0
      rampoutFp := 0
      cnt := 0
      lastPoint := false
      smoothActive := false
      newSetptPrev := 0 }
  else
    match s.state with
    | .idle => idleClock s i
    | .runRamp => if i.tenkhzTrig then tickRamp s i.phaseInc cos else s

/-- The machine and the CORDIC core. -/
structure Core where
  regs : State
  cordic : DelayLine (BitVec 24)

/-- One clock of both; the core samples the phase word at each tick. -/
def clock (cosine : BitVec 24 → BitVec 24) (x : Core) (i : Input) : Core where
  regs := step x.regs i x.cordic.out
  cordic := x.cordic.step (if i.tenkhzTrig then some (cosine x.regs.phaseOut) else none)

section Clock

variable {cosine : BitVec 24 → BitVec 24} {x : Core} {i : Input}

theorem clock_regs_of_tick (hs : x.regs.state = .runRamp) (hr : i.reset = false)
    (ht : i.tenkhzTrig = true) :
    (clock cosine x i).regs = tickRamp x.regs i.phaseInc x.cordic.out := by
  unfold clock step
  rw [if_neg (by simp [hr]), hs]
  exact if_pos ht

theorem clock_regs_of_not_tick (hs : x.regs.state = .runRamp) (hr : i.reset = false)
    (ht : i.tenkhzTrig = false) : (clock cosine x i).regs = x.regs := by
  unfold clock step
  rw [if_neg (by simp [hr]), hs]
  exact if_neg (by simp [ht])

theorem settled_clock : (clock cosine x i).cordic.settled =
    if i.tenkhzTrig then cosine x.regs.phaseOut else x.cordic.settled := by
  unfold clock
  rw [DelayLine.settled_step]
  split_ifs <;> rfl

/-- What a clock that starts a ramp leaves behind. -/
structure Started (s : State) : Prop where
  state : s.state = .runRamp
  phase : s.phase = negPi
  phaseOut : s.phaseOut = phaseWord negPi
  raisedCos : s.raisedCos = 0
  rampoutWdiff : s.rampoutWdiff = 0
  lastPoint : s.lastPoint = false

/-- A clock from IDLE to RUN_RAMP latches the two end points and clears the pipeline up to
`rampout_wdiff`. -/
theorem started_step {s : State} {i : Input} {cos : BitVec 24} (hs : s.state = .idle)
    (hs' : (step s i cos).state = .runRamp) :
    Started (step s i cos) ∧ i.reset = false ∧ (step s i cos).oldSetpt = i.curSetpt ∧
      (step s i cos).newSetptLat = i.newSetpt ∧ (step s i cos).rampoutFp = s.rampoutFp ∧
      (step s i cos).rampout = s.rampout := by
  have hr : i.reset = false := by
    cases h : i.reset with
    | false => rfl
    | true => rw [step, if_pos h] at hs'; simp at hs'
  have hstep : step s i cos = idleClock s i := by
    unfold step
    rw [if_neg (by simp [hr]), hs]
  rw [hstep] at hs' ⊢
  unfold idleClock at hs' ⊢
  split_ifs at hs' ⊢ with h
  · exact ⟨⟨rfl, rfl, rfl, rfl, rfl, rfl⟩, hr, rfl, rfl, rfl, rfl⟩
  · simp [hs] at hs'

theorem started_of_starts (hs : x.regs.state = .idle)
    (hs' : (clock cosine x i).regs.state = .runRamp) :
    Started (clock cosine x i).regs ∧ i.reset = false ∧
      (clock cosine x i).regs.oldSetpt = i.curSetpt ∧
      (clock cosine x i).regs.newSetptLat = i.newSetpt ∧
      (clock cosine x i).regs.rampoutFp = x.regs.rampoutFp ∧
      (clock cosine x i).regs.rampout = x.regs.rampout :=
  started_step hs hs'

end Clock

/-! ## Beats -/

/-- The registers and the newest cosine. -/
def Core.view (x : Core) : State × BitVec 24 := (x.regs, x.cordic.settled)

/-- One tick of a running ramp. -/
def beat (cosine : BitVec 24 → BitVec 24) (inc : BitVec 32) (y : State × BitVec 24) :
    State × BitVec 24 :=
  (tickRamp y.1 inc y.2, cosine y.1.phaseOut)

section Beats

variable {cosine : BitVec 24 → BitVec 24} {x : Core} {inp : ℕ → Input}

/-- The ticks of the run. -/
abbrev trig (inp : ℕ → Input) (n : ℕ) : Bool := (inp n).tenkhzTrig

theorem view_clock_of_tick {i : Input} (hs : x.regs.state = .runRamp) (hr : i.reset = false)
    (ht : i.tenkhzTrig = true) (hout : x.cordic.out = x.cordic.settled) :
    (clock cosine x i).view = beat cosine i.phaseInc x.view := by
  unfold Core.view beat
  rw [clock_regs_of_tick hs hr ht, settled_clock, if_pos ht, hout]

theorem view_clock_of_not_tick {i : Input} (hs : x.regs.state = .runRamp) (hr : i.reset = false)
    (ht : i.tenkhzTrig = false) : (clock cosine x i).view = x.view := by
  unfold Core.view
  rw [clock_regs_of_not_tick hs hr ht, settled_clock, if_neg (by simp [ht])]

theorem spaced_run (h : x.cordic.Spaced (trig inp)) (n : ℕ) :
    (run (clock cosine) x inp n).cordic.Spaced fun k => trig inp (n + k) := by
  induction n with
  | zero => simpa using h
  | succ n ih =>
    have hstep := ih.step (if (inp n).tenkhzTrig then
      some (cosine (run (clock cosine) x inp n).regs.phaseOut) else none) (by
        intro hx
        by_contra hne
        rw [if_neg (show ¬(inp n).tenkhzTrig = true from hne)] at hx
        simp at hx)
    simpa only [run_succ, clock, Nat.add_assoc, Nat.add_comm 1] using hstep

/-- **A ramp is a sequence of beats.** While the machine runs with `phase_inc` at `inc` at each
tick, its registers and the newest cosine are those after as many beats as there were ticks. -/
theorem view_eq_beats (inc : BitVec 32) (h : x.cordic.Spaced (trig inp)) (n : ℕ)
    (hrun : ∀ m < n, (run (clock cosine) x inp m).regs.state = .runRamp)
    (hreset : ∀ m < n, (inp m).reset = false)
    (hinc : ∀ m < n, trig inp m = true → (inp m).phaseInc = inc) :
    (run (clock cosine) x inp n).view = (beat cosine inc)^[tickCount (trig inp) n] x.view := by
  induction n with
  | zero => rfl
  | succ n ih =>
    have hn := ih (fun m hm => hrun m (by omega)) (fun m hm => hreset m (by omega))
      (fun m hm => hinc m (by omega))
    rw [run_succ]
    cases ht : trig inp n with
    | true =>
      have hspaced : (run (clock cosine) x inp n).cordic.Spaced fun k => trig inp (n + k) :=
        spaced_run h n
      have hout := hspaced.out_eq (by simpa using ht)
      rw [view_clock_of_tick (hrun n n.lt_succ_self) (hreset n n.lt_succ_self) ht hout, hn,
        hinc n n.lt_succ_self ht, tickCount_succ_of_tick ht, Function.iterate_succ_apply']
    | false =>
      rw [view_clock_of_not_tick (hrun n n.lt_succ_self) (hreset n n.lt_succ_self) ht, hn,
        tickCount_succ_of_not_tick ht]

end Beats

/-! ## The pipeline -/

section Tick

variable (s : State) (inc : BitVec 32) (cos : BitVec 24)

@[simp] theorem tickRamp_raisedCos : (tickRamp s inc cos).raisedCos = raise cos := by
  unfold tickRamp; split_ifs <;> rfl

@[simp] theorem tickRamp_rampoutWdiff : (tickRamp s inc cos).rampoutWdiff =
    mulFull (diff s.newSetptLat s.oldSetpt) s.raisedCos := by
  unfold tickRamp; split_ifs <;> rfl

@[simp] theorem tickRamp_rampoutFp : (tickRamp s inc cos).rampoutFp =
    interpolate s.oldSetpt s.rampoutWdiff := by
  unfold tickRamp; split_ifs <;> rfl

@[simp] theorem tickRamp_rampout : (tickRamp s inc cos).rampout = toSetpt s.rampoutFp := by
  unfold tickRamp; split_ifs <;> rfl

@[simp] theorem tickRamp_oldSetpt : (tickRamp s inc cos).oldSetpt = s.oldSetpt := by
  unfold tickRamp; split_ifs <;> rfl

@[simp] theorem tickRamp_newSetptLat : (tickRamp s inc cos).newSetptLat = s.newSetptLat := by
  unfold tickRamp; split_ifs <;> rfl

@[simp] theorem tickRamp_state : (tickRamp s inc cos).state =
    if s.lastPoint then .idle else s.state := by
  unfold tickRamp
  by_cases h : (0 : BitVec 32).slt s.phase = true
  · rw [if_pos h]; rfl
  · rw [if_neg h]; rfl

theorem tickRamp_of_phase_le (h : s.phase.toInt ≤ 0) :
    (tickRamp s inc cos).phase = s.phase + inc ∧ (tickRamp s inc cos).lastPoint = s.lastPoint ∧
      (tickRamp s inc cos).phaseOut = phaseWord s.phase := by
  have hneg : ¬(0 : BitVec 32).slt s.phase = true := by
    rw [BitVec.slt_iff_toInt_lt]; simpa using h
  unfold tickRamp
  rw [if_neg hneg]
  exact ⟨rfl, rfl, rfl⟩

theorem tickRamp_of_phase_pos (h : 0 < s.phase.toInt) :
    (tickRamp s inc cos).phase = 0 ∧ (tickRamp s inc cos).lastPoint = true ∧
      (tickRamp s inc cos).phaseOut = s.phaseOut := by
  have hpos : (0 : BitVec 32).slt s.phase = true := by
    rw [BitVec.slt_iff_toInt_lt]; simpa using h
  unfold tickRamp
  rw [if_pos hpos]
  exact ⟨rfl, rfl, rfl⟩

end Tick

/-- The setpoint that the pipeline makes of one cosine. -/
def setptOf (old new : BitVec 20) (cos : BitVec 24) : BitVec 20 :=
  toSetpt (interpolate old (mulFull (diff new old) (raise cos)))

section Pipeline

variable {cosine : BitVec 24 → BitVec 24} {inc : BitVec 32} {s : State} {c : BitVec 24}

/-- The registers and the newest cosine `k` beats into a ramp. -/
abbrev beats (cosine : BitVec 24 → BitVec 24) (inc : BitVec 32) (s : State) (c : BitVec 24)
    (k : ℕ) : State × BitVec 24 := (beat cosine inc)^[k] (s, c)

theorem beats_succ (k : ℕ) :
    beats cosine inc s c (k + 1) = beat cosine inc (beats cosine inc s c k) :=
  Function.iterate_succ_apply' _ _ _

variable (cosine inc s c) in
theorem setpts_beats (k : ℕ) : (beats cosine inc s c k).1.oldSetpt = s.oldSetpt ∧
    (beats cosine inc s c k).1.newSetptLat = s.newSetptLat := by
  induction k with
  | zero => exact ⟨rfl, rfl⟩
  | succ k ih => rw [beats_succ]; simpa [beat] using ih

theorem rampout_beats_one : (beats cosine inc s c 1).1.rampout = toSetpt s.rampoutFp := by
  rw [beats_succ]; simp [beat, beats]

/-- The value registered four beats on is made of the cosine that stands now. -/
theorem rampout_beats_add_four (k : ℕ) : (beats cosine inc s c (k + 4)).1.rampout =
    setptOf s.oldSetpt s.newSetptLat (beats cosine inc s c k).2 := by
  obtain ⟨hold, hnew⟩ := setpts_beats cosine inc s c k
  rw [beats_succ, beats_succ, beats_succ, beats_succ]
  simp [beat, setptOf, hold, hnew]

theorem toSetpt_interpolate_zero (old : BitVec 20) : toSetpt (interpolate old 0#48) = old := by
  unfold toSetpt interpolate
  apply BitVec.eq_of_toInt_eq
  have hlo := BitVec.le_toInt old
  have hhi := @BitVec.toInt_lt _ old
  have hz : (0#48).extractLsb' 20 24 = 0#24 := by decide
  rw [hz, BitVec.add_zero, toInt_extractLsb'_eq_bmod _ _ _ (by omega),
    BitVec.toInt_signExtend_of_le (by omega), pow_zero, Int.ediv_one, BitVec.toInt_bmod_cancel]

variable (cosine inc c) in
theorem rampout_beats_start (hs : Started s) :
    (beats cosine inc s c 2).1.rampout = s.oldSetpt ∧
      (beats cosine inc s c 3).1.rampout = s.oldSetpt := by
  have h1 := hs.raisedCos
  have h2 := hs.rampoutWdiff
  have hzero : mulFull (diff s.newSetptLat s.oldSetpt) 0#24 = 0#48 := by simp [mulFull]
  constructor
  · rw [beats_succ, beats_succ]
    simp [beat, beats, h2, toSetpt_interpolate_zero]
  · rw [beats_succ, beats_succ, beats_succ]
    simp [beat, beats, h1, hzero, toSetpt_interpolate_zero]

theorem cos_beats_succ (k : ℕ) :
    (beats cosine inc s c (k + 1)).2 = cosine (beats cosine inc s c k).1.phaseOut := by
  rw [beats_succ]; rfl

end Pipeline

/-! ## The phase -/

/-- The number of whole steps of `inc` between -π and 0. -/
def wholeSteps (inc : BitVec 32) : ℕ := (piWord / inc.toInt).toNat

section PhaseSteps

variable {cosine : BitVec 24 → BitVec 24} {inc : BitVec 32} {s : State} {c : BitVec 24}

theorem toInt_negPi : negPi.toInt = -piWord := by decide

theorem wholeSteps_spec (hinc : 1 ≤ inc.toInt) :
    wholeSteps inc * inc.toInt ≤ piWord ∧ piWord < (wholeSteps inc + 1) * inc.toInt := by
  have hnn : 0 ≤ piWord / inc.toInt := Int.ediv_nonneg (by decide) (by omega)
  have hcast : (wholeSteps inc : ℤ) = piWord / inc.toInt := Int.toNat_of_nonneg hnn
  rw [hcast]
  exact ⟨Int.ediv_mul_le _ (by omega), Int.lt_ediv_add_one_mul_self _ (by omega)⟩

variable (cosine c) in
/-- Up to and including the step past zero, the phase after `k` beats is `-π + k * inc`. -/
theorem phase_beats (hs : Started s) (hinc : 1 ≤ inc.toInt) :
    ∀ k ≤ wholeSteps inc + 1, (beats cosine inc s c k).1.phase.toInt = -piWord + k * inc.toInt ∧
      (beats cosine inc s c k).1.lastPoint = false ∧
      (beats cosine inc s c k).1.state = .runRamp := by
  obtain ⟨hle, -⟩ := wholeSteps_spec hinc
  intro k
  induction k with
  | zero =>
    intro _
    have h0 : (beats cosine inc s c 0).1 = s := rfl
    rw [h0, hs.phase, toInt_negPi]
    exact ⟨by simp, hs.lastPoint, hs.state⟩
  | succ k ih =>
    intro hk
    obtain ⟨hphase, hlast, hstate⟩ := ih (by omega)
    have hprod : (k : ℤ) * inc.toInt ≤ wholeSteps inc * inc.toInt :=
      mul_le_mul_of_nonneg_right (by omega) (by omega)
    have hknn : 0 ≤ (k : ℤ) * inc.toInt := by positivity
    have hneg : (beats cosine inc s c k).1.phase.toInt ≤ 0 := by rw [hphase]; omega
    obtain ⟨hp, hl, -⟩ := tickRamp_of_phase_le _ inc (beats cosine inc s c k).2 hneg
    have hmax := @BitVec.toInt_lt _ inc
    rw [beats_succ]
    refine ⟨?_, ?_, ?_⟩
    · show (tickRamp _ _ _).phase.toInt = _
      rw [hp, BitVec.toInt_add, hphase, Int.bmod_eq_of_le_mul_two]
      · push_cast; ring
      · unfold piWord at *; push_cast; omega
      · unfold piWord at *; push_cast; omega
    · show (tickRamp _ _ _).lastPoint = _
      rw [hl, hlast]
    · show (tickRamp _ _ _).state = _
      rw [tickRamp_state, hlast, hstate]; rfl

theorem phaseOut_beats_succ (hs : Started s) (hinc : 1 ≤ inc.toInt) (k : ℕ)
    (hk : k ≤ wholeSteps inc) : (beats cosine inc s c (k + 1)).1.phaseOut =
      phaseWord (beats cosine inc s c k).1.phase := by
  obtain ⟨hphase, -, -⟩ := phase_beats cosine c hs hinc k (by omega)
  obtain ⟨hle, -⟩ := wholeSteps_spec hinc
  have hprod : (k : ℤ) * inc.toInt ≤ wholeSteps inc * inc.toInt :=
    mul_le_mul_of_nonneg_right (by omega) (by omega)
  have hneg : (beats cosine inc s c k).1.phase.toInt ≤ 0 := by rw [hphase]; omega
  rw [beats_succ]
  exact (tickRamp_of_phase_le _ inc _ hneg).2.2

theorem beats_lastPoint (hs : Started s) (hinc : 1 ≤ inc.toInt) :
    (beats cosine inc s c (wholeSteps inc + 2)).1.lastPoint = true ∧
      (beats cosine inc s c (wholeSteps inc + 2)).1.state = .runRamp := by
  obtain ⟨hphase, hlast, hstate⟩ :=
    phase_beats cosine c hs hinc (wholeSteps inc + 1) le_rfl
  obtain ⟨-, hgt⟩ := wholeSteps_spec hinc
  have hpos : 0 < (beats cosine inc s c (wholeSteps inc + 1)).1.phase.toInt := by
    rw [hphase]; push_cast; omega
  rw [beats_succ]
  refine ⟨(tickRamp_of_phase_pos _ inc _ hpos).2.1, ?_⟩
  show (tickRamp _ _ _).state = _
  rw [tickRamp_state, hlast, hstate]; rfl

theorem state_beats (hs : Started s) (hinc : 1 ≤ inc.toInt) (k : ℕ)
    (hk : k ≤ wholeSteps inc + 2) : (beats cosine inc s c k).1.state = .runRamp := by
  rcases Nat.lt_or_eq_of_le hk with hlt | rfl
  · exact (phase_beats cosine c hs hinc k (by omega)).2.2
  · exact (beats_lastPoint hs hinc).2

/-- … and ends with the next. -/
theorem state_beats_last (hs : Started s) (hinc : 1 ≤ inc.toInt) :
    (beats cosine inc s c (wholeSteps inc + 3)).1.state = .idle := by
  rw [beats_succ]
  show (tickRamp _ _ _).state = _
  rw [tickRamp_state, (beats_lastPoint hs hinc).1]; rfl

end PhaseSteps

/-! ## The value made of a cosine -/

section Value

variable (old new : BitVec 20) (cos : BitVec 24)

/-- A cosine in the range -1 to 1. -/
def Unit (cos : BitVec 24) : Prop := -2 ^ 20 ≤ cos.toInt ∧ cos.toInt ≤ 2 ^ 20

/-- The weight of a cosine, from 0 to 2^20. -/
def weight (cos : ℤ) : ℤ := (cos + 2 ^ 20) / 2

theorem toInt_raisedSum {cos : BitVec 24} (h : Unit cos) :
    (cos + BitVec.ofInt 24 (2 ^ 20)).toInt = cos.toInt + 2 ^ 20 := by
  obtain ⟨hlo, hhi⟩ := h
  rw [BitVec.toInt_add, show (BitVec.ofInt 24 (2 ^ 20)).toInt = 2 ^ 20 by decide,
    Int.bmod_eq_of_le_mul_two]
  · push_cast; omega
  · push_cast; omega

/-- The sum is not negative, so the logical shift halves it. -/
theorem toInt_raise {cos : BitVec 24} (h : Unit cos) : (raise cos).toInt = weight cos.toInt := by
  have hadd := toInt_raisedSum h
  obtain ⟨hlo, hhi⟩ := h
  have hnat : ((cos + BitVec.ofInt 24 (2 ^ 20)).toNat : ℤ) = cos.toInt + 2 ^ 20 := by
    rw [← hadd, BitVec.toInt_eq_toNat_of_lt]
    have := BitVec.toInt_eq_toNat_cond (cos + BitVec.ofInt 24 (2 ^ 20))
    split_ifs at this <;> omega
  have hshift : ((raise cos).toNat : ℤ) = weight cos.toInt := by
    unfold raise weight
    rw [BitVec.toNat_ushiftRight, Nat.shiftRight_eq_div_pow, ← hnat, Int.natCast_ediv]
    rfl
  unfold weight at *
  rw [BitVec.toInt_eq_toNat_of_lt, hshift]
  omega

theorem weight_bounds {cos : BitVec 24} (h : Unit cos) :
    0 ≤ weight cos.toInt ∧ weight cos.toInt ≤ 2 ^ 20 := by
  obtain ⟨hlo, hhi⟩ := h
  unfold weight
  omega

theorem toInt_diff : (diff new old).toInt = new.toInt - old.toInt := by
  have h1 := BitVec.le_toInt new
  have h2 := @BitVec.toInt_lt _ new
  have h3 := BitVec.le_toInt old
  have h4 := @BitVec.toInt_lt _ old
  unfold diff
  rw [BitVec.toInt_sub, BitVec.toInt_signExtend_of_le (by omega),
    BitVec.toInt_signExtend_of_le (by omega), Int.bmod_eq_of_le_mul_two]
  · norm_num at *; omega
  · norm_num at *; omega

theorem weighted_between (d w : ℤ) (h0 : 0 ≤ w) (h1 : w ≤ 2 ^ 20) :
    (0 ≤ d → 0 ≤ d * w / 2 ^ 20 ∧ d * w / 2 ^ 20 ≤ d) ∧
      (d ≤ 0 → d ≤ d * w / 2 ^ 20 ∧ d * w / 2 ^ 20 ≤ 0) := by
  constructor
  · intro hd
    have hlo : 0 ≤ d * w := mul_nonneg hd h0
    have hhi : d * w ≤ d * 2 ^ 20 := mul_le_mul_of_nonneg_left h1 hd
    constructor <;> omega
  · intro hd
    have hlo : d * 2 ^ 20 ≤ d * w := mul_le_mul_of_nonpos_left h1 hd
    have hhi : d * w ≤ 0 := mul_nonpos_of_nonpos_of_nonneg hd h0
    constructor <;> omega

theorem weighted_range {w : ℤ} (h0 : 0 ≤ w) (h1 : w ≤ 2 ^ 20) :
    -2 ^ 20 < (new.toInt - old.toInt) * w / 2 ^ 20 ∧
      (new.toInt - old.toInt) * w / 2 ^ 20 < 2 ^ 20 ∧
      -2 ^ 19 ≤ old.toInt + (new.toInt - old.toInt) * w / 2 ^ 20 ∧
      old.toInt + (new.toInt - old.toInt) * w / 2 ^ 20 < 2 ^ 19 := by
  have hnlo := BitVec.le_toInt new
  have hnhi := @BitVec.toInt_lt _ new
  have holo := BitVec.le_toInt old
  have hohi := @BitVec.toInt_lt _ old
  obtain ⟨hup, hdown⟩ := weighted_between (new.toInt - old.toInt) w h0 h1
  generalize (new.toInt - old.toInt) * w / 2 ^ 20 = q at *
  norm_num at *
  omega

theorem toInt_product {cos : BitVec 24} (h : Unit cos) :
    (mulFull (diff new old) (raise cos)).toInt = (new.toInt - old.toInt) * weight cos.toInt := by
  rw [toInt_mulFull _ _ (by omega) (by omega), toInt_diff, toInt_raise h]

theorem toInt_slice {cos : BitVec 24} (h : Unit cos) :
    ((mulFull (diff new old) (raise cos)).extractLsb' 20 24).toInt =
      (new.toInt - old.toInt) * weight cos.toInt / 2 ^ 20 := by
  obtain ⟨hw0, hw1⟩ := weight_bounds h
  obtain ⟨hlo, hhi, -, -⟩ := weighted_range old new hw0 hw1
  rw [toInt_extractLsb'_eq_bmod _ _ _ (by omega), toInt_product old new h,
    Int.bmod_eq_of_le_mul_two]
  · norm_num at *; omega
  · norm_num at *; omega

theorem toInt_interpolate {cos : BitVec 24} (h : Unit cos) :
    (interpolate old (mulFull (diff new old) (raise cos))).toInt =
      old.toInt + (new.toInt - old.toInt) * weight cos.toInt / 2 ^ 20 := by
  obtain ⟨hw0, hw1⟩ := weight_bounds h
  obtain ⟨-, -, hlo, hhi⟩ := weighted_range old new hw0 hw1
  unfold interpolate
  rw [BitVec.toInt_add, toInt_slice old new h, BitVec.toInt_signExtend_of_le (by omega)]
  apply Int.bmod_eq_of_le_mul_two
  · norm_num at *; omega
  · norm_num at *; omega

/-- **The interpolation is exact** up to its rounding: no stage of the pipeline wraps. -/
theorem toInt_setptOf {cos : BitVec 24} (h : Unit cos) : (setptOf old new cos).toInt =
    old.toInt + (new.toInt - old.toInt) * weight cos.toInt / 2 ^ 20 := by
  obtain ⟨hw0, hw1⟩ := weight_bounds h
  obtain ⟨-, -, hlo, hhi⟩ := weighted_range old new hw0 hw1
  unfold setptOf toSetpt
  rw [toInt_extractLsb'_eq_bmod _ _ _ (by omega), toInt_interpolate old new h, pow_zero,
    Int.ediv_one]
  apply Int.bmod_eq_of_le_mul_two
  · norm_num at *; omega
  · norm_num at *; omega

end Value

end Psc.SmoothRamp
