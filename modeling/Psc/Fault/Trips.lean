import Psc.Fault.Block
import Psc.Lib.TripCounter

/-!
# Counted fault sources

Each counted source of the fault block, read off the registers as a counter and a live bit
(`counter`), is a trip counter that moves at the ticks (`counter_step`). What the block does over
a run then follows from `TripCounter`, source by source.

* The counters stop on equality with the limit in force, so a limit lowered below a running count
  delays the trip by a whole turn of the counter.
* The thresholds are compared as `abs` of signed vectors, so a reading at negative full scale is
  below every threshold but the most negative one.
-/

namespace Psc.FaultBlock

open NumericStd Clocked

/-! ## Sources -/

/-- The eleven counted fault sources. -/
inductive Source where
  | ovc1 | ovc2 | ovv | err1 | err2 | ignd | dcct | flt1 | flt2 | flt3 | on
  deriving DecidableEq

namespace Source

/-- The bit of `fault_reg` a source drives. -/
def bit : Source → ℕ
  | ovc1 => 0
  | ovc2 => 1
  | ovv => 2
  | err1 => 3
  | err2 => 4
  | ignd => 5
  | dcct => 6
  | flt1 => 7
  | flt2 => 8
  | flt3 => 9
  | on => 10

/-- The count at which a source's counter wraps. -/
def modulus : Source → ℕ
  | on => 2 ^ 32
  | _ => 2 ^ 16

/-- The count limit of a source. -/
def cntlim (p : FaultParams) : Source → ℕ
  | ovc1 => p.ovc1Cntlim.toNat
  | ovc2 => p.ovc2Cntlim.toNat
  | ovv => p.ovvCntlim.toNat
  | err1 => p.err1Cntlim.toNat
  | err2 => p.err2Cntlim.toNat
  | ignd => p.igndCntlim.toNat
  | dcct => p.dcctCntlim.toNat
  | flt1 => p.flt1Cntlim.toNat
  | flt2 => p.flt2Cntlim.toNat
  | flt3 => p.flt3Cntlim.toNat
  | on => p.onCntlim.toNat

/-- The counter of a source. -/
def cnt (s : State) : Source → ℕ
  | ovc1 => s.ovcFaultCnt1.toNat
  | ovc2 => s.ovcFaultCnt2.toNat
  | ovv => s.ovvFaultCnt.toNat
  | err1 => s.errFaultCnt1.toNat
  | err2 => s.errFaultCnt2.toNat
  | ignd => s.igndFaultCnt.toNat
  | dcct => s.dcctFaultCnt.toNat
  | flt1 => s.fault1Cnt.toNat
  | flt2 => s.fault2Cnt.toNat
  | flt3 => s.fault3Cnt.toNat
  | on => s.onFaultCnt.toNat

/-- The loop-error sources are masked in park and while the setpoint changes. -/
def masked (s : State) (i : Input) : Source → Bool
  | err1 | err2 => i.park || s.dacChangeFlag
  | _ => false

/-- What a source watches for. -/
def cond (i : Input) : Source → Bool
  | ovc1 => overThreshold i.dcctAdcs.dcct0 i.faultParams.ovc1Thresh
  | ovc2 => overThreshold i.dcctAdcs.dcct1 i.faultParams.ovc2Thresh
  | ovv => overThreshold i.monAdcs.voltage i.faultParams.ovvThresh
  | err1 => overThreshold i.monAdcs.psError i.faultParams.err1Thresh
  | err2 => overThreshold i.monAdcs.psError i.faultParams.err2Thresh
  | ignd => overThreshold i.monAdcs.ignd i.faultParams.igndThresh
  | dcct => !i.dcctFault
  | flt1 => i.fault1
  | flt2 => i.fault2
  | flt3 => i.fault3
  | on => i.acOnOut && !i.acOnIn

/-- The trip condition of a source: what it watches for, unmasked, with no clear pending. -/
def trips (s : State) (i : Input) (src : Source) : Bool :=
  src.cond i && !src.masked s i && !s.clearPulse

/-- The live bit of a source. -/
def live (s : State) (src : Source) : Bool := s.faultReg.getLsbD src.bit

/-- A source as a trip counter. -/
def counter (s : State) (src : Source) : TripCounter.State := ⟨src.cnt s, src.live s⟩

theorem cntlim_lt_word (p : FaultParams) (src : Source) : src.cntlim p < 2 ^ 16 := by
  cases src <;> exact BitVec.isLt _

theorem cntlim_lt (p : FaultParams) (src : Source) : src.cntlim p < src.modulus := by
  have h16 : 2 ^ 16 ≤ src.modulus := by cases src <;> norm_num [modulus]
  exact (cntlim_lt_word p src).trans_le h16

theorem modulus_pos (src : Source) : 0 < src.modulus := by
  cases src <;> norm_num [modulus]

theorem cnt_lt (s : State) (src : Source) : src.cnt s < src.modulus := by
  cases src <;> exact BitVec.isLt _

end Source

/-! ## One clock -/

/-- A check, as a trip counter. -/
def Check.counter {w : ℕ} (c : Check w) : TripCounter.State := ⟨c.cnt.toNat, c.live⟩

theorem countedCheck_counter {w : ℕ} (trip : Bool) (cntlim : BitVec w) (c : Check w) :
    (countedCheck trip cntlim c).counter =
      TripCounter.step (2 ^ w) cntlim.toNat trip c.counter := by
  unfold countedCheck TripCounter.step Check.counter
  cases trip with
  | false => simp
  | true =>
    by_cases h : c.cnt = cntlim
    · simp [h]
    · simp [h, BitVec.toNat_inj, BitVec.toNat_add]

theorem maskedCheck_counter {w : ℕ} (park change trip : Bool) (cntlim : BitVec w) (c : Check w) :
    (if park then ⟨0, false⟩ else if change then ⟨0, false⟩
      else countedCheck trip cntlim c : Check w).counter =
      TripCounter.step (2 ^ w) cntlim.toNat (trip && !(park || change)) c.counter := by
  cases park
  · cases change
    · simpa using countedCheck_counter trip cntlim c
    · simp [Check.counter, TripCounter.step]
  · simp [Check.counter, TripCounter.step]

/-- The checks of one tick, source by source. -/
def check (s : State) (i : Input) : Source → TripCounter.State
  | .ovc1 => (ovc1Check s i).counter
  | .ovc2 => (ovc2Check s i).counter
  | .ovv => (ovvCheck s i).counter
  | .err1 => (err1Check s i).counter
  | .err2 => (err2Check s i).counter
  | .ignd => (igndCheck s i).counter
  | .dcct => (dcctCheck s i).counter
  | .flt1 => (flt1Check s i).counter
  | .flt2 => (flt2Check s i).counter
  | .flt3 => (flt3Check s i).counter
  | .on => (onCheck s i).counter

theorem check_eq (s : State) (i : Input) (src : Source) :
    check s i src =
      TripCounter.step src.modulus (src.cntlim i.faultParams) (src.trips s i)
        (src.counter s) := by
  cases src
  case err1 =>
    refine (maskedCheck_counter i.park s.dacChangeFlag _ _ _).trans ?_
    simp only [Source.trips, Source.cond, Source.masked, Bool.and_right_comm]
    rfl
  case err2 =>
    refine (maskedCheck_counter i.park s.dacChangeFlag _ _ _).trans ?_
    simp only [Source.trips, Source.cond, Source.masked, Bool.and_right_comm]
    rfl
  case on =>
    refine (countedCheck_counter _ _ _).trans ?_
    have hlim : (i.faultParams.onCntlim.setWidth 32).toNat = i.faultParams.onCntlim.toNat :=
      BitVec.toNat_setWidth_of_le (by omega)
    rw [hlim]
    simp only [Source.trips, Source.cond, Source.masked, Bool.not_false, Bool.and_true]
    rfl
  all_goals
    refine (countedCheck_counter _ _ _).trans ?_
    simp only [Source.trips, Source.cond, Source.masked, Bool.not_false, Bool.and_true]
    rfl

theorem counter_of_tick (s : State) (i : Input) (src : Source) (hr : i.reset = false)
    (ht : s.tenKhzPulse = true) : src.counter (step s i) = check s i src := by
  cases src <;>
    simp only [Source.counter, Source.cnt, Source.live, Source.bit, step, mainFaultLogic, hr, ht,
      if_true, Bool.false_eq_true, if_false, faultChecks, getLsbD_setBit, check, Check.counter] <;>
    rfl

theorem counter_of_not_tick (s : State) (i : Input) (src : Source) (hr : i.reset = false)
    (ht : s.tenKhzPulse = false) : src.counter (step s i) = src.counter s := by
  cases src <;>
    simp only [Source.counter, Source.cnt, Source.live, Source.bit, step, mainFaultLogic, hr, ht,
      Bool.false_eq_true, if_false, getLsbD_setBit] <;>
    rfl

theorem counter_step (s : State) (i : Input) (src : Source) (hr : i.reset = false) :
    src.counter (step s i) =
      if s.tenKhzPulse then
        TripCounter.step src.modulus (src.cntlim i.faultParams) (src.trips s i) (src.counter s)
      else src.counter s := by
  cases ht : s.tenKhzPulse with
  | true => rw [if_pos rfl, counter_of_tick s i src hr ht, check_eq]
  | false => rw [if_neg (by simp), counter_of_not_tick s i src hr ht]

/-- The sources whose counters reset clears. -/
def Source.analog : Source → Bool
  | .ovc1 | .ovc2 | .ovv | .err1 | .err2 | .ignd => true
  | _ => false

theorem cnt_reset (s : State) (i : Input) (src : Source) (hr : i.reset = true) :
    src.cnt (step s i) = if src.analog then 0 else src.cnt s := by
  cases src <;> simp [Source.cnt, Source.analog, step, mainFaultLogic, hr]

/-! ## Trips on time

`st` is a run of the block from a reset: the clock with `reset` high leads from `s₀` to the
state before clock `0`, and `reset` stays low afterwards. -/

/-- After every tick that ends `L + 1` ticks of the trip condition, for the limit `L` in force at
that tick, the live bit is up. -/
def TripsOnTime (src : Source) (st : ℕ → State) (inp : ℕ → Input) : Prop :=
  ∀ n, (st n).tenKhzPulse = true →
    HeldFor (fun k => (st k).tenKhzPulse) (fun k => src.trips (st k) (inp k))
      (src.cntlim (inp n).faultParams + 1) (n + 1) →
    src.live (st (n + 1)) = true

/-- No tick that finds the trip condition, with the bit still down, finds the count past the limit
in force. -/
def NeverPastLimit (src : Source) (st : ℕ → State) (inp : ℕ → Input) : Prop :=
  ∀ n, (st n).tenKhzPulse = true → src.trips (st n) (inp n) = true → src.live (st n) = false →
    src.cnt (st n) ≤ src.cntlim (inp n).faultParams

section Runs

variable {inp : ℕ → Input} (hinp : ∀ n, (inp n).reset = false)

include hinp

theorem counter_follows (s : State) (src : Source) :
    TripCounter.Follows src.modulus (fun n => (run step s inp n).tenKhzPulse)
      (fun n => src.trips (run step s inp n) (inp n))
      (fun n => src.cntlim (inp n).faultParams) (fun n => src.counter (run step s inp n)) :=
  fun n => counter_step (run step s inp n) (inp n) src (hinp n)

theorem neverPastLimit_of_monotone (s : State) (src : Source)
    (h0 : src.cnt s ≤ src.cntlim (inp 0).faultParams)
    (hlim : ∀ n, src.cntlim (inp n).faultParams ≤ src.cntlim (inp (n + 1)).faultParams) :
    NeverPastLimit src (run step s inp) inp :=
  fun n _ _ _ => TripCounter.count_le_lim (counter_follows hinp s src) h0 hlim n

theorem tripsOnTime_of_neverPastLimit (s : State) (src : Source)
    (hle : NeverPastLimit src (run step s inp) inp) :
    TripsOnTime src (run step s inp) inp :=
  fun _ ht hheld => TripCounter.live_of_heldFor (counter_follows hinp s src)
    (fun n => src.cntlim_lt (inp n).faultParams) hle ht hheld

end Runs

/-- **Trip latency.** In every run from a reset in which no tick finds the count past the limit in
force, the source trips on time at every tick. A source that starts from zero trips on time only
in such runs. -/
theorem tripsOnTime_iff_neverPastLimit (s₀ : State) (i₀ : Input) (inp : ℕ → Input)
    (hr : i₀.reset = true) (hinp : ∀ n, (inp n).reset = false) (src : Source) :
    (NeverPastLimit src (run step (step s₀ i₀) inp) inp →
      TripsOnTime src (run step (step s₀ i₀) inp) inp) ∧
    (src.analog = true ∨ src.cnt s₀ = 0 →
      TripsOnTime src (run step (step s₀ i₀) inp) inp →
      NeverPastLimit src (run step (step s₀ i₀) inp) inp) := by
  refine ⟨tripsOnTime_of_neverPastLimit hinp _ src, ?_⟩
  intro hzero htime
  have h0 : src.cnt (step s₀ i₀) = 0 := by
    rw [cnt_reset s₀ i₀ src hr]
    rcases hzero with ha | hz
    · rw [if_pos ha]
    · rw [hz, ite_self]
  intro n ht hp hl
  exact TripCounter.count_le_of_live (counter_follows hinp _ src) h0 htime ht hp hl

/-- `fault1` up from reset on, a 10 kHz trigger every four clocks, and the limits `lim n`. -/
def fault1Run (lim : ℕ → BitVec 16) (n : ℕ) : Input :=
  { restInput (lim n) with tenkhzTrig := decide (n % 4 = 0), fault1 := true }

/-- With the limit kept at two, the supply fault trips on time. -/
theorem flt1_tripsOnTime :
    TripsOnTime .flt1 (run step (step restState { restInput 2 with reset := true })
      (fault1Run fun _ => 2)) (fault1Run fun _ => 2) :=
  (tripsOnTime_iff_neverPastLimit restState { restInput 2 with reset := true }
    (fault1Run fun _ => 2) rfl (fun _ => rfl) .flt1).1
    (neverPastLimit_of_monotone (fun _ => rfl) _ _ (by decide) fun _ => le_rfl)

/-- A limit lowered from five to one when the count stands at three: the tick at clock 15 ends
four ticks of the fault, and the bit stays down. -/
theorem flt1_late_after_lowering :
    ¬ TripsOnTime .flt1 (run step (step restState { restInput 5 with reset := true })
      (fault1Run fun n => if n < 12 then 5 else 1)) (fault1Run fun n => if n < 12 then 5 else 1) := by
  intro h
  have hup := h 15 (by decide) (by decide)
  revert hup
  decide

/-! ## Readings at negative full scale -/

/-- The reading of an analog source is at negative full scale. -/
def Source.readingAtMin (i : Input) : Source → Bool
  | .ovc1 => decide (i.dcctAdcs.dcct0 = BitVec.intMin 20)
  | .ovc2 => decide (i.dcctAdcs.dcct1 = BitVec.intMin 20)
  | .ovv => decide (i.monAdcs.voltage = BitVec.intMin 16)
  | .err1 | .err2 => decide (i.monAdcs.psError = BitVec.intMin 16)
  | .ignd => decide (i.monAdcs.ignd = BitVec.intMin 16)
  | _ => false

/-- The threshold of an analog source is at negative full scale. -/
def Source.threshAtMin (i : Input) : Source → Bool
  | .ovc1 => decide (i.faultParams.ovc1Thresh = BitVec.intMin 20)
  | .ovc2 => decide (i.faultParams.ovc2Thresh = BitVec.intMin 20)
  | .ovv => decide (i.faultParams.ovvThresh = BitVec.intMin 16)
  | .err1 => decide (i.faultParams.err1Thresh = BitVec.intMin 16)
  | .err2 => decide (i.faultParams.err2Thresh = BitVec.intMin 16)
  | .ignd => decide (i.faultParams.igndThresh = BitVec.intMin 16)
  | _ => false

/-- At clock `n` the source is unmasked with no clear pending, its reading is at negative full
scale, and its threshold is or is not there too, as `atMin` says. -/
def PinnedAt (src : Source) (atMin : Bool) (st : ℕ → State) (inp : ℕ → Input) (n : ℕ) : Bool :=
  src.readingAtMin (inp n) && !src.masked (st n) (inp n) && !(st n).clearPulse &&
    (src.threshAtMin (inp n) == atMin)

theorem overThreshold_intMin {w : ℕ} (hw : 0 < w) (thresh : BitVec w) :
    overThreshold (BitVec.intMin w) thresh = decide (thresh = BitVec.intMin w) := by
  have hmag : |thresh.toInt| ≤ |(BitVec.intMin w).toInt| := by
    rw [abs_toInt_intMin hw]
    exact abs_le.mpr ⟨BitVec.le_toInt thresh, by have := @BitVec.toInt_lt w thresh; omega⟩
  have h := abs_sle_abs_eq_iff hw (BitVec.intMin w) thresh
  rw [decide_eq_true hmag, eq_self_iff_true, true_iff] at h
  unfold overThreshold
  by_cases ht : thresh = BitVec.intMin w
  · rw [decide_eq_true ht]; exact h.mpr ht
  · rw [decide_eq_false ht, Bool.eq_false_iff]; exact fun hs => ht (h.mp hs)

theorem cond_of_readingAtMin (i : Input) (src : Source) (h : src.readingAtMin i = true) :
    src.cond i = src.threshAtMin i := by
  cases src <;> simp only [Source.readingAtMin, decide_eq_true_eq, Bool.false_eq_true] at h <;>
    simp only [Source.cond, Source.threshAtMin, h] <;>
    exact overThreshold_intMin (by omega) _

theorem trips_of_pinnedAt {src : Source} {atMin : Bool} {st : ℕ → State} {inp : ℕ → Input} {n : ℕ}
    (h : PinnedAt src atMin st inp n = true) : src.trips (st n) (inp n) = atMin := by
  unfold PinnedAt at h
  simp only [Bool.and_eq_true, Bool.not_eq_true', beq_iff_eq] at h
  obtain ⟨⟨⟨hread, hmask⟩, hclear⟩, hthresh⟩ := h
  unfold Source.trips
  rw [cond_of_readingAtMin _ _ hread, hthresh, hmask, hclear]
  simp

theorem not_live_of_not_trips (s : State) (i : Input) (src : Source) (hr : i.reset = false)
    (ht : s.tenKhzPulse = true) (hp : src.trips s i = false) : src.live (step s i) = false := by
  have h := counter_step s i src hr
  rw [if_pos ht, hp] at h
  exact congrArg TripCounter.State.live h

/-- **Over-threshold detection.** The comparison is the comparison of magnitudes exactly when the
reading is at negative full scale if and only if the threshold is. In a run from a reset whose
count never passes the limit, a reading pinned at negative full scale for `cntlim + 1` ticks raises
the live bit exactly when the threshold stands there too. -/
theorem overThreshold_sound_iff (adc20 thresh20 : BitVec 20) (adc16 thresh16 : BitVec 16)
    (s₀ : State) (i₀ : Input) (inp : ℕ → Input) (src : Source) :
    (overThreshold adc20 thresh20 = decide (|thresh20.toInt| ≤ |adc20.toInt|) ↔
      (adc20 = BitVec.intMin 20 ↔ thresh20 = BitVec.intMin 20)) ∧
    (overThreshold adc16 thresh16 = decide (|thresh16.toInt| ≤ |adc16.toInt|) ↔
      (adc16 = BitVec.intMin 16 ↔ thresh16 = BitVec.intMin 16)) ∧
    (i₀.reset = true → (∀ n, (inp n).reset = false) →
      NeverPastLimit src (run step (step s₀ i₀) inp) inp →
      ∀ (n : ℕ) (atMin : Bool), (run step (step s₀ i₀) inp n).tenKhzPulse = true →
        HeldFor (fun k => (run step (step s₀ i₀) inp k).tenKhzPulse)
          (PinnedAt src atMin (run step (step s₀ i₀) inp) inp)
          (src.cntlim (inp n).faultParams + 1) (n + 1) →
        src.live (run step (step s₀ i₀) inp (n + 1)) = atMin) := by
  refine ⟨abs_sle_abs_eq_iff (by norm_num) adc20 thresh20,
    abs_sle_abs_eq_iff (by norm_num) adc16 thresh16, ?_⟩
  intro _ hinp hle n atMin ht hheld
  cases atMin with
  | true =>
    exact tripsOnTime_of_neverPastLimit hinp _ src hle n ht
      (hheld.mono fun _ hm => trips_of_pinnedAt hm)
  | false =>
    exact not_live_of_not_trips _ _ src (hinp n) ht (trips_of_pinnedAt (hheld.latest ht))

/-- DCCT 1 at negative full scale from reset on, against the threshold `thresh`. -/
def dcct0Run (thresh : BitVec 20) (n : ℕ) : Input :=
  { restInput 2 with
    tenkhzTrig := decide (n % 4 = 0)
    dcctAdcs := ⟨BitVec.intMin 20, 0⟩
    faultParams := { restParams 2 with ovc1Thresh := thresh } }

/-- Against the most negative threshold the third tick raises the bit. -/
theorem ovc1_trips_at_intMin :
    Source.live (run step (step restState { restInput 2 with reset := true })
      (dcct0Run (BitVec.intMin 20)) 12) .ovc1 = true :=
  (overThreshold_sound_iff 0 0 0 0 restState { restInput 2 with reset := true }
    (dcct0Run (BitVec.intMin 20)) .ovc1).2.2 rfl (fun _ => rfl)
    (neverPastLimit_of_monotone (fun _ => rfl) _ _ (by decide) fun _ => le_rfl)
    11 true (by decide) (by decide)

/-- A full-scale negative current is not seen over a threshold of 400000: the comparison fails,
and after the three ticks the limit asks for the bit is still down. -/
theorem ovc1_blind_at_intMin :
    (overThreshold (BitVec.intMin 20) (400000 : BitVec 20) = false ∧
      |(400000 : BitVec 20).toInt| ≤ |(BitVec.intMin 20).toInt|) ∧
    (HeldFor
        (fun k => (run step (step restState { restInput 2 with reset := true })
          (dcct0Run 400000) k).tenKhzPulse)
        (PinnedAt .ovc1 false (run step (step restState { restInput 2 with reset := true })
          (dcct0Run 400000)) (dcct0Run 400000)) 3 12 ∧
      Source.live (run step (step restState { restInput 2 with reset := true })
        (dcct0Run 400000) 12) .ovc1 = false) := by
  refine ⟨⟨by decide, by decide⟩, by decide, by decide⟩

end Psc.FaultBlock
