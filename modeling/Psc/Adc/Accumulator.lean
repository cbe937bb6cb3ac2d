import Mathlib.Data.List.GetD
import Psc.Adc.AverageSum
import Psc.Adc.GainOffset

/-!
# The accumulators

`adc_accumulator.vhd`: an average for each of the eight readings of a supply, in the supply's mode,
the monitors' at the width of the DCCTs'. `adc_accumulator_top.vhd` has one for each supply.

`out_of_start`: after each start an average shows what `combined` says of the samples so far.
-/

namespace Psc

/-! ## An average from configuration on -/

namespace Average

open Clocked RingLog

/-- What the samples so far, the latest first, give in a mode: the last, or the sum of the last
`N + 1` but one. -/
def combined (m : BitVec 2) (l : List ℤ) : ℤ :=
  if m = 0 then l.headD 0
  else ((l.take (limit m + 1)).eraseIdx (l.length % (limit m + 1))).sum

theorem sum_eraseIdx (l : List ℤ) (j : ℕ) : (l.eraseIdx j).sum = l.sum - l.getD j 0 := by
  rcases Nat.lt_or_ge j l.length with hlt | hge
  · have hsum := List.CommMonoid.add_sum_eraseIdx hlt
    rw [List.getD_eq_getElem l 0 hlt]
    omega
  · rw [List.eraseIdx_of_length_le hge, List.getD_eq_default _ _ hge, sub_zero]

theorem sum_eraseIdx_append_zeros (l : List ℤ) (q k j : ℕ) :
    (((l ++ List.replicate q 0).take k).eraseIdx j).sum = ((l.take k).eraseIdx j).sum := by
  rw [sum_eraseIdx, sum_eraseIdx, List.take_append, List.take_replicate, List.sum_append,
    List.sum_replicate, smul_zero, add_zero]
  congr 1
  rcases Nat.lt_or_ge j (l.take k).length with hlt | hge
  · rw [List.getD_append _ _ _ _ hlt]
  · rw [List.getD_append_right _ _ _ _ hge, List.getD_eq_default _ _ hge]
    simp

section Run

variable {m : BitVec 2} {inp : ℕ → Input} {t : ℕ}

theorem run_raw_out {s : State} (h : Begins s inp m) (hm : m = 0) :
    (run step s inp 2).done = true ∧
      (run step s inp 2).avgOut.toInt = (inp 0).dataIn.toInt := by
  have h1 := step_raw (h.reset 0) h.idle h.start h.mode hm
  have hstate : (run step s inp 1).state = .finished := by rw [run_succ, run_zero, h1]
  rw [run_succ, step_finished (h.reset 1) hstate, run_succ, run_zero, h1]
  refine ⟨rfl, ?_⟩
  rw [BitVec.toInt_signExtend_of_le (by norm_num), BitVec.toInt_signExtend_of_le (by norm_num)]

theorem history_eq (h : ConstantMode m inp 0) (n : ℕ) :
    history m inp 0 n = inputs inp 0 n ++ List.replicate (limit m + 1) 0 ∧
      leftOut m inp 0 n = (inputs inp 0 n).length % (limit m + 1) := by
  have hfirst : regs inp 1 = { powerOn with
      addrCnt := 0, accum := 0, state := .idle, done := false, mode := some (inp 0).sel } :=
    step_reset h.reset
  have hram : (regs inp 1).ram = fun _ => 0 := by rw [hfirst]; rfl
  have hcnt : (regs inp 1).ramCnt = 0 := by rw [hfirst]; rfl
  have hwords : words (regs inp 1).ram = fun _ => 0 := by
    funext i
    unfold words cell
    rw [hram]
    split_ifs <;> rfl
  unfold history leftOut byAge
  rw [show 0 + 1 = 1 from rfl, hwords, hcnt, Nat.zero_add]
  refine ⟨?_, rfl⟩
  congr 1
  simp [List.map_const']

/-- What an average shows after a start. -/
theorem out_of_start (h : ConstantMode m inp 0) (ht : starts inp 0 t = true) :
    (regs inp (t + span m)).done = true ∧
      (regs inp (t + span m)).avgOut.toInt = combined m (inputs inp 0 (t + 1)) := by
  unfold span combined
  split_ifs with hm
  · have hidle := (h.paced.at_start ht).1
    have hbegins := h.paced.begins ht hidle
    obtain ⟨hdone, hout⟩ := run_raw_out hbegins ((h.modeAt t).trans hm)
    rw [← regs_add] at hdone hout
    refine ⟨hdone, hout.trans ?_⟩
    unfold inputs
    rw [ticks_succ_of_tick ht]
    rfl
  · have hmode := h.modeAt t
    have hdone := (h.paced.average ht (by rwa [hmode])).1
    rw [hmode] at hdone
    refine ⟨hdone, ?_⟩
    obtain ⟨hhist, hleft⟩ := history_eq h (t + 1)
    rw [h.avgOut hm ht, hhist, hleft, sum_eraseIdx_append_zeros]

end Run

end Average

/-! ## The entities -/

namespace Accumulator

open Clocked

/-- The input ports of `adc_accumulator`. -/
structure Input where
  reset : Bool
  start : Bool
  mode : BitVec 2
  dcct : Adc.DcctInput → BitVec 20
  mon : Adc.MonInput → BitVec 16

/-- The averages. -/
structure State where
  dcct : Adc.DcctInput → Average.State
  mon : Adc.MonInput → Average.State

/-- The ports of the average of a DCCT. -/
def dcctIn (i : Input) (c : Adc.DcctInput) : Average.Input := ⟨i.reset, i.start, i.dcct c, i.mode⟩

/-- The ports of the average of a monitor. -/
def monIn (i : Input) (c : Adc.MonInput) : Average.Input :=
  ⟨i.reset, i.start, (i.mon c).signExtend 20, i.mode⟩

/-- One clock. -/
def step (s : State) (i : Input) : State where
  dcct c := Average.step (s.dcct c) (dcctIn i c)
  mon c := Average.step (s.mon c) (monIn i c)

/-- `done`. -/
def State.done (s : State) : Bool := (s.dcct .dcct0).done

/-- The averages at configuration. -/
def powerOn : State := ⟨fun _ => Average.powerOn, fun _ => Average.powerOn⟩

theorem run_dcct (inp : ℕ → Input) (c : Adc.DcctInput) (n : ℕ) :
    (run step powerOn inp n).dcct c = Average.regs (fun n => dcctIn (inp n) c) n :=
  run_map step powerOn inp (fun s => s.dcct c) (fun _ i => dcctIn i c) (fun _ _ => rfl) n

theorem run_mon (inp : ℕ → Input) (c : Adc.MonInput) (n : ℕ) :
    (run step powerOn inp n).mon c = Average.regs (fun n => monIn (inp n) c) n :=
  run_map step powerOn inp (fun s => s.mon c) (fun _ i => monIn i c) (fun _ _ => rfl) n

end Accumulator

end Psc
