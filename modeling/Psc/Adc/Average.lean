import Psc.Lib.Clocked
import Psc.Lib.RingLog

/-!
# The moving average

`average.vhd`: at each start a sample goes to a RAM of 500 words, of which the mode uses the first
167, 500 or 10, and the words in use are added up.

1. `ram_cnt`, the write index, wraps when it is at the limit, and writes nothing then: of the
   samples every `(N + 1)`st is left out (`Store.write`, `RingLog.Aged`).
2. `inv_run`: what stands in the counters and in the accumulator, from a reset on. The sums are
   below `500 * 2^19`, so the accumulator has room for them.
3. `Paced.at_start`: with starts far enough apart the RAM is that of the starts so far (`stored`),
   one `write` each.
4. `aged_stored`: over starts in one mode it holds the last `N + 1` samples but the one left out.
-/

namespace Psc.Average

open Clocked RingLog

/-- `state`. -/
inductive Phase where
  | idle | writeToRam | accumulate | finished
  deriving DecidableEq

/-- The input ports. -/
structure Input where
  reset : Bool
  start : Bool
  dataIn : BitVec 20
  sel : BitVec 2

/-- The registers. `mode` has no value before the first clock. -/
structure State where
  mode : Option (BitVec 2)
  state : Phase
  ram : Fin 500 → BitVec 20
  accum : BitVec 29
  addrCnt : ℕ
  addrMax : ℕ
  ramCnt : ℕ
  avgOut : BitVec 32
  done : Bool

/-- `ram(i)`, of no meaning outside the array (`InRange`). -/
def cell (ram : Fin 500 → BitVec 20) (i : ℕ) : BitVec 20 := if h : i < 500 then ram ⟨i, h⟩ else 0

/-- `ram(i) <= x`. -/
def setCell (ram : Fin 500 → BitVec 20) (i : ℕ) (x : BitVec 20) : Fin 500 → BitVec 20 :=
  fun j => if j.val = i then x else ram j

/-- `addr_max` for a mode other than 00. -/
def limit (mode : BitVec 2) : ℕ := if mode = 1 then 167 else if mode = 2 then 500 else 10

/-- The process `storage`. -/
def storage (s : State) (i : Input) : State :=
  if i.reset then { s with addrCnt := 0, accum := 0, state := .idle, done := false }
  else
    match s.state with
    | .idle =>
      if i.start then
        match s.mode with
        | none => { s with done := false, state := .idle }
        | some m =>
          if m = 0 then
            { s with done := false, accum := i.dataIn.signExtend 29, state := .finished }
          else { s with done := false, addrMax := limit m, state := .writeToRam }
      else { s with done := false }
    | .writeToRam =>
      if s.ramCnt = s.addrMax then { s with ramCnt := 0, state := .accumulate }
      else
        { s with
          ram := setCell s.ram s.ramCnt i.dataIn
          ramCnt := s.ramCnt + 1
          state := .accumulate }
    | .accumulate =>
      if s.addrCnt = s.addrMax then { s with addrCnt := 0, state := .finished }
      else
        { s with
          accum := s.accum + (cell s.ram s.addrCnt).signExtend 29
          addrCnt := s.addrCnt + 1 }
    | .finished =>
      { s with avgOut := s.accum.signExtend 32, accum := 0, done := true, state := .idle }

/-- One clock of the two processes. -/
def step (s : State) (i : Input) : State := { storage s i with mode := some i.sel }

/-- The registers at configuration. -/
def powerOn : State := ⟨none, .idle, fun _ => 0, 0, 500, 0, 0, 0, false⟩

/-- The index that a clock uses is one of the array's. -/
def InRange (s : State) : Prop :=
  (s.state = .writeToRam → s.ramCnt ≠ s.addrMax → s.ramCnt < 500) ∧
    (s.state = .accumulate → s.addrCnt ≠ s.addrMax → s.addrCnt < 500)

/-- The sums that a clock takes have room. -/
def NoOverflow (s : State) : Prop :=
  (s.state = .accumulate → s.addrCnt ≠ s.addrMax →
    (s.accum + (cell s.ram s.addrCnt).signExtend 29).toInt =
      s.accum.toInt + (cell s.ram s.addrCnt).toInt) ∧
    (s.accum.signExtend 32).toInt = s.accum.toInt

/-! ## What a clock does -/

/-- `ram` with its write index. -/
structure Store where
  ramCnt : ℕ
  ram : Fin 500 → BitVec 20

def State.store (s : State) : Store := ⟨s.ramCnt, s.ram⟩

@[simp] theorem ramCnt_store (s : State) : s.store.ramCnt = s.ramCnt := rfl

/-- WRITE_TO_RAM at the limit `n`: a sample that comes when the index is at the limit is left out.
-/
def Store.write (n : ℕ) (x : BitVec 20) (st : Store) : Store :=
  if st.ramCnt = n then ⟨0, st.ram⟩ else ⟨st.ramCnt + 1, setCell st.ram st.ramCnt x⟩

section Step

variable {s : State} {i : Input} {m : BitVec 2}

theorem step_reset (hr : i.reset = true) : step s i =
    { s with addrCnt := 0, accum := 0, state := .idle, done := false, mode := some i.sel } := by
  rw [step, storage, if_pos hr]

theorem step_idle (hr : i.reset = false) (hs : s.state = .idle)
    (h : i.start = false ∨ s.mode = none) :
    step s i = { s with done := false, mode := some i.sel } := by
  rw [step, storage, if_neg (by simp [hr]), hs]
  dsimp only
  split_ifs with hstart
  · have hmode : s.mode = none := h.resolve_left (by simp [hstart])
    rw [hmode]
  · rfl

theorem step_raw (hr : i.reset = false) (hs : s.state = .idle) (hstart : i.start = true)
    (hmode : s.mode = some m) (hm : m = 0) : step s i = { s with
      done := false, accum := i.dataIn.signExtend 29, state := .finished, mode := some i.sel } := by
  rw [step, storage, if_neg (by simp [hr]), hs]
  dsimp only
  rw [if_pos hstart, hmode]
  dsimp only
  rw [if_pos hm]

theorem step_begin (hr : i.reset = false) (hs : s.state = .idle) (hstart : i.start = true)
    (hmode : s.mode = some m) (hm : m ≠ 0) : step s i = { s with
      done := false, addrMax := limit m, state := .writeToRam, mode := some i.sel } := by
  rw [step, storage, if_neg (by simp [hr]), hs]
  dsimp only
  rw [if_pos hstart, hmode]
  dsimp only
  rw [if_neg hm]

theorem step_write (hr : i.reset = false) (hs : s.state = .writeToRam) : step s i = { s with
    ramCnt := (s.store.write s.addrMax i.dataIn).ramCnt
    ram := (s.store.write s.addrMax i.dataIn).ram
    state := .accumulate, mode := some i.sel } := by
  rw [step, storage, if_neg (by simp [hr]), hs]
  unfold Store.write State.store
  dsimp only
  split_ifs <;> rfl

theorem step_add (hr : i.reset = false) (hs : s.state = .accumulate)
    (h : s.addrCnt ≠ s.addrMax) : step s i = { s with
      accum := s.accum + (cell s.ram s.addrCnt).signExtend 29
      addrCnt := s.addrCnt + 1, mode := some i.sel } := by
  rw [step, storage, if_neg (by simp [hr]), hs]
  dsimp only
  rw [if_neg h]

theorem step_last (hr : i.reset = false) (hs : s.state = .accumulate)
    (h : s.addrCnt = s.addrMax) :
    step s i = { s with addrCnt := 0, state := .finished, mode := some i.sel } := by
  rw [step, storage, if_neg (by simp [hr]), hs]
  dsimp only
  rw [if_pos h]

theorem step_finished (hr : i.reset = false) (hs : s.state = .finished) : step s i = { s with
    avgOut := s.accum.signExtend 32, accum := 0, done := true, state := .idle
    mode := some i.sel } := by
  rw [step, storage, if_neg (by simp [hr]), hs]

theorem mode_step : (step s i).mode = some i.sel := rfl

end Step

/-- All that a clock can do. -/
inductive Does (s : State) (i : Input) : State → Prop
  | reset (hr : i.reset = true) : Does s i
      { s with addrCnt := 0, accum := 0, state := .idle, done := false, mode := some i.sel }
  | wait (hs : s.state = .idle) (h : i.start = false ∨ s.mode = none) : Does s i
      { s with done := false, mode := some i.sel }
  | raw (hs : s.state = .idle) (hstart : i.start = true) (hmode : s.mode = some 0) : Does s i
      { s with
        done := false, accum := i.dataIn.signExtend 29, state := .finished, mode := some i.sel }
  | begin (m : BitVec 2) (hs : s.state = .idle) (hstart : i.start = true)
      (hmode : s.mode = some m) (hm : m ≠ 0) : Does s i
      { s with done := false, addrMax := limit m, state := .writeToRam, mode := some i.sel }
  | write (hs : s.state = .writeToRam) : Does s i
      { s with
        ramCnt := (s.store.write s.addrMax i.dataIn).ramCnt
        ram := (s.store.write s.addrMax i.dataIn).ram
        state := .accumulate, mode := some i.sel }
  | add (hs : s.state = .accumulate) (h : s.addrCnt ≠ s.addrMax) : Does s i
      { s with
        accum := s.accum + (cell s.ram s.addrCnt).signExtend 29
        addrCnt := s.addrCnt + 1, mode := some i.sel }
  | last (hs : s.state = .accumulate) (h : s.addrCnt = s.addrMax) : Does s i
      { s with addrCnt := 0, state := .finished, mode := some i.sel }
  | finish (hs : s.state = .finished) : Does s i
      { s with
        avgOut := s.accum.signExtend 32, accum := 0, done := true, state := .idle
        mode := some i.sel }

theorem does_step (s : State) (i : Input) : Does s i (step s i) := by
  cases hr : i.reset with
  | true =>
    rw [step_reset hr]
    exact .reset hr
  | false =>
    cases hs : s.state with
    | idle =>
      by_cases hwait : i.start = false ∨ s.mode = none
      · rw [step_idle hr hs hwait]
        exact .wait hs hwait
      · push Not at hwait
        obtain ⟨m, hmode⟩ := Option.ne_none_iff_exists'.mp hwait.2
        have hstart : i.start = true := by simpa using hwait.1
        by_cases hm : m = 0
        · rw [step_raw hr hs hstart hmode hm]
          exact .raw hs hstart (by rw [hmode, hm])
        · rw [step_begin hr hs hstart hmode hm]
          exact .begin m hs hstart hmode hm
    | writeToRam =>
      rw [step_write hr hs]
      exact .write hs
    | accumulate =>
      by_cases hend : s.addrCnt = s.addrMax
      · rw [step_last hr hs hend]
        exact .last hs hend
      · rw [step_add hr hs hend]
        exact .add hs hend
    | finished =>
      rw [step_finished hr hs]
      exact .finish hs

/-! ## The array -/

section Array

variable {ram : Fin 500 → BitVec 20} {i j : ℕ} {x : BitVec 20}

theorem cell_setCell (h : i < 500) : cell (setCell ram i x) i = x := by
  unfold cell setCell
  rw [dif_pos h, if_pos rfl]

theorem cell_setCell_of_ne (h : j ≠ i) : cell (setCell ram i x) j = cell ram j := by
  unfold cell setCell
  split_ifs <;> rfl

/-- The sum of the first words. -/
def sumTo (ram : Fin 500 → BitVec 20) (n : ℕ) : ℤ :=
  ((List.range n).map fun i => (cell ram i).toInt).sum

@[simp] theorem sumTo_zero : sumTo ram 0 = 0 := rfl

theorem sumTo_succ (n : ℕ) : sumTo ram (n + 1) = sumTo ram n + (cell ram n).toInt := by
  unfold sumTo
  rw [List.range_succ, List.map_append, List.sum_append, List.map_singleton, List.sum_singleton]

theorem abs_sumTo_le (n : ℕ) : |sumTo ram n| ≤ n * 2 ^ 19 := by
  induction n with
  | zero => simp
  | succ n ih =>
    have hlo := BitVec.le_toInt (cell ram n)
    have hhi := @BitVec.toInt_lt _ (cell ram n)
    rw [abs_le] at ih
    rw [sumTo_succ, abs_le]
    push_cast
    norm_num at hlo hhi ih ⊢
    constructor
    · linarith [ih.1]
    · linarith [ih.2]

theorem toInt_ofInt_sumTo {n : ℕ} (h : n ≤ 500) :
    (BitVec.ofInt 29 (sumTo ram n)).toInt = sumTo ram n := by
  have hle := abs_le.mp (@abs_sumTo_le ram n)
  have hn : (n : ℤ) ≤ 500 := by exact_mod_cast h
  norm_num at hle
  apply BitVec.toInt_ofInt_eq_self (by norm_num)
  · norm_num
    linarith [hle.1]
  · norm_num
    linarith [hle.2]

theorem ofInt_sumTo_succ (n : ℕ) : BitVec.ofInt 29 (sumTo ram (n + 1)) =
    BitVec.ofInt 29 (sumTo ram n) + (cell ram n).signExtend 29 := by
  rw [sumTo_succ, BitVec.ofInt_add]
  rfl

end Array

theorem limit_le (m : BitVec 2) : limit m ≤ 500 := by
  unfold limit
  split_ifs <;> norm_num

theorem limit_pos (m : BitVec 2) : 0 < limit m := by
  unfold limit
  split_ifs <;> norm_num

/-! ## The invariant -/

/-- What the counters and the accumulator are in each state. -/
def Inv (s : State) : Prop :=
  match s.state with
  | .idle => s.addrCnt = 0 ∧ s.accum = 0
  | .writeToRam => s.addrCnt = 0 ∧ s.accum = 0 ∧ s.addrMax ≤ 500
  | .accumulate => s.addrCnt ≤ s.addrMax ∧ s.addrMax ≤ 500 ∧
      s.accum = BitVec.ofInt 29 (sumTo s.ram s.addrCnt)
  | .finished => s.addrCnt = 0

section Invariant

variable {s : State} {i : Input}

theorem inv_reset (h : i.reset = true) : Inv (step s i) := by
  rw [step_reset h]
  exact ⟨rfl, rfl⟩

theorem inv_step (hs : Inv s) : Inv (step s i) := by
  have hdoes := does_step s i
  unfold Inv at hs
  generalize step s i = s' at hdoes ⊢
  cases hdoes with
  | reset => exact ⟨rfl, rfl⟩
  | wait hstate =>
    rw [Inv, hstate]
    rw [hstate] at hs
    exact hs
  | raw hstate =>
    rw [hstate] at hs
    exact hs.1
  | begin m hstate =>
    rw [hstate] at hs
    exact ⟨hs.1, hs.2, limit_le m⟩
  | write hstate =>
    rw [hstate] at hs
    obtain ⟨hcnt, haccum, hmax⟩ := hs
    refine ⟨show s.addrCnt ≤ s.addrMax by omega, hmax, ?_⟩
    dsimp only
    rw [haccum, hcnt]
    rfl
  | add hstate hne =>
    rw [hstate] at hs
    obtain ⟨hcnt, hmax, haccum⟩ := hs
    rw [Inv, hstate]
    refine ⟨show s.addrCnt + 1 ≤ s.addrMax by omega, hmax, ?_⟩
    dsimp only
    rw [haccum, ofInt_sumTo_succ]
  | last => exact rfl
  | finish hstate =>
    rw [hstate] at hs
    exact ⟨hs, rfl⟩

theorem Inv.noOverflow (hs : Inv s) : NoOverflow s := by
  refine ⟨fun hstate hne => ?_, BitVec.toInt_signExtend_of_le (by norm_num)⟩
  rw [Inv, hstate] at hs
  obtain ⟨hcnt, hmax, haccum⟩ := hs
  rw [haccum, ← ofInt_sumTo_succ, toInt_ofInt_sumTo (by omega), toInt_ofInt_sumTo (by omega),
    sumTo_succ]

end Invariant

theorem inv_run {s : State} {inp : ℕ → Input} (hs : Inv s) (n : ℕ) : Inv (run step s inp n) := by
  induction n with
  | zero => exact hs
  | succ n ih => exact inv_step ih

/-! ## One start -/

/-- A start at clock 0 in the mode `m`. -/
structure Begins (s : State) (inp : ℕ → Input) (m : BitVec 2) : Prop where
  inv : Inv s
  idle : s.state = .idle
  mode : s.mode = some m
  start : (inp 0).start = true
  reset : ∀ n, (inp n).reset = false

/-- The RAM after a start whose sample is `x`. -/
def Store.take (m : BitVec 2) (x : BitVec 20) (st : Store) : Store :=
  if m = 0 then st else st.write (limit m) x

/-- The clocks from a start to the next IDLE. -/
def span (m : BitVec 2) : ℕ := if m = 0 then 2 else limit m + 4

/-- `n` words of `st` are added up, with `done` low so far. -/
structure Summing (s : State) (m : BitVec 2) (st : Store) (n : ℕ) : Prop where
  state : s.state = .accumulate
  addrCnt : s.addrCnt = n
  addrMax : s.addrMax = limit m
  store : s.store = st
  done : s.done = false

section OneStart

variable {s : State} {inp : ℕ → Input} {m : BitVec 2}

theorem span_le (m : BitVec 2) : span m ≤ 504 := by
  have := limit_le m
  unfold span
  split_ifs <;> omega

theorem one_lt_span (m : BitVec 2) : 1 < span m := by
  unfold span
  split_ifs <;> omega

theorem run_raw (h : Begins s inp m) (hm : m = 0) :
    (run step s inp 2).state = .idle ∧ (run step s inp 2).store = s.store := by
  have h1 := step_raw (h.reset 0) h.idle h.start h.mode hm
  have hstate : (run step s inp 1).state = .finished := by rw [run_succ, run_zero, h1]
  rw [run_succ, step_finished (h.reset 1) hstate, run_succ, run_zero, h1]
  exact ⟨rfl, rfl⟩

theorem run_begin (h : Begins s inp m) (hm : m ≠ 0) : run step s inp 1 = { s with
    done := false, addrMax := limit m, state := .writeToRam, mode := some (inp 0).sel } :=
  step_begin (h.reset 0) h.idle h.start h.mode hm

theorem summing_run (h : Begins s inp m) (hm : m ≠ 0) {n : ℕ} (hn : n ≤ limit m) :
    Summing (run step s inp (2 + n)) m (s.store.write (limit m) (inp 1).dataIn) n := by
  induction n with
  | zero =>
    have h1 := run_begin h hm
    have hinv : Inv (run step s inp 1) := inv_run h.inv 1
    have hstate : (run step s inp 1).state = .writeToRam := by rw [h1]
    have h2 := step_write (h.reset 1) hstate
    rw [h1] at hinv
    rw [Nat.add_zero, run_succ, h2, h1]
    exact ⟨rfl, hinv.1, rfl, rfl, rfl⟩
  | succ n ih =>
    have hn' := ih (by omega)
    have hne : (run step s inp (2 + n)).addrCnt ≠ (run step s inp (2 + n)).addrMax := by
      rw [hn'.addrCnt, hn'.addrMax]
      omega
    rw [← Nat.add_assoc, run_succ, step_add (h.reset _) hn'.state hne]
    exact ⟨hn'.state, congrArg (· + 1) hn'.addrCnt, hn'.addrMax, hn'.store, hn'.done⟩

/-- **A start** in a mode that averages: the sample is written, and after `N + 4` clocks the sum is
out, with `done` low until then. -/
theorem run_average (h : Begins s inp m) (hm : m ≠ 0) :
    (run step s inp (limit m + 4)).state = .idle ∧
      (run step s inp (limit m + 4)).store = s.store.write (limit m) (inp 1).dataIn ∧
      (run step s inp (limit m + 4)).done = true ∧
      (run step s inp (limit m + 4)).avgOut.toInt =
        sumTo (s.store.write (limit m) (inp 1).dataIn).ram (limit m) ∧
      ∀ n < limit m + 4, 0 < n → (run step s inp n).done = false := by
  have hsum := summing_run h hm le_rfl
  have hlast := step_last (h.reset (2 + limit m)) hsum.state (hsum.addrCnt.trans hsum.addrMax.symm)
  rw [← run_succ step s inp] at hlast
  have hstate : (run step s inp (2 + limit m + 1)).state = .finished := by rw [hlast]
  have hend := step_finished (h.reset (2 + limit m + 1)) hstate
  rw [← run_succ step s inp, show 2 + limit m + 1 + 1 = limit m + 4 by omega] at hend
  have haccum : Inv (run step s inp (2 + limit m)) := inv_run h.inv _
  rw [Inv, hsum.state] at haccum
  have hram := congrArg Store.ram hsum.store
  refine ⟨by rw [hend], ?_, by rw [hend], ?_, ?_⟩
  · rw [hend, hlast]
    exact hsum.store
  · rw [hend, hlast]
    dsimp only
    rw [BitVec.toInt_signExtend_of_le (by norm_num), haccum.2.2, hsum.addrCnt,
      toInt_ofInt_sumTo (limit_le m)]
    exact congrArg (sumTo · (limit m)) hram
  · intro n hn hpos
    rcases Nat.lt_or_ge n 2 with h2 | h2
    · rw [show n = 1 by omega, run_begin h hm]
    · obtain ⟨j, rfl⟩ := Nat.exists_eq_add_of_le h2
      rcases Nat.lt_or_ge (limit m) j with hj | hj
      · rw [show 2 + j = 2 + limit m + 1 by omega, hlast]
        exact hsum.done
      · exact (summing_run h hm hj).done

theorem run_span (h : Begins s inp m) : (run step s inp (span m)).state = .idle ∧
    (run step s inp (span m)).store = s.store.take m (inp 1).dataIn := by
  unfold span Store.take
  split_ifs with hm
  · exact run_raw h hm
  · exact ⟨(run_average h hm).1, (run_average h hm).2.1⟩

end OneStart

/-! ## Runs -/

/-- The registers before clock `n`. -/
def regs (inp : ℕ → Input) (n : ℕ) : State := run step powerOn inp n

/-- The starts after the reset at clock `r`. -/
def starts (inp : ℕ → Input) (r n : ℕ) : Bool := decide (r < n) && (inp n).start

/-- The mode that a start at clock `u` finds. -/
def modeAt (inp : ℕ → Input) (u : ℕ) : BitVec 2 := (inp (u - 1)).sel

/-- From the reset at clock `r` on: no other reset, and each start after the end of the one before.
What came before that reset is left open. -/
structure Paced (inp : ℕ → Input) (r : ℕ) : Prop where
  reset : (inp r).reset = true
  running : ∀ n, r < n → (inp n).reset = false
  apart : ∀ t u, starts inp r t = true → starts inp r u = true → t < u →
    t + span (modeAt inp t) ≤ u

/-- The RAM after the starts of a list, the latest first. -/
def stored (inp : ℕ → Input) (st : Store) (l : List ℕ) : Store :=
  l.foldr (fun u => Store.take (modeAt inp u) (inp (u + 1)).dataIn) st

/-- The samples of the starts of a list: each shows in the clock after its start. -/
def samples (inp : ℕ → Input) (l : List ℕ) : List ℤ := l.map fun u => (inp (u + 1)).dataIn.toInt

/-- The words of the RAM as numbers. -/
def words (ram : Fin 500 → BitVec 20) (i : ℕ) : ℤ := (cell ram i).toInt

section Runs

variable {inp : ℕ → Input} {r n t : ℕ}

theorem lt_of_starts (h : starts inp r n = true) : r < n := by
  simp only [starts, Bool.and_eq_true, decide_eq_true_eq] at h
  exact h.1

theorem start_of_starts (h : starts inp r n = true) : (inp n).start = true := by
  simp only [starts, Bool.and_eq_true, decide_eq_true_eq] at h
  exact h.2

theorem start_of_not_starts (hn : r < n) (h : starts inp r n = false) :
    (inp n).start = false := by
  simpa [starts, hn] using h

theorem ticks_reset : ticks (starts inp r) (r + 1) = [] := by
  rw [ticks_eq_of_none (Nat.zero_le _)]
  · rfl
  · intro u _ hu
    simp [starts, Nat.not_lt.mpr (Nat.lt_succ_iff.mp hu)]

theorem regs_succ (n : ℕ) : regs inp (n + 1) = step (regs inp n) (inp n) := rfl

theorem regs_add (n k : ℕ) :
    regs inp (n + k) = run step (regs inp n) (fun j => inp (n + j)) k := run_add _ _ _ _ _

theorem mode_regs (hn : 0 < n) : (regs inp n).mode = some (modeAt inp n) := by
  obtain ⟨m, rfl⟩ := Nat.exists_eq_succ_of_ne_zero hn.ne'
  rfl

theorem Paced.inv (h : Paced inp r) (hn : r < n) : Inv (regs inp n) := by
  obtain ⟨k, rfl⟩ := Nat.exists_eq_add_of_le hn
  rw [regs_add, regs_succ]
  exact inv_run (inv_reset h.reset) k

theorem Paced.begins (h : Paced inp r) (ht : starts inp r t = true)
    (hidle : (regs inp t).state = .idle) :
    Begins (regs inp t) (fun k => inp (t + k)) (modeAt inp t) where
  inv := h.inv (lt_of_starts ht)
  idle := hidle
  mode := mode_regs (by have := lt_of_starts ht; omega)
  start := start_of_starts ht
  reset k := h.running _ (by have := lt_of_starts ht; omega)

/-- After the reset the machine is at rest, or in the clocks after a start that it took at rest. -/
theorem Paced.ram (h : Paced inp r) (hn : r < n) :
    ((regs inp n).state = .idle ∧
      (regs inp n).store = stored inp (regs inp (r + 1)).store (ticks (starts inp r) n)) ∨
    ∃ t, starts inp r t = true ∧ t < n ∧ n < t + span (modeAt inp t) ∧
      (regs inp t).state = .idle ∧
      (regs inp t).store = stored inp (regs inp (r + 1)).store (ticks (starts inp r) t) := by
  induction n, (show r + 1 ≤ n from hn) using Nat.le_induction with
  | base =>
    left
    rw [ticks_reset]
    refine ⟨?_, rfl⟩
    rw [regs_succ, step_reset h.reset]
  | succ n hrn ih =>
    rcases ih hrn with ⟨hidle, hstore⟩ | ⟨t, ht, htn, hspan, hidle, hstore⟩
    · cases hstart : starts inp r n with
      | true =>
        have := one_lt_span (modeAt inp n)
        exact Or.inr ⟨n, hstart, by omega, by omega, hidle, hstore⟩
      | false =>
        have hwait := step_idle (h.running n hrn) hidle (Or.inl (start_of_not_starts hrn hstart))
        left
        rw [regs_succ, hwait, ticks_succ_of_not_tick hstart]
        exact ⟨hidle, hstore⟩
    · rcases Nat.lt_or_ge (n + 1) (t + span (modeAt inp t)) with hlt | hge
      · exact Or.inr ⟨t, ht, by omega, hlt, hidle, hstore⟩
      · -- the start is done, and no other came in the meantime
        have hend : n + 1 = t + span (modeAt inp t) := by omega
        have hnone : ∀ u, t + 1 ≤ u → u < n + 1 → starts inp r u = false := by
          intro u htu hun
          by_contra hu
          have := h.apart t u ht (by simpa using hu) (by omega)
          omega
        have hrun := run_span (h.begins ht hidle)
        rw [← regs_add, ← hend] at hrun
        left
        rw [ticks_eq_of_none (by omega) hnone, ticks_succ_of_tick ht]
        exact ⟨hrun.1, by rw [hrun.2, hstore]; rfl⟩

/-- **Each start** is taken at rest, with the RAM as the starts before it left it. -/
theorem Paced.at_start (h : Paced inp r) (ht : starts inp r t = true) :
    (regs inp t).state = .idle ∧
      (regs inp t).store = stored inp (regs inp (r + 1)).store (ticks (starts inp r) t) := by
  rcases h.ram (lt_of_starts ht) with hrest | ⟨u, hu, hut, hspan, -⟩
  · exact hrest
  · have := h.apart u t hu ht hut
    omega

theorem Paced.average (h : Paced inp r) (ht : starts inp r t = true) (hm : modeAt inp t ≠ 0) :
    (regs inp (t + (limit (modeAt inp t) + 4))).done = true ∧
      (regs inp (t + (limit (modeAt inp t) + 4))).avgOut.toInt =
        sumTo (stored inp (regs inp (r + 1)).store (ticks (starts inp r) (t + 1))).ram
          (limit (modeAt inp t)) ∧
      ∀ n, t < n → n < t + (limit (modeAt inp t) + 4) → (regs inp n).done = false := by
  obtain ⟨hidle, hstore⟩ := h.at_start ht
  obtain ⟨-, -, hdone, hout, hlow⟩ := run_average (h.begins ht hidle) hm
  rw [← regs_add] at hdone hout
  refine ⟨hdone, ?_, ?_⟩
  · rw [hout, ticks_succ_of_tick ht, hstore]
    unfold stored
    rw [List.foldr_cons, Store.take, if_neg hm]
  · intro n htn hn
    obtain ⟨k, rfl⟩ := Nat.exists_eq_add_of_lt htn
    rw [show t + k + 1 = t + (k + 1) by omega, regs_add]
    exact hlow (k + 1) (by omega) (by omega)

end Runs

/-! ## Starts in one mode -/

section OneMode

variable {inp : ℕ → Input} {m : BitVec 2} {st : Store} {l : List ℕ}

theorem ramCnt_write (n : ℕ) (x : BitVec 20) :
    (st.write n x).ramCnt = nextTurn n st.ramCnt := by
  unfold Store.write nextTurn
  split_ifs <;> rfl

theorem aged_write {n : ℕ} {hist : List ℤ} (hn : n ≤ 500) (hle : st.ramCnt ≤ n)
    (h : Aged (words st.ram) n st.ramCnt hist) (x : BitVec 20) :
    Aged (words (st.write n x).ram) n (st.write n x).ramCnt (x.toInt :: hist) := by
  unfold Store.write
  split_ifs with hfull
  · rw [hfull] at h
    exact h.leaveOut
  · have hlt : st.ramCnt < n := lt_of_le_of_ne hle hfull
    apply h.push hlt
    · exact congrArg BitVec.toInt (cell_setCell (by omega))
    · intro i _ hne
      exact congrArg BitVec.toInt (cell_setCell_of_ne hne)

/-- The index after a run of starts in one mode, and what the RAM holds: the last `N + 1` samples
but the one left out, and before them what was there at the beginning. -/
theorem aged_stored (hm : m ≠ 0) (hst : st.ramCnt ≤ limit m) (hl : ∀ u ∈ l, modeAt inp u = m) :
    (stored inp st l).ramCnt = (st.ramCnt + l.length) % (limit m + 1) ∧
      Aged (words (stored inp st l).ram) (limit m) (stored inp st l).ramCnt
        (samples inp l ++ byAge (words st.ram) (limit m) st.ramCnt) := by
  induction l with
  | nil =>
    refine ⟨?_, aged_byAge hst⟩
    exact (Nat.mod_eq_of_lt (by omega : st.ramCnt < limit m + 1)).symm
  | cons u l ih =>
    obtain ⟨hcnt, haged⟩ := ih fun v hv => hl v (List.mem_cons_of_mem _ hv)
    have hle : (stored inp st l).ramCnt ≤ limit m := by
      rw [hcnt]
      exact mod_succ_le _ _
    have hcons : stored inp st (u :: l) =
        (stored inp st l).write (limit m) (inp (u + 1)).dataIn := by
      unfold stored
      rw [List.foldr_cons, Store.take, hl u List.mem_cons_self, if_neg hm]
    rw [hcons]
    constructor
    · rw [ramCnt_write, nextTurn_eq_mod hle, hcnt, Nat.mod_add_mod, List.length_cons,
        Nat.add_assoc]
    · exact aged_write (limit_le m) hle haged _

theorem sumTo_stored (hm : m ≠ 0) (hst : st.ramCnt ≤ limit m) (hl : ∀ u ∈ l, modeAt inp u = m) :
    sumTo (stored inp st l).ram (limit m) =
      (((samples inp l ++ byAge (words st.ram) (limit m) st.ramCnt).take (limit m + 1)).eraseIdx
        ((st.ramCnt + l.length) % (limit m + 1))).sum := by
  obtain ⟨hcnt, haged⟩ := aged_stored hm hst hl
  rw [← hcnt]
  apply (haged.perm _).sum_eq
  rw [hcnt]
  exact mod_succ_le _ _

end OneMode

end Psc.Average
