import Psc.Adc.Average

/-!
# The average over changes of mode

`AVE_MODE_MSG` sets the mode of `average.vhd` at any time, and with it the limits at which the two
counters wrap. The read index starts at zero each time and reaches its limit. The write index keeps
its place, and wraps only when it is *at* the limit.

`survives_modes_iff`: the indices are in range as long as no start finds the write index at 500 or
past it, and not at its limit, which is a matter of the modes alone (`ModesFit`); and a run of
starts in one mode comes to average again if its first start finds the index at most at the limit.
From mode 10 the index can be left at 500 (`index_500_used`).
-/

namespace Psc.Average

open Clocked RingLog

/-- A run over changes of mode: from the reset at clock `r` on the starts are more than 504 clocks
apart. -/
structure Spaced (inp : ℕ → Input) (r : ℕ) : Prop where
  reset : (inp r).reset = true
  running : ∀ n, r < n → (inp n).reset = false
  apart : ∀ t u, starts inp r t = true → starts inp r u = true → t < u → t + 504 < u

section Modes

variable {inp : ℕ → Input} {r n t : ℕ}

theorem Spaced.paced (h : Spaced inp r) : Paced inp r where
  reset := h.reset
  running := h.running
  apart t u ht hu htu := by
    have hlt := h.apart t u ht hu htu
    have hspan := span_le (modeAt inp t)
    omega

theorem writeToRam_step {s : State} {i : Input} (h : (step s i).state = .writeToRam) :
    s.state = .idle ∧ i.start = true ∧ ∃ m, s.mode = some m ∧ m ≠ 0 ∧
      (step s i).addrMax = limit m ∧ (step s i).ramCnt = s.ramCnt := by
  have hdoes := does_step s i
  generalize step s i = s' at *
  cases hdoes with
  | begin m hstate hstart hmode hm => exact ⟨hstate, hstart, m, hmode, hm, rfl, rfl⟩
  | wait hstate => exact Phase.noConfusion (hstate.symm.trans h)
  | add hstate => exact Phase.noConfusion (hstate.symm.trans h)
  | reset => exact Phase.noConfusion h
  | raw => exact Phase.noConfusion h
  | write => exact Phase.noConfusion h
  | last => exact Phase.noConfusion h
  | finish => exact Phase.noConfusion h

theorem Paced.writes (h : Paced inp r) (ht : starts inp r t = true) (hm : modeAt inp t ≠ 0) :
    (regs inp (t + 1)).state = .writeToRam ∧ (regs inp (t + 1)).addrMax = limit (modeAt inp t) ∧
      (regs inp (t + 1)).ramCnt = (regs inp t).ramCnt := by
  rw [regs_add, run_begin (h.begins ht (h.at_start ht).1) hm]
  exact ⟨rfl, rfl, rfl⟩

/-- A start that writes finds the index in the array, or at the limit. -/
def FindsRoom (inp : ℕ → Input) (t : ℕ) : Prop :=
  (regs inp t).ramCnt = limit (modeAt inp t) ∨ (regs inp t).ramCnt < 500

/-- The read index is in range in any case. -/
theorem inRange_iff (h : Paced inp r) : (∀ n, r < n → InRange (regs inp n)) ↔
    ∀ t, starts inp r t = true → modeAt inp t ≠ 0 → FindsRoom inp t := by
  constructor
  · intro hrange t ht hm
    obtain ⟨hstate, hmax, hcnt⟩ := h.writes ht hm
    have hin := (hrange (t + 1) (by have := lt_of_starts ht; omega)).1 hstate
    rw [hmax, hcnt] at hin
    by_cases hfull : (regs inp t).ramCnt = limit (modeAt inp t)
    · exact Or.inl hfull
    · exact Or.inr (hin hfull)
  · intro hroom n hn
    have hinv := h.inv hn
    refine ⟨fun hstate hne => ?_, fun hstate hne => ?_⟩
    · obtain ⟨k, rfl⟩ := Nat.exists_eq_succ_of_ne_zero (by omega : n ≠ 0)
      rw [Nat.succ_eq_add_one, regs_succ] at hstate hne ⊢
      obtain ⟨-, hstart, m, hmode, hm, hmax, hcnt⟩ := writeToRam_step hstate
      have hrk : r < k := by
        rcases Nat.lt_or_eq_of_le (Nat.lt_succ_iff.mp hn) with hlt | rfl
        · exact hlt
        · rw [step_reset h.reset] at hstate
          exact Phase.noConfusion hstate
      have hk : starts inp r k = true := by simp [starts, hrk, hstart]
      have hm' : modeAt inp k = m := by
        have := (mode_regs (by omega : 0 < k)).symm.trans hmode
        exact Option.some_inj.mp this
      have hfind := hroom k hk (by rwa [hm'])
      rw [FindsRoom, hm'] at hfind
      rw [hcnt, hmax] at hne
      rw [hcnt]
      exact hfind.resolve_left hne
    · rw [Inv, hstate] at hinv
      omega

/-- The write index after starts in some modes, the latest first. -/
def indexAfter (c : ℕ) : List (BitVec 2) → ℕ
  | [] => c
  | m :: ms =>
    if m = 0 then indexAfter c ms
    else if indexAfter c ms = limit m then 0
    else indexAfter c ms + 1

theorem ramCnt_stored (st : Store) (l : List ℕ) :
    (stored inp st l).ramCnt = indexAfter st.ramCnt (l.map (modeAt inp)) := by
  induction l with
  | nil => rfl
  | cons u l ih =>
    change (Store.take (modeAt inp u) _ (stored inp st l)).ramCnt = _
    rw [List.map_cons, indexAfter, ← ih, Store.take, Store.write]
    split_ifs <;> rfl

/-- The modes of the starts before clock `t`, the latest first. -/
def modesBefore (inp : ℕ → Input) (r t : ℕ) : List (BitVec 2) :=
  (ticks (starts inp r) t).map (modeAt inp)

theorem Paced.ramCnt_eq (h : Paced inp r) (ht : starts inp r t = true) :
    (regs inp t).ramCnt = indexAfter (regs inp (r + 1)).ramCnt (modesBefore inp r t) := by
  rw [← ramCnt_store, (h.at_start ht).2, ramCnt_stored, ramCnt_store]
  rfl

/-- From the index `c` on, the modes leave each start that writes an index in the array, or at its
limit. -/
def ModesFit (inp : ℕ → Input) (r c : ℕ) : Prop :=
  ∀ t, starts inp r t = true → modeAt inp t ≠ 0 →
    indexAfter c (modesBefore inp r t) = limit (modeAt inp t) ∨
      indexAfter c (modesBefore inp r t) < 500

theorem modesFit_iff (h : Paced inp r) :
    (∀ t, starts inp r t = true → modeAt inp t ≠ 0 → FindsRoom inp t) ↔
      ModesFit inp r (regs inp (r + 1)).ramCnt := by
  refine forall₃_congr fun t ht _ => ?_
  rw [FindsRoom, h.ramCnt_eq ht]

theorem Paced.idle_after (h : Paced inp r) (ht : starts inp r t = true) :
    ∃ n, t < n ∧ n ≤ t + 504 ∧ (regs inp n).state = .idle := by
  have hrun := (run_span (h.begins ht (h.at_start ht).1)).1
  rw [← regs_add] at hrun
  have h1 := one_lt_span (modeAt inp t)
  have h2 := span_le (modeAt inp t)
  exact ⟨_, by omega, by omega, hrun⟩

/-- After enough starts in one mode, the first of which finds the index at most at the limit, the
output is the sum of all but one of the last `N + 1` samples. -/
theorem Paced.average_again (h : Paced inp r) {m : BitVec 2} (hm : m ≠ 0) {u : ℕ}
    (hu : starts inp r u = true) (ht : starts inp r t = true) (hut : u ≤ t)
    (hmode : ∀ v, starts inp r v = true → u ≤ v → v ≤ t → modeAt inp v = m)
    (hcount : tickCount (starts inp r) u + (limit m + 1) ≤ tickCount (starts inp r) (t + 1))
    (hcnt : (regs inp u).ramCnt ≤ limit m) :
    ∃ p ≤ limit m, (regs inp (t + (limit m + 4))).avgOut.toInt =
      (((samples inp (ticks (starts inp r) (t + 1))).take (limit m + 1)).eraseIdx p).sum := by
  obtain ⟨l, hl, hmem⟩ := @exists_ticks_append (starts inp r) (t + 1) u (by omega)
  have hlm : ∀ v ∈ l, modeAt inp v = m := by
    intro v hv
    obtain ⟨huv, hvt, hv⟩ := hmem v hv
    exact hmode v hv huv (by omega)
  have hlen : limit m + 1 ≤ l.length := by
    unfold tickCount at hcount
    rw [hl, List.length_append] at hcount
    omega
  have htm := hmode t ht hut le_rfl
  have hout := (h.average ht (by rwa [htm])).2.1
  have hstored : stored inp (regs inp (r + 1)).store (ticks (starts inp r) (t + 1)) =
      stored inp (regs inp u).store l := by
    rw [(h.at_start hu).2, hl]
    exact List.foldr_append
  rw [htm, hstored, sumTo_stored hm hcnt hlm] at hout
  refine ⟨((regs inp u).ramCnt + l.length) % (limit m + 1), mod_succ_le _ _, hout.trans ?_⟩
  have hlen' : limit m + 1 ≤ (samples inp l).length := by rwa [samples, List.length_map]
  have hsplit : samples inp (l ++ ticks (starts inp r) u) =
      samples inp l ++ samples inp (ticks (starts inp r) u) := List.map_append
  rw [hl, hsplit, List.take_append_of_le_length hlen', List.take_append_of_le_length hlen']
  rfl

end Modes

/-- **Changes of mode.** In a run with starts more than 504 clocks apart:

1. every index of the RAM is in range exactly if each start in a mode other than 00 finds the write
   index at the limit of the mode or below 500;
2. what they find is a matter of the modes alone, from the index at the reset on;
3. every start leads back to IDLE;
4. a start that ends `2 * N` starts in a mode, the first of which found the index at most at the
   limit, puts out the sum of `N` of the last `N + 1` samples. -/
theorem survives_modes_iff {inp : ℕ → Input} {r : ℕ} (h : Spaced inp r) :
    ((∀ n, r < n → InRange (regs inp n)) ↔
      ∀ t, starts inp r t = true → modeAt inp t ≠ 0 → FindsRoom inp t) ∧
    (((∀ n, r < n → InRange (regs inp n)) ↔ ModesFit inp r (regs inp (r + 1)).ramCnt) ∧
      ∀ t, starts inp r t = true →
        (regs inp t).ramCnt = indexAfter (regs inp (r + 1)).ramCnt (modesBefore inp r t)) ∧
    (∀ t, starts inp r t = true → ∃ n, t < n ∧ n ≤ t + 504 ∧ (regs inp n).state = .idle) ∧
    ∀ m u t, m ≠ 0 → starts inp r u = true → starts inp r t = true → u ≤ t →
      (∀ v, starts inp r v = true → u ≤ v → v ≤ t → modeAt inp v = m) →
      tickCount (starts inp r) u + 2 * limit m ≤ tickCount (starts inp r) (t + 1) →
      (regs inp u).ramCnt ≤ limit m →
      (regs inp (t + (limit m + 4))).done = true ∧
        ∃ p ≤ limit m, (regs inp (t + (limit m + 4))).avgOut.toInt =
          (((samples inp (ticks (starts inp r) (t + 1))).take (limit m + 1)).eraseIdx p).sum := by
  refine ⟨inRange_iff h.paced, ⟨(inRange_iff h.paced).trans (modesFit_iff h.paced), fun t ht =>
    h.paced.ramCnt_eq ht⟩, fun t ht => h.paced.idle_after ht, ?_⟩
  intro m u t hm hu ht hut hmode hcount hcnt
  have htm := hmode t ht hut le_rfl
  have hdone := (h.paced.average ht (by rwa [htm])).1
  rw [htm] at hdone
  have hpos := limit_pos m
  exact ⟨hdone, h.paced.average_again hm hu ht hut hmode (by omega) hcnt⟩

/-- A start every 505 clocks, with the same sample throughout. -/
def steadyRun (x : BitVec 20) (sel : ℕ → BitVec 2) (n : ℕ) : Input :=
  ⟨n == 0, n % 505 == 1, x, sel n⟩

section Steady

variable {x : BitVec 20} {sel : ℕ → BitVec 2}

theorem starts_steadyRun (n : ℕ) : starts (steadyRun x sel) 0 n = (n % 505 == 1) := by
  unfold starts steadyRun
  cases n with
  | zero => rfl
  | succ n => simp

theorem spaced_steadyRun : Spaced (steadyRun x sel) 0 where
  reset := rfl
  running n hn := by simp [steadyRun, hn.ne']
  apart t u ht hu htu := by
    rw [starts_steadyRun, beq_iff_eq] at ht hu
    omega

theorem tickCount_steadyRun (k : ℕ) :
    tickCount (starts (steadyRun x sel) 0) (505 * k + 1) = k := by
  induction k with
  | zero => exact tickCount_eq_zero fun m hm => by rw [starts_steadyRun]; interval_cases m; rfl
  | succ k ih =>
    have hstart : starts (steadyRun x sel) 0 (505 * k + 1) = true := by
      rw [starts_steadyRun, beq_iff_eq]
      omega
    have hnone : ∀ u, 505 * k + 2 ≤ u → u < 505 * (k + 1) + 1 →
        starts (steadyRun x sel) 0 u = false := by
      intro u hlo hhi
      rw [starts_steadyRun, beq_eq_false_iff_ne]
      omega
    unfold tickCount at ih ⊢
    rw [ticks_eq_of_none (by omega) hnone, ticks_succ_of_tick hstart, List.length_cons, ih]

end Steady

/-- Seven at each of 21 starts in mode 11: the output is seventy. -/
theorem seventy_again :
    (regs (steadyRun 7 fun _ => 3) (505 * 20 + 1 + (limit 3 + 4))).avgOut.toInt = 70 := by
  have hlast : starts (steadyRun 7 fun _ => 3) 0 (505 * 20 + 1) = true := starts_steadyRun _
  have hcount := @tickCount_steadyRun 7 (fun _ => 3) 20
  have hfirst : tickCount (starts (steadyRun 7 fun _ => 3) 0) 1 = 0 := by decide
  obtain ⟨-, p, hp, hout⟩ := (survives_modes_iff (@spaced_steadyRun 7 fun _ => 3)).2.2.2
    3 1 (505 * 20 + 1) (by decide) (by decide) hlast (by norm_num) (fun _ _ _ _ => rfl)
    (by rw [tickCount_succ_of_tick hlast, hcount, hfirst]; decide) (by decide)
  rw [hout]
  have hsamples : samples (steadyRun 7 fun _ => 3)
      (ticks (starts (steadyRun 7 fun _ => 3) 0) (505 * 20 + 1 + 1)) = List.replicate 21 7 := by
    unfold tickCount at hcount
    unfold samples
    rw [ticks_succ_of_tick hlast, List.map_cons, List.eq_replicate_iff]
    refine ⟨by rw [List.length_cons, List.length_map, hcount], ?_⟩
    intro b hb
    rcases List.mem_cons.mp hb with rfl | hb
    · rfl
    · obtain ⟨u, -, rfl⟩ := List.mem_map.mp hb
      rfl
  rw [hsamples]
  change p ≤ 10 at hp
  interval_cases p <;> rfl

/-- Five hundred starts in mode 10 leave the write index at 500; the next in mode 01 writes there.
-/
theorem index_500_used :
    let inp := steadyRun 7 fun n => if n < 505 * 500 then 2 else 1
    Spaced inp 0 ∧ (regs inp (505 * 500 + 2)).state = .writeToRam ∧
      (regs inp (505 * 500 + 2)).addrMax = 167 ∧ (regs inp (505 * 500 + 2)).ramCnt = 500 ∧
      ¬InRange (regs inp (505 * 500 + 2)) := by
  intro inp
  have h : Spaced inp 0 := spaced_steadyRun
  obtain ⟨t, ht⟩ : ∃ t, t = 505 * 500 + 1 := ⟨_, rfl⟩
  have hstart : starts inp 0 t = true := by
    rw [starts_steadyRun, ht]
    rfl
  have hmode : ∀ u ∈ ticks (starts inp 0) t, modeAt inp u = 2 := by
    intro u hu
    have hlt := lt_of_mem_ticks hu
    have hpos := lt_of_starts (tick_of_mem_ticks hu)
    exact if_pos (by omega)
  have hone : modeAt inp t = 1 := if_neg (by omega)
  have hcnt := (@aged_stored inp 2 (regs inp 1).store _ (by decide) (by decide) hmode).1
  have hlen : tickCount (starts inp 0) t = 500 := by rw [ht]; exact tickCount_steadyRun 500
  have hzero : (regs inp 1).store.ramCnt = 0 := rfl
  unfold tickCount at hlen
  rw [hlen, hzero, show (0 + 500) % (limit 2 + 1) = 500 from rfl] at hcnt
  have hfound : (regs inp t).ramCnt = 500 := by
    rw [← ramCnt_store, (h.paced.at_start hstart).2, hcnt]
  obtain ⟨hstate, hmax, hram⟩ := h.paced.writes hstart (by rw [hone]; decide)
  rw [hone] at hmax
  rw [hfound] at hram
  rw [show 505 * 500 + 2 = t + 1 by omega]
  refine ⟨h, hstate, hmax, hram, fun hin => ?_⟩
  have hlt := hin.1 hstate (by rw [hram, hmax]; decide)
  omega

end Psc.Average
