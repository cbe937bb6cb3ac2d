import Mathlib.Tactic

/-!
# Fixed-latency cores

A core that samples its operand on some clocks, shows the result a fixed number of clocks later
and holds it until the next one. `stages` are the results under way, newest first; a clock without
a sample puts `none` into the line.

`settled` is the newest result of all, under way or shown. Where each sample finds the line empty
(`Spaced`), what a sampling clock reads is the result of the sample before (`Spaced.out_eq`).
-/

/-- The results under way in a core of latency `stages.length + 1`, and the one shown. -/
structure DelayLine (α : Type*) where
  stages : List (Option α)
  out : α

namespace DelayLine

variable {α : Type*} (l : DelayLine α)

/-- One clock, with the result of the operand sampled in it, if any. -/
def step (x : Option α) : DelayLine α where
  stages := (x :: l.stages).dropLast
  out := ((x :: l.stages).getLast (List.cons_ne_nil _ _)).getD l.out

/-- The newest result, shown or under way. -/
def settled : α := (l.stages.findSome? id).getD l.out

/-- Each sample of the ticks `tick` from now on finds the line empty: it comes later than the
latency after the previous one, whether that one is still to come or already under way. -/
structure Spaced (tick : ℕ → Bool) : Prop where
  ahead : ∀ t u, t < u → tick t = true → tick u = true → t + l.stages.length < u
  underWay : ∀ i a, l.stages[i]? = some (some a) → ∀ u, tick u = true → l.stages.length ≤ u + i

variable {l}

@[simp] theorem length_stages_step (x : Option α) :
    (l.step x).stages.length = l.stages.length := by
  simp [step]

theorem getElem?_stages_step (x : Option α) (i : ℕ) (hi : i < l.stages.length) :
    (l.step x).stages[i]? = (x :: l.stages)[i]? := by
  simp [step, hi]

theorem settled_step (x : Option α) : (l.step x).settled = x.getD l.settled := by
  unfold settled step
  obtain ⟨stages, out⟩ := l
  rcases List.eq_nil_or_concat stages with rfl | ⟨init, last, rfl⟩
  · simp
  · cases x with
    | none =>
      simp only [List.concat_eq_append, ← List.cons_append, List.dropLast_concat,
        List.getLast_append_singleton, List.findSome?_append, List.findSome?_cons, id_eq,
        Option.getD_none, List.findSome?_nil]
      cases List.findSome? id init with
      | none => cases last <;> rfl
      | some a => rfl
    | some a =>
      simp only [List.concat_eq_append, ← List.cons_append, List.dropLast_concat,
        List.findSome?_cons, id_eq, Option.getD_some]

theorem out_eq_settled (h : ∀ x ∈ l.stages, x = none) : l.out = l.settled := by
  have hnone : l.stages.findSome? id = none := List.findSome?_eq_none_iff.mpr h
  unfold settled
  rw [hnone, Option.getD_none]

/-- A sampling clock reads the result of the sample before. -/
theorem Spaced.out_eq {tick : ℕ → Bool} (h : l.Spaced tick) (h0 : tick 0 = true) :
    l.out = l.settled := by
  apply out_eq_settled
  intro x hx
  obtain ⟨i, hi, rfl⟩ := List.mem_iff_getElem.mp hx
  cases hxi : l.stages[i] with
  | none => rfl
  | some a =>
    have := h.underWay i a (by rw [List.getElem?_eq_getElem hi, hxi]) 0 h0
    omega

theorem Spaced.step {tick : ℕ → Bool} (h : l.Spaced tick) (x : Option α)
    (hx : x.isSome = true → tick 0 = true) : (l.step x).Spaced fun n => tick (n + 1) where
  ahead t u htu ht hu := by
    have := h.ahead (t + 1) (u + 1) (by omega) ht hu
    rw [length_stages_step]; omega
  underWay i a hi u hu := by
    rw [length_stages_step]
    by_cases hlt : i < l.stages.length
    · rw [getElem?_stages_step x i hlt] at hi
      cases i with
      | zero =>
        have h0 : tick 0 = true := hx (by simp_all)
        have := h.ahead 0 (u + 1) (by omega) h0 hu
        omega
      | succ i =>
        have := h.underWay i a (by simpa using hi) (u + 1) hu
        omega
    · omega

end DelayLine
