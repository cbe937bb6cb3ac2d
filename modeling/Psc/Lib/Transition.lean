import Mathlib.Tactic

/-!
# Guarded runs

A system of several parties is a partial step function on its states: an action names the party and
what the environment does, and is possible in a state or not. `Reach step cond init` are the states
of the runs whose steps all meet a condition, and `Reach.invariant` is the rule for them.
-/

namespace Transition

variable {σ α : Type*} {step : σ → α → Option σ} {cond : σ → α → Prop} {init : σ → Prop}

/-- The states of the runs from a state in `init` each of whose steps meets `cond` where it is
taken. -/
inductive Reach (step : σ → α → Option σ) (cond : σ → α → Prop) (init : σ → Prop) : σ → Prop
  | start {s : σ} (hs : init s) : Reach step cond init s
  | next {s s' : σ} (a : α) (hs : Reach step cond init s) (ha : cond s a)
      (hstep : step s a = some s') : Reach step cond init s'

/-- What holds at the start and is preserved by each step that meets the condition holds
throughout. -/
theorem Reach.invariant {I : σ → Prop} {s : σ} (h : Reach step cond init s)
    (hinit : ∀ s, init s → I s)
    (hstep : ∀ s a s', I s → cond s a → step s a = some s' → I s') : I s := by
  induction h with
  | start hs => exact hinit _ hs
  | next a _ ha hs' ih => exact hstep _ a _ ih ha hs'

/-- A run from one state to another, each of whose steps meets `cond` where it is taken. -/
inductive Run (step : σ → α → Option σ) (cond : σ → α → Prop) : σ → List α → σ → Prop
  | nil (s : σ) : Run step cond s [] s
  | cons {s s₁ s' : σ} {a : α} {as : List α} (ha : cond s a) (hstep : step s a = some s₁)
      (h : Run step cond s₁ as s') : Run step cond s (a :: as) s'

/-- The state after a list of actions, if each of them is possible. -/
def runs (step : σ → α → Option σ) (s : σ) : List α → Option σ
  | [] => some s
  | a :: as => (step s a).bind fun s' => runs step s' as

theorem reach_of_runs {s s' : σ} (hs : Reach step cond init s) {as : List α}
    (hcond : ∀ a ∈ as, ∀ s, cond s a) (h : runs step s as = some s') : Reach step cond init s' := by
  induction as generalizing s with
  | nil => exact Option.some.inj h ▸ hs
  | cons a as ih =>
    obtain ⟨s₁, hstep, hrest⟩ := Option.bind_eq_some_iff.mp h
    have hs₁ : Reach step cond init s₁ := .next a hs (hcond a (by simp) s) hstep
    exact ih hs₁ (fun b hb => hcond b (by simp [hb])) hrest

end Transition
