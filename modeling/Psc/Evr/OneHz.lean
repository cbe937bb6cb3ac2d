import Psc.Lib.Clocked

/-!
# The 1 Hz range check

`evr_top.vhd`: the 1 Hz event of the timing link is synchronised to the system clock and its rising
edges are counted apart. An edge that comes between 0.95 and 1.5 seconds after the one before
resynchronises the 10 kHz generator.

The 32-bit counter runs on between the edges, and nothing holds it at its maximum: what is checked
is the distance modulo 2^32 (`onehzTrig_iff`). `resynchronises_iff`: the check is exact as long as
no distance comes into the range that way.
-/

namespace Psc.OneHz

open Clocked

/-- The registers: the synchroniser of the event, the counter, and the outputs `onehz_freq` and
`onehz_trig` of `evr_trigs`. None of them is reset. -/
structure State where
  onehzTrigSync0 : Bool
  onehzTrigSync1 : Bool
  onehzTrigSync2 : Bool
  onehzRateCnt : BitVec 32
  onehzFreq : BitVec 32
  onehzTrig : Bool

/-- The synchronised event rises. -/
def State.rising (s : State) : Bool := !s.onehzTrigSync2 && s.onehzTrigSync1

/-- The counter is in the range of a 1 Hz event. -/
def State.inRange (s : State) : Bool := 95000000 < s.onehzRateCnt && s.onehzRateCnt < 150000000

/-- One clock, at the level of the event channel. -/
def step (s : State) (onehzTrig : Bool) : State where
  onehzTrigSync0 := onehzTrig
  onehzTrigSync1 := s.onehzTrigSync0
  onehzTrigSync2 := s.onehzTrigSync1
  onehzRateCnt := if s.rising then 0 else s.onehzRateCnt + 1
  onehzFreq :=
    if s.rising then s.onehzRateCnt else if 200000000 < s.onehzRateCnt then 0 else s.onehzFreq
  onehzTrig := s.rising && s.inRange

/-- The distance of two edges, less one, of a genuine 1 Hz event. -/
def InRange (d : ℕ) : Prop := 95000000 < d ∧ d < 150000000

section Run

variable (s : State) (inp : ℕ → Bool)

/-- The synchronised event rises at clock `n`. -/
def edge (n : ℕ) : Bool := (run step s inp n).rising

/-- `evr_trigs.onehz_trig` at clock `n`. -/
def onehzTrig (n : ℕ) : Bool := (run step s inp n).onehzTrig

/-- The edge at clock `n` comes a second after the one before. -/
def Genuine (n : ℕ) : Prop := ∃ m, Consecutive (edge s inp) m n ∧ InRange (n - m - 1)

/-- After the edge at `m₀`, the trigger comes at the genuine edges only, and for one clock. -/
def Resynchronises (m₀ : ℕ) : Prop :=
  ∀ n, m₀ < n → (onehzTrig s inp (n + 1) = true ↔ Genuine s inp n) ∧
    (onehzTrig s inp (n + 1) = true → onehzTrig s inp (n + 2) = false)

variable {s inp}

theorem onehzTrig_succ (n : ℕ) :
    onehzTrig s inp (n + 1) = (edge s inp n && (run step s inp n).inRange) := rfl

theorem edge_add_three (n : ℕ) : edge s inp (n + 3) = (!inp n && inp (n + 1)) := rfl

theorem edge_succ_of_edge {n : ℕ} (h : edge s inp n = true) : edge s inp (n + 1) = false := by
  unfold edge State.rising at *
  rw [Bool.and_eq_true] at h
  rw [run_succ]
  simp [step, h.2]

theorem onehzTrig_succ_of_onehzTrig {n : ℕ} (h : onehzTrig s inp (n + 1) = true) :
    onehzTrig s inp (n + 2) = false := by
  rw [onehzTrig_succ, Bool.and_eq_true] at h
  rw [onehzTrig_succ, edge_succ_of_edge h.1, Bool.false_and]

theorem toNat_onehzRateCnt_run {m n : ℕ} (h : Consecutive (edge s inp) m n) :
    (run step s inp n).onehzRateCnt.toNat = (n - m - 1) % 2 ^ 32 := by
  obtain ⟨hmn, hm, -, hnone⟩ := h
  have hcnt : (run step s inp n).onehzRateCnt = BitVec.ofNat 32 (n - m - 1) :=
    @counter_since (edge s inp) 32 (fun k => (run step s inp k).onehzRateCnt) (fun _ => rfl) m n hmn
      hm hnone
  rw [hcnt, BitVec.toNat_ofNat]

/-- **The check** is made on the distance modulo 2^32. -/
theorem onehzTrig_iff {m n : ℕ} (h : Consecutive (edge s inp) m n) :
    onehzTrig s inp (n + 1) = true ↔ InRange ((n - m - 1) % 2 ^ 32) := by
  rw [onehzTrig_succ, h.2.2.1, Bool.true_and, State.inRange, Bool.and_eq_true, decide_eq_true_eq,
    decide_eq_true_eq, BitVec.lt_def, BitVec.lt_def, toNat_onehzRateCnt_run h]
  rfl

theorem onehzTrig_iff_of_lt {m n : ℕ} (h : Consecutive (edge s inp) m n)
    (hlt : n - m - 1 < 2 ^ 32) : onehzTrig s inp (n + 1) = true ↔ InRange (n - m - 1) := by
  rw [onehzTrig_iff h, Nat.mod_eq_of_lt hlt]

theorem InRange.lt {d : ℕ} (h : InRange d) : d < 2 ^ 32 :=
  h.2.trans (by norm_num)

theorem onehzTrig_of_genuine {n : ℕ} (h : Genuine s inp n) : onehzTrig s inp (n + 1) = true := by
  obtain ⟨m, hmn, hrange⟩ := h
  exact (onehzTrig_iff_of_lt hmn hrange.lt).mpr hrange

/-- **The 1 Hz event resynchronises the generator** at the genuine edges alone if and only if no
distance of 2^32 clocks or more is one of a genuine event modulo 2^32. -/
theorem resynchronises_iff {m₀ : ℕ} (h₀ : edge s inp m₀ = true) :
    Resynchronises s inp m₀ ↔ ∀ m n, m₀ ≤ m → Consecutive (edge s inp) m n →
      ¬(2 ^ 32 ≤ n - m - 1 ∧ InRange ((n - m - 1) % 2 ^ 32)) := by
  constructor
  · rintro hall m n h0m hmn ⟨hlong, hrange⟩
    have h0n : m₀ < n := h0m.trans_lt hmn.1
    obtain ⟨m', hmn', hrange'⟩ := (hall n h0n).1.mp ((onehzTrig_iff hmn).mpr hrange)
    have heq : m = m' := hmn.left_unique hmn'
    rw [← heq] at hrange'
    exact absurd hrange'.lt (Nat.not_lt.mpr hlong)
  · intro hnone n h0n
    refine ⟨⟨fun htrig => ?_, onehzTrig_of_genuine⟩, onehzTrig_succ_of_onehzTrig⟩
    have hedge : edge s inp n = true := by
      rw [onehzTrig_succ, Bool.and_eq_true] at htrig
      exact htrig.1
    obtain ⟨m, h0m, hlt, hm, hquiet⟩ := exists_last_tick h₀ h0n
    have hmn : Consecutive (edge s inp) m n := ⟨hlt, hm, hedge, hquiet⟩
    have hshort : n - m - 1 < 2 ^ 32 := by
      by_contra hlong
      exact hnone m n h0m hmn ⟨Nat.not_lt.mp hlong, (onehzTrig_iff hmn).mp htrig⟩
    exact ⟨m, hmn, (onehzTrig_iff_of_lt hmn hshort).mp htrig⟩

end Run

/-! ## Two events -/

/-- The registers at power-up. -/
def cleared : State := ⟨false, false, false, 0, 0, false⟩

/-- Two events, `gap` clocks apart. -/
def twoEvents (gap n : ℕ) : Bool := n == 1 || n == gap + 1

section TwoEvents

variable {gap : ℕ} (hgap : 1 < gap)

include hgap

theorem edge_twoEvents_iff (n : ℕ) :
    edge cleared (twoEvents gap) n = true ↔ n = 3 ∨ n = gap + 3 := by
  match n with
  | 0 => simp [edge, cleared, State.rising]
  | 1 => simp [edge, run, step, cleared, State.rising]
  | 2 => simp [edge, run, step, cleared, State.rising, twoEvents]
  | n + 3 =>
    rw [edge_add_three]
    simp [twoEvents]
    omega

theorem consecutive_twoEvents_iff (m n : ℕ) :
    Consecutive (edge cleared (twoEvents gap)) m n ↔ m = 3 ∧ n = gap + 3 := by
  constructor
  · rintro ⟨hlt, hm, hn, -⟩
    rw [edge_twoEvents_iff hgap] at hm hn
    omega
  · rintro ⟨rfl, rfl⟩
    refine ⟨by omega, (edge_twoEvents_iff hgap 3).mpr (.inl rfl),
      (edge_twoEvents_iff hgap _).mpr (.inr rfl), fun u h1 h2 => ?_⟩
    rw [← Bool.not_eq_true, edge_twoEvents_iff hgap]
    omega

end TwoEvents

/-- Two events one second apart resynchronise the generator once. -/
theorem second_apart_resynchronises : Resynchronises cleared (twoEvents 100000000) 3 := by
  have hgap : 1 < 100000000 := by norm_num
  refine (resynchronises_iff ((edge_twoEvents_iff hgap 3).mpr (.inl rfl))).mpr ?_
  intro m n _ hmn
  rw [consecutive_twoEvents_iff hgap] at hmn
  omega

/-- An event 2^32 + 100000002 clocks after the one before, 44 seconds later, is taken for a genuine
one. -/
theorem late_event_resynchronises : edge cleared (twoEvents 4394967298) 3 = true ∧
    ¬Resynchronises cleared (twoEvents 4394967298) 3 := by
  have hgap : 1 < 4394967298 := by norm_num
  refine ⟨(edge_twoEvents_iff hgap 3).mpr (.inl rfl), fun hall => ?_⟩
  have hmn : Consecutive (edge cleared (twoEvents 4394967298)) 3 (4394967298 + 3) :=
    (consecutive_twoEvents_iff hgap 3 _).mpr ⟨rfl, rfl⟩
  have htrig : onehzTrig cleared (twoEvents 4394967298) (4394967298 + 3 + 1) = true :=
    (onehzTrig_iff hmn).mpr (by unfold InRange; omega)
  obtain ⟨m, hmn', hrange⟩ := (hall _ (by omega)).1.mp htrig
  rw [← hmn.left_unique hmn'] at hrange
  unfold InRange at hrange
  omega

end Psc.OneHz
