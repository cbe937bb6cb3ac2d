import Psc.Lib.Clocked

/-!
# Counters that trip at a limit

A trip counter counts the consecutive ticks at which a condition holds and raises its live bit at
the tick that finds the count *equal* to the limit in force. Between ticks nothing moves; a tick
without the condition clears both.

The limit may change at any clock. `live_of_heldFor`: as long as no tick finds the count past the
limit, the bit is up after any tick that ends `lim + 1` ticks of the condition.
`exists_heldFor_of_live`: from a cleared counter nothing less is enough, also if it is taken down
in between.
-/

namespace TripCounter

open Clocked

/-- A counter and its live bit. -/
structure State where
  count : ℕ
  live : Bool
  deriving DecidableEq

/-- One tick of a counter that wraps at `M`. -/
def step (M lim : ℕ) (trip : Bool) (s : State) : State :=
  if trip then
    if s.count = lim then { s with live := true } else { s with count := (s.count + 1) % M }
  else ⟨0, false⟩

/-- `c` follows the condition `trip` and the limits `lim` at the ticks `tick`. -/
def Follows (M : ℕ) (tick trip : ℕ → Bool) (lim : ℕ → ℕ) (c : ℕ → State) : Prop :=
  ∀ n, c (n + 1) = if tick n then step M (lim n) (trip n) (c n) else c n

/-- `c` follows the condition at the ticks; between them it keeps its count or loses it, and its bit
can only be taken down. -/
def Falls (M : ℕ) (tick trip : ℕ → Bool) (lim : ℕ → ℕ) (c : ℕ → State) : Prop :=
  ∀ n, (tick n = true → c (n + 1) = step M (lim n) (trip n) (c n)) ∧
    (tick n = false → ((c (n + 1)).count = (c n).count ∨ (c (n + 1)).count = 0) ∧
      ((c (n + 1)).live = true → (c n).live = true))

namespace Falls

variable {M : ℕ} {tick trip : ℕ → Bool} {lim : ℕ → ℕ} {c : ℕ → State}
  (hc : Falls M tick trip lim c)

include hc

/-- A count that starts at zero, or past every limit, is past every limit or within the streak. -/
theorem past_or_le_streak (hM : ∀ n, (c n).count < M)
    (h0 : (c 0).count = 0 ∨ ∀ m, lim m < (c 0).count) :
    ∀ n, (∀ m, lim m < (c n).count) ∨ (c n).count ≤ streak tick trip n := by
  intro n
  induction n with
  | zero =>
    rcases h0 with h0 | h0
    · exact Or.inr (by rw [h0]; exact Nat.zero_le _)
    · exact Or.inl h0
  | succ n ih =>
    cases ht : tick n with
    | false =>
      rw [streak_succ_of_not_tick ht]
      rcases ((hc n).2 ht).1 with hkept | hlost
      · rw [hkept]; exact ih
      · exact Or.inr (by rw [hlost]; exact Nat.zero_le _)
    | true =>
      rw [(hc n).1 ht, step]
      cases hp : trip n with
      | false => exact Or.inr (Nat.zero_le _)
      | true =>
        rw [streak_succ_of_held ht hp, if_pos rfl]
        rcases ih with hpast | hle
        · -- a count past the limits goes on, or wraps to zero
          rw [if_neg (hpast n).ne']
          show (∀ m, lim m < ((c n).count + 1) % M) ∨ ((c n).count + 1) % M ≤ _
          rcases Nat.lt_or_eq_of_le (Nat.succ_le_of_lt (hM n)) with hlt | heq
          · rw [Nat.mod_eq_of_lt hlt]
            exact Or.inl fun m => (hpast m).trans (Nat.lt_succ_self _)
          · rw [show (c n).count + 1 = M from heq, Nat.mod_self]
            exact Or.inr (Nat.zero_le _)
        · right
          split_ifs
          · exact Nat.le_succ_of_le hle
          · exact (Nat.mod_le _ _).trans (Nat.succ_le_succ hle)

/-- **Never too early.** A bit that is up came up at a tick that ends `lim + 1` ticks of the
condition. -/
theorem exists_heldFor_of_live (hM : ∀ n, (c n).count < M) (hdown : (c 0).live = false)
    (h0 : (c 0).count = 0 ∨ ∀ m, lim m < (c 0).count) {n : ℕ} (hl : (c n).live = true) :
    ∃ m < n, tick m = true ∧ HeldFor tick trip (lim m + 1) (m + 1) := by
  induction n with
  | zero => rw [hdown] at hl; exact Bool.noConfusion hl
  | succ n ih =>
    by_cases hprev : (c n).live = true
    · obtain ⟨m, hm, h⟩ := ih hprev
      exact ⟨m, by omega, h⟩
    · -- the bit comes up at the tick `n`, which finds the count at the limit
      cases ht : tick n with
      | false => exact absurd (((hc n).2 ht).2 hl) hprev
      | true =>
        rw [(hc n).1 ht, step] at hl
        split_ifs at hl with hp he
        · refine ⟨n, Nat.lt_succ_self n, ht, ?_⟩
          rw [heldFor_iff_le_streak, streak_succ_of_held ht hp, ← he]
          rcases hc.past_or_le_streak hM h0 n with hpast | hle
          · exact absurd he (hpast n).ne'
          · exact Nat.succ_le_succ hle
        · exact absurd hl hprev

end Falls

section Follows

variable {M : ℕ} {tick trip : ℕ → Bool} {lim : ℕ → ℕ} {c : ℕ → State}
  (hc : Follows M tick trip lim c)

include hc

theorem succ_of_not_tick {n : ℕ} (ht : tick n = false) : c (n + 1) = c n := by
  rw [hc, if_neg (by simp [ht])]

theorem succ_of_not_trip {n : ℕ} (ht : tick n = true) (hp : trip n = false) :
    c (n + 1) = ⟨0, false⟩ := by
  rw [hc, if_pos ht, step, if_neg (by simp [hp])]

theorem succ_of_eq {n : ℕ} (ht : tick n = true) (hp : trip n = true)
    (he : (c n).count = lim n) : c (n + 1) = { c n with live := true } := by
  rw [hc, if_pos ht, step, if_pos hp, if_pos he]

theorem succ_of_ne {n : ℕ} (ht : tick n = true) (hp : trip n = true)
    (he : (c n).count ≠ lim n) :
    c (n + 1) = { c n with count := ((c n).count + 1) % M } := by
  rw [hc, if_pos ht, step, if_pos hp, if_neg he]

theorem live_succ {n : ℕ} (ht : tick n = true) (hp : trip n = true)
    (hl : (c n).live = true) : (c (n + 1)).live = true := by
  by_cases he : (c n).count = lim n
  · rw [succ_of_eq hc ht hp he]
  · rw [succ_of_ne hc ht hp he]; exact hl

theorem not_live_succ {n : ℕ} (ht : tick n = true) (hp : trip n = true)
    (hl : (c n).live = false) (he : (c n).count ≠ lim n) : (c (n + 1)).live = false := by
  rw [succ_of_ne hc ht hp he]; exact hl

/-- While no tick finds the count past the limit, an idle counter has counted the whole streak. -/
theorem live_or_streak_le (hM : ∀ n, lim n < M)
    (hle : ∀ n, tick n = true → trip n = true → (c n).live = false → (c n).count ≤ lim n) :
    ∀ n, (c n).live = true ∨ streak tick trip n ≤ (c n).count := by
  intro n
  induction n with
  | zero => exact Or.inr (by rw [streak_zero]; exact Nat.zero_le _)
  | succ n ih =>
    cases ht : tick n with
    | false => rw [succ_of_not_tick hc ht, streak_succ_of_not_tick ht]; exact ih
    | true =>
      cases hp : trip n with
      | false => exact Or.inr (by rw [streak_succ_of_not_held ht hp]; exact Nat.zero_le _)
      | true =>
        cases hl : (c n).live with
        | true => exact Or.inl (live_succ hc ht hp hl)
        | false =>
          have hstreak : streak tick trip n ≤ (c n).count := by simpa [hl] using ih
          have hcount := hle n ht hp hl
          by_cases he : (c n).count = lim n
          · exact Or.inl (by rw [succ_of_eq hc ht hp he])
          · right
            have hlt : (c n).count + 1 < M := by have := hM n; omega
            rw [succ_of_ne hc ht hp he, streak_succ_of_held ht hp, Nat.mod_eq_of_lt hlt]
            exact Nat.succ_le_succ hstreak

/-- **Trips on time.** If no tick finds the count past the limit, the bit is up after every tick
that ends `lim + 1` ticks of the condition. -/
theorem live_of_heldFor (hM : ∀ n, lim n < M)
    (hle : ∀ n, tick n = true → trip n = true → (c n).live = false → (c n).count ≤ lim n)
    {n : ℕ} (ht : tick n = true) (hheld : HeldFor tick trip (lim n + 1) (n + 1)) :
    (c (n + 1)).live = true := by
  have hp : trip n = true := hheld.latest ht
  rw [heldFor_iff_le_streak, streak_succ_of_held ht hp] at hheld
  cases hl : (c n).live with
  | true => exact live_succ hc ht hp hl
  | false =>
    have hstreak : streak tick trip n ≤ (c n).count := by
      simpa [hl] using live_or_streak_le hc hM hle n
    have hcount := hle n ht hp hl
    rw [succ_of_eq hc ht hp (by omega)]

theorem count_le_streak (h0 : (c 0).count = 0) :
    ∀ n, (c n).count ≤ streak tick trip n := by
  intro n
  induction n with
  | zero => rw [h0]; exact Nat.zero_le _
  | succ n ih =>
    cases ht : tick n with
    | false => rw [succ_of_not_tick hc ht, streak_succ_of_not_tick ht]; exact ih
    | true =>
      cases hp : trip n with
      | false => rw [succ_of_not_trip hc ht hp]; exact Nat.zero_le _
      | true =>
        rw [streak_succ_of_held ht hp]
        by_cases he : (c n).count = lim n
        · rw [succ_of_eq hc ht hp he]; exact Nat.le_succ_of_le ih
        · rw [succ_of_ne hc ht hp he]
          exact (Nat.mod_le _ _).trans (Nat.succ_le_succ ih)

theorem count_le_of_live (h0 : (c 0).count = 0)
    (hlive : ∀ n, tick n = true → HeldFor tick trip (lim n + 1) (n + 1) →
      (c (n + 1)).live = true)
    {n : ℕ} (ht : tick n = true) (hp : trip n = true) (hl : (c n).live = false) :
    (c n).count ≤ lim n := by
  by_contra hgt
  have hstreak := count_le_streak hc h0 n
  have hheld : HeldFor tick trip (lim n + 1) (n + 1) := by
    rw [heldFor_iff_le_streak, streak_succ_of_held ht hp]; omega
  have hup := hlive n ht hheld
  rw [not_live_succ hc ht hp hl (by omega)] at hup
  exact Bool.noConfusion hup

theorem count_le_lim (h0 : (c 0).count ≤ lim 0) (hlim : ∀ n, lim n ≤ lim (n + 1)) :
    ∀ n, (c n).count ≤ lim n := by
  intro n
  induction n with
  | zero => exact h0
  | succ n ih =>
    refine le_trans ?_ (hlim n)
    cases ht : tick n with
    | false => rw [succ_of_not_tick hc ht]; exact ih
    | true =>
      cases hp : trip n with
      | false => rw [succ_of_not_trip hc ht hp]; exact Nat.zero_le _
      | true =>
        by_cases he : (c n).count = lim n
        · rw [succ_of_eq hc ht hp he]; exact ih
        · rw [succ_of_ne hc ht hp he]
          exact (Nat.mod_le _ _).trans (by omega)

theorem live_succ_iff {n : ℕ} (ht : tick n = true) (hp : trip n = true)
    (hl : (c n).live = false) : (c (n + 1)).live = true ↔ (c n).count = lim n := by
  by_cases he : (c n).count = lim n
  · rw [succ_of_eq hc ht hp he]
    exact ⟨fun _ => he, fun _ => rfl⟩
  · rw [not_live_succ hc ht hp hl he]
    exact ⟨fun h => Bool.noConfusion h, fun h => absurd h he⟩

/-- While the condition holds, an idle counter counts the ticks. -/
theorem count_of_not_live (hp : ∀ n, trip n = true) (hM : (c 0).count < M) {n : ℕ}
    (hl : (c n).live = false) : (c n).count = ((c 0).count + tickCount tick n) % M := by
  induction n with
  | zero => rw [tickCount_zero, Nat.add_zero, Nat.mod_eq_of_lt hM]
  | succ n ih =>
    cases ht : tick n with
    | false =>
      rw [succ_of_not_tick hc ht] at hl ⊢
      rw [tickCount_succ_of_not_tick ht, ih hl]
    | true =>
      have hprev : (c n).live = false := by
        rw [← Bool.not_eq_true]
        intro hup
        rw [live_succ hc ht (hp n) hup] at hl
        exact Bool.noConfusion hl
      have hne : (c n).count ≠ lim n := by
        intro he
        rw [(live_succ_iff hc ht (hp n) hprev).mpr he] at hl
        exact Bool.noConfusion hl
      rw [succ_of_ne hc ht (hp n) hne, tickCount_succ_of_tick ht]
      show ((c n).count + 1) % M = _
      rw [ih hprev, Nat.mod_add_mod, Nat.add_assoc]

/-- A cleared counter whose condition holds at every tick trips at the tick number `L + 1`. -/
theorem live_iff_le_tickCount {L : ℕ} (hp : ∀ n, trip n = true) (hlim : ∀ n, lim n = L)
    (hL : L < M) (h0 : c 0 = ⟨0, false⟩) (n : ℕ) :
    (c n).live = true ↔ L + 1 ≤ tickCount tick n := by
  induction n with
  | zero => rw [h0, tickCount_zero]; simp
  | succ n ih =>
    cases ht : tick n with
    | false => rw [succ_of_not_tick hc ht, tickCount_succ_of_not_tick ht]; exact ih
    | true =>
      rw [tickCount_succ_of_tick ht]
      cases hl : (c n).live with
      | true =>
        have hle := ih.mp hl
        exact ⟨fun _ => by omega, fun _ => live_succ hc ht (hp n) hl⟩
      | false =>
        have hgt : tickCount tick n ≤ L := by
          by_contra hlt
          exact absurd (ih.mpr (by omega)) (by simp [hl])
        have hcount := count_of_not_live hc hp (by rw [h0]; show 0 < M; omega) hl
        rw [h0, Nat.zero_add, Nat.mod_eq_of_lt (by omega)] at hcount
        rw [live_succ_iff hc ht (hp n) hl, hlim, hcount]
        omega

end Follows

/-! ## Two counters -/

section TwoCounters

variable {M L : ℕ} {tick : ℕ → Bool} {c c' : ℕ → State}

/-- A counter whose condition holds for ever reaches its limit. -/
theorem exists_trip (hc : Follows M tick (fun _ => true) (fun _ => L) c) (hL : L < M)
    (hlive : ∀ n, ∃ u, n ≤ u ∧ tick u = true) (h0 : (c 0).live = false)
    (hM : (c 0).count < M) :
    ∃ n, tick n = true ∧ (c n).live = false ∧ (c (n + 1)).live = true := by
  obtain ⟨u, hu, htu⟩ := exists_tickCount_eq hlive (L + (M - (c 0).count))
  by_contra hnone
  push Not at hnone
  have hdown : ∀ n, (c n).live = false := by
    intro n
    induction n with
    | zero => exact h0
    | succ n ih =>
      cases ht : tick n with
      | true => simpa using hnone n ht ih
      | false => rw [succ_of_not_tick hc ht]; exact ih
  -- after so many ticks the count stands at the limit
  have hcount := count_of_not_live hc (fun _ => rfl) hM (hdown u)
  rw [hu, show (c 0).count + (L + (M - (c 0).count)) = L + M by omega, Nat.add_mod_right,
    Nat.mod_eq_of_lt hL] at hcount
  exact hnone u htu (hdown u) ((live_succ_iff hc htu rfl (hdown u)).mpr hcount)

theorem count_eq_of_live_eq (hc : Follows M tick (fun _ => true) (fun _ => L) c)
    (hc' : Follows M tick (fun _ => true) (fun _ => L) c') (hL : L < M)
    (hlive : ∀ n, ∃ u, n ≤ u ∧ tick u = true) (h0 : (c 0).live = false)
    (hM : (c 0).count < M) (hM' : (c' 0).count < M) (heq : ∀ n, (c n).live = (c' n).live) :
    (c 0).count = (c' 0).count := by
  obtain ⟨n, ht, hdown, hup⟩ := exists_trip hc hL hlive h0 hM
  have hdown' : (c' n).live = false := by rw [← heq]; exact hdown
  have hup' : (c' (n + 1)).live = true := by rw [← heq]; exact hup
  have h1 := (live_succ_iff hc ht rfl hdown).mp hup
  have h2 := (live_succ_iff hc' ht rfl hdown').mp hup'
  rw [count_of_not_live hc (fun _ => rfl) hM hdown] at h1
  rw [count_of_not_live hc' (fun _ => rfl) hM' hdown'] at h2
  have hmod : (c 0).count ≡ (c' 0).count [MOD M] :=
    Nat.ModEq.add_right_cancel' (tickCount tick n) (h1.trans h2.symm)
  rwa [Nat.ModEq, Nat.mod_eq_of_lt hM, Nat.mod_eq_of_lt hM'] at hmod

end TwoCounters

end TripCounter
