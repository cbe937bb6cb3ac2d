import Mathlib.Tactic

/-!
# Clocked machines

A synchronous machine is a step function on its registers, driven by one input per clock.
`run step s inp n` is the register state before clock `n`.

Much of a design acts only on some clocks, its *ticks*. `ticks` lists the ticks before a clock,
latest first, and `HeldFor P k n` says that `P` held at each of the last `k` of them; it is the
number of consecutive ticks at which `P` held (`streak`) that an induction follows
(`heldFor_iff_le_streak`). `tickCount` numbers the ticks, and `Consecutive` ones have none between
them.
-/

namespace Clocked

variable {σ ι : Type*}

/-! ## Runs -/

/-- The state before clock `n` of the run of `step` from `s` on the inputs `inp`. -/
def run (step : σ → ι → σ) (s : σ) (inp : ℕ → ι) : ℕ → σ
  | 0 => s
  | n + 1 => step (run step s inp n) (inp n)

section Run

variable (step : σ → ι → σ) (s : σ) (inp : ℕ → ι)

@[simp] theorem run_zero : run step s inp 0 = s := rfl

theorem run_succ (n : ℕ) : run step s inp (n + 1) = step (run step s inp n) (inp n) := rfl

theorem run_add (m n : ℕ) :
    run step s inp (m + n) = run step (run step s inp m) (fun k => inp (m + k)) n := by
  induction n with
  | zero => rfl
  | succ n ih => rw [← Nat.add_assoc, run_succ, run_succ, ih]

theorem run_congr {inp' : ℕ → ι} {n : ℕ} (h : ∀ m < n, inp m = inp' m) :
    run step s inp n = run step s inp' n := by
  induction n with
  | zero => rfl
  | succ n ih => rw [run_succ, run_succ, ih (fun m hm => h m (by omega)), h n (by omega)]

theorem run_map {σ' ι' : Type*} {step' : σ' → ι' → σ'} (f : σ → σ') (g : σ → ι → ι')
    (h : ∀ s i, f (step s i) = step' (f s) (g s i)) (n : ℕ) :
    f (run step s inp n) = run step' (f s) (fun n => g (run step s inp n) (inp n)) n := by
  induction n with
  | zero => rfl
  | succ n ih => rw [run_succ, run_succ, h, ih]

theorem run_counter {w : ℕ} (set : BitVec w → σ) (last : BitVec w)
    (hstep : ∀ n < last.toNat, ∀ c ≠ last, step (set c) (inp n) = set (c + 1)) {n : ℕ}
    (hn : n ≤ last.toNat) : run step (set 0) inp n = set (BitVec.ofNat w n) := by
  induction n with
  | zero => rfl
  | succ n ih =>
    have hne : BitVec.ofNat w n ≠ last := by
      rintro rfl
      rw [BitVec.toNat_ofNat] at hn
      exact absurd (Nat.mod_le n (2 ^ w)) (by omega)
    rw [run_succ, ih (by omega), hstep n (by omega) _ hne, BitVec.ofNat_add]
    rfl

end Run

/-! ## Ticks -/

/-- The ticks before clock `n`, latest first. -/
def ticks (tick : ℕ → Bool) : ℕ → List ℕ
  | 0 => []
  | n + 1 => if tick n then n :: ticks tick n else ticks tick n

/-- `P` held at each of the last `k` ticks before clock `n`. -/
def HeldFor (tick : ℕ → Bool) (P : ℕ → Bool) (k n : ℕ) : Prop :=
  k ≤ (ticks tick n).length ∧ ∀ m ∈ (ticks tick n).take k, P m = true

/-- The number of consecutive ticks, up to clock `n`, at which `P` held. -/
def streak (tick : ℕ → Bool) (P : ℕ → Bool) (n : ℕ) : ℕ := ((ticks tick n).takeWhile P).length

instance (tick P : ℕ → Bool) (k n : ℕ) : Decidable (HeldFor tick P k n) :=
  inferInstanceAs (Decidable (_ ∧ _))

section Ticks

variable {tick P : ℕ → Bool} {n : ℕ}

theorem ticks_succ_of_tick (h : tick n = true) : ticks tick (n + 1) = n :: ticks tick n := by
  rw [ticks, if_pos h]

theorem ticks_succ_of_not_tick (h : tick n = false) : ticks tick (n + 1) = ticks tick n := by
  rw [ticks, if_neg (by simp [h])]

@[simp] theorem streak_zero : streak tick P 0 = 0 := rfl

theorem streak_succ_of_not_tick (h : tick n = false) :
    streak tick P (n + 1) = streak tick P n := by
  unfold streak; rw [ticks_succ_of_not_tick h]

theorem streak_succ_of_held (h : tick n = true) (hP : P n = true) :
    streak tick P (n + 1) = streak tick P n + 1 := by
  unfold streak; rw [ticks_succ_of_tick h, List.takeWhile_cons_of_pos hP, List.length_cons]

theorem streak_succ_of_not_held (h : tick n = true) (hP : P n = false) :
    streak tick P (n + 1) = 0 := by
  unfold streak
  rw [ticks_succ_of_tick h, List.takeWhile_cons_of_neg (by simp [hP]), List.length_nil]

theorem le_length_takeWhile_iff {α : Type*} (p : α → Bool) :
    ∀ (l : List α) (k : ℕ), k ≤ (l.takeWhile p).length ↔
      k ≤ l.length ∧ ∀ x ∈ l.take k, p x = true := by
  intro l
  induction l with
  | nil => intro k; simp
  | cons a l ih =>
    intro k
    cases k with
    | zero => simp
    | succ k =>
      cases ha : p a with
      | false => simp [List.takeWhile_cons_of_neg, ha]
      | true =>
        rw [List.takeWhile_cons_of_pos ha, List.length_cons, Nat.succ_le_succ_iff, ih k]
        simp [ha]

theorem heldFor_iff_le_streak (k : ℕ) : HeldFor tick P k n ↔ k ≤ streak tick P n :=
  (le_length_takeWhile_iff P (ticks tick n) k).symm

theorem lt_of_mem_ticks {m : ℕ} (h : m ∈ ticks tick n) : m < n := by
  induction n with
  | zero => simp [ticks] at h
  | succ n ih =>
    cases ht : tick n with
    | true =>
      rw [ticks_succ_of_tick ht, List.mem_cons] at h
      rcases h with rfl | h
      · exact Nat.lt_succ_self m
      · exact Nat.lt_succ_of_lt (ih h)
    | false =>
      rw [ticks_succ_of_not_tick ht] at h
      exact Nat.lt_succ_of_lt (ih h)

theorem exists_ticks_append {m : ℕ} (h : m ≤ n) :
    ∃ l, ticks tick n = l ++ ticks tick m ∧ ∀ u ∈ l, m ≤ u ∧ u < n ∧ tick u = true := by
  induction n, h using Nat.le_induction with
  | base => exact ⟨[], rfl, by simp⟩
  | succ n hmn ih =>
    obtain ⟨l, hl, hmem⟩ := ih
    cases ht : tick n with
    | true =>
      refine ⟨n :: l, by rw [ticks_succ_of_tick ht, hl, List.cons_append], ?_⟩
      intro u hu
      rcases List.mem_cons.mp hu with rfl | hu
      · exact ⟨hmn, u.lt_succ_self, ht⟩
      · obtain ⟨h1, h2, h3⟩ := hmem u hu
        exact ⟨h1, by omega, h3⟩
    | false =>
      refine ⟨l, by rw [ticks_succ_of_not_tick ht, hl], fun u hu => ?_⟩
      obtain ⟨h1, h2, h3⟩ := hmem u hu
      exact ⟨h1, by omega, h3⟩

theorem tick_of_mem_ticks {m : ℕ} (h : m ∈ ticks tick n) : tick m = true := by
  obtain ⟨l, hl, hmem⟩ := @exists_ticks_append tick n 0 (Nat.zero_le n)
  rw [hl, ticks, List.append_nil] at h
  exact (hmem m h).2.2

theorem mem_ticks {m : ℕ} (hmn : m < n) (h : tick m = true) : m ∈ ticks tick n := by
  obtain ⟨l, hl, -⟩ := @exists_ticks_append tick n (m + 1) hmn
  rw [hl, ticks_succ_of_tick h]
  exact List.mem_append_right l List.mem_cons_self

theorem ticks_eq_of_none {m : ℕ} (h : m ≤ n) (hnone : ∀ u, m ≤ u → u < n → tick u = false) :
    ticks tick n = ticks tick m := by
  obtain ⟨l, hl, hmem⟩ := @exists_ticks_append tick n m h
  have hnil : l = [] := by
    apply List.eq_nil_iff_forall_not_mem.mpr
    intro u hu
    obtain ⟨hmu, hun, ht⟩ := hmem u hu
    rw [hnone u hmu hun] at ht
    exact absurd ht (by simp)
  rw [hl, hnil, List.nil_append]

theorem HeldFor.congr {Q : ℕ → Bool} {k : ℕ} (hPQ : ∀ m < n, P m = Q m)
    (h : HeldFor tick P k n) : HeldFor tick Q k n := by
  refine ⟨h.1, fun m hm => ?_⟩
  rw [← hPQ m (lt_of_mem_ticks (List.mem_of_mem_take hm))]
  exact h.2 m hm

theorem HeldFor.mono {Q : ℕ → Bool} {k : ℕ} (hPQ : ∀ m, P m = true → Q m = true)
    (h : HeldFor tick P k n) : HeldFor tick Q k n :=
  ⟨h.1, fun m hm => hPQ m (h.2 m hm)⟩

theorem HeldFor.latest {k : ℕ} (ht : tick n = true) (h : HeldFor tick P (k + 1) (n + 1)) :
    P n = true := by
  refine h.2 n ?_
  rw [ticks_succ_of_tick ht, List.take_succ_cons]
  exact List.mem_cons_self

end Ticks

/-! ## Consecutive ticks -/

/-- `m` and `n` are ticks, and there is no tick between them. -/
def Consecutive (tick : ℕ → Bool) (m n : ℕ) : Prop :=
  m < n ∧ tick m = true ∧ tick n = true ∧ ∀ u, m < u → u < n → tick u = false

section Consecutive

variable {tick : ℕ → Bool}

theorem Consecutive.left_unique {m m' n : ℕ} (h : Consecutive tick m n)
    (h' : Consecutive tick m' n) : m = m' := by
  obtain ⟨hmn, hm, -, hnone⟩ := h
  obtain ⟨hmn', hm', -, hnone'⟩ := h'
  rcases Nat.lt_trichotomy m m' with hlt | heq | hgt
  · exact absurd hm' (by simp [hnone m' hlt hmn'])
  · exact heq
  · exact absurd hm (by simp [hnone' m hgt hmn])

theorem exists_last_tick {m₀ n : ℕ} (h₀ : tick m₀ = true) (hlt : m₀ < n) :
    ∃ m, m₀ ≤ m ∧ m < n ∧ tick m = true ∧ ∀ u, m < u → u < n → tick u = false := by
  induction n, hlt using Nat.le_induction with
  | base => exact ⟨m₀, le_rfl, m₀.lt_succ_self, h₀, fun u h1 h2 => by omega⟩
  | succ n hn ih =>
    cases ht : tick n with
    | true => exact ⟨n, by omega, n.lt_succ_self, ht, fun u h1 h2 => by omega⟩
    | false =>
      obtain ⟨m, h0m, hmn, hm, hnone⟩ := ih
      refine ⟨m, h0m, by omega, hm, fun u h1 h2 => ?_⟩
      rcases Nat.lt_succ_iff_lt_or_eq.mp h2 with h2 | rfl
      · exact hnone u h1 h2
      · exact ht

theorem counter_since {w : ℕ} {cnt : ℕ → BitVec w}
    (hcnt : ∀ n, cnt (n + 1) = if tick n then 0 else cnt n + 1) {m n : ℕ} (hmn : m < n)
    (hm : tick m = true) (hnone : ∀ u, m < u → u < n → tick u = false) :
    cnt n = BitVec.ofNat w (n - m - 1) := by
  induction n, hmn using Nat.le_induction with
  | base => rw [hcnt, if_pos hm, show m.succ - m - 1 = 0 by omega]; rfl
  | succ n hn ih =>
    have hn' : m + 1 ≤ n := hn
    rw [hcnt, if_neg (by simp [hnone n (by omega) n.lt_succ_self]),
      ih fun u h1 h2 => hnone u h1 (by omega),
      show n + 1 - m - 1 = n - m - 1 + 1 by omega, BitVec.ofNat_add]
    rfl

end Consecutive

/-! ## Spaced ticks -/

/-- Ticks are at least `d` clocks apart. -/
def Spaced (tick : ℕ → Bool) (d : ℕ) : Prop :=
  ∀ t t', t < t' → tick t = true → tick t' = true → t + d ≤ t'

/-- The last tick before clock `n`, if there is one, is `d` clocks ago. -/
def Rested (tick : ℕ → Bool) (d n : ℕ) : Prop := ∀ t < n, tick t = true → t + d ≤ n

section Spaced

variable {tick : ℕ → Bool} {d n : ℕ}

theorem Spaced.mono {d' : ℕ} (h : Spaced tick d) (hd : d' ≤ d) : Spaced tick d' :=
  fun t t' htt' ht ht' => (Nat.add_le_add_left hd t).trans (h t t' htt' ht ht')

theorem Spaced.rested (h : Spaced tick d) (hn : tick n = true) : Rested tick d n :=
  fun t ht htick => h t n ht htick hn

theorem Spaced.eq_of_near (h : Spaced tick d) {t t' : ℕ} (ht : tick t = true) (ht' : tick t' = true)
    (hlt : t < t' + d) (hlt' : t' < t + d) : t = t' := by
  rcases Nat.lt_trichotomy t t' with h1 | h1 | h1
  · have := h t t' h1 ht ht'
    omega
  · exact h1
  · have := h t' t h1 ht' ht
    omega

theorem Spaced.rested_add (h : Spaced tick d) {t : ℕ} (ht : tick t = true) :
    Rested tick d (t + d) := by
  intro t' ht' htick'
  by_contra hnear
  obtain rfl := h.eq_of_near ht htick' (by omega) (by omega)
  exact hnear le_rfl

theorem Rested.succ (h : Rested tick d n) (hnone : tick n = false) : Rested tick d (n + 1) := by
  intro t ht htick
  rcases Nat.lt_or_ge t n with hlt | hge
  · have := h t hlt htick
    omega
  · obtain rfl : t = n := by omega
    rw [hnone] at htick
    cases htick

/-- What a clock without a tick keeps, and a tick restores after `d` clocks, holds at every clock
that is as long after the last tick. -/
theorem Spaced.induction {P : ℕ → Prop} (h : Spaced tick d) (hd : 1 ≤ d) (h0 : P 0)
    (hrest : ∀ n, P n → tick n = false → P (n + 1)) (htick : ∀ t, P t → tick t = true → P (t + d)) :
    ∀ n, Rested tick d n → P n := by
  intro n
  induction n using Nat.strong_induction_on with
  | _ n ih =>
    intro hn
    by_cases hend : ∃ t, t + d = n ∧ tick t = true
    · obtain ⟨t, rfl, ht⟩ := hend
      exact htick t (ih t (by omega) (h.rested ht)) ht
    · rcases n with - | m
      · exact h0
      · have hm : tick m = false := by
          by_contra hm
          have hm' : tick m = true := by simpa using hm
          have := hn m m.lt_succ_self hm'
          exact hend ⟨m, by omega, hm'⟩
        refine hrest m (ih m m.lt_succ_self fun t ht htick' => ?_) hm
        have := hn t (by omega) htick'
        have : t + d ≠ m + 1 := fun heq => hend ⟨t, heq, htick'⟩
        omega

/-- Events of which each tick has one within `d` clocks, and that do not come otherwise, are as many
and in the order of the ticks. -/
theorem map_ticks_of_paired {β : Type*} {late : ℕ → Bool} {g h : ℕ → β} (hs : Spaced tick d)
    (hd : 1 ≤ d) (hquiet : ∀ n, Rested tick d n → tick n = false → late n = false)
    (hone : ∀ t, tick t = true → ∃ u, t ≤ u ∧ u < t + d ∧ late u = true ∧ g u = h t ∧
      ∀ m, t ≤ m → m < t + d → late m = true → m = u) (hn : Rested tick d n) :
    (ticks late n).map g = (ticks tick n).map h := by
  refine (hs.induction (P := fun n => Rested tick d n ∧
    (ticks late n).map g = (ticks tick n).map h) hd ⟨fun t ht => by omega, rfl⟩ ?_ ?_ n hn).2
  · intro n ⟨hrest, heq⟩ hnone
    refine ⟨hrest.succ hnone, ?_⟩
    rw [ticks_succ_of_not_tick hnone, ticks_succ_of_not_tick (hquiet n hrest hnone), heq]
  · intro t ⟨_, heq⟩ ht
    obtain ⟨u, htu, hut, hu, hgu, hunique⟩ := hone t ht
    have hlate : ticks late (t + d) = u :: ticks late t := by
      rw [ticks_eq_of_none (show u + 1 ≤ t + d from hut), ticks_succ_of_tick hu,
        ticks_eq_of_none htu]
      · intro m htm hmu
        by_contra hm
        have := hunique m htm (by omega) (by simpa using hm)
        omega
      · intro m hum hmt
        by_contra hm
        have := hunique m (by omega) hmt (by simpa using hm)
        omega
    have htick : ticks tick (t + d) = t :: ticks tick t := by
      rw [ticks_eq_of_none (show t + 1 ≤ t + d by omega), ticks_succ_of_tick ht]
      intro m htm hmt
      by_contra hm
      have := hs t m htm ht (by simpa using hm)
      omega
    refine ⟨hs.rested_add ht, ?_⟩
    rw [hlate, htick, List.map_cons, List.map_cons, heq, hgu]

theorem ticks_delay {late : ℕ → Bool} (hnone : ∀ m < d, m < n → late m = false)
    (hlate : ∀ m, m + d < n → late (m + d) = tick m) :
    ticks late n = (ticks tick (n - d)).map (· + d) := by
  induction n with
  | zero => simp [ticks]
  | succ n ih =>
    have ih := ih (fun m hm hmn => hnone m hm (by omega)) fun m hm => hlate m (by omega)
    rcases Nat.lt_or_ge n d with hlt | hge
    · rw [ticks_succ_of_not_tick (hnone n hlt n.lt_succ_self), ih,
        show n - d = 0 by omega, show n + 1 - d = 0 by omega]
    · obtain ⟨m, rfl⟩ := Nat.exists_eq_add_of_le' hge
      rw [Nat.add_sub_cancel] at ih
      rw [show m + d + 1 - d = m + 1 by omega]
      have hm := hlate m (by omega)
      cases htick : tick m with
      | true =>
        rw [ticks_succ_of_tick (hm.trans htick), ticks_succ_of_tick htick, ih, List.map_cons]
      | false =>
        rw [ticks_succ_of_not_tick (hm.trans htick), ticks_succ_of_not_tick htick, ih]

end Spaced

/-! ## Tick numbers -/

/-- The number of ticks before clock `n`. -/
def tickCount (tick : ℕ → Bool) (n : ℕ) : ℕ := (ticks tick n).length

section TickCount

variable {tick : ℕ → Bool} {n : ℕ}

@[simp] theorem tickCount_zero : tickCount tick 0 = 0 := rfl

theorem tickCount_succ_of_tick (h : tick n = true) :
    tickCount tick (n + 1) = tickCount tick n + 1 := by
  unfold tickCount; rw [ticks_succ_of_tick h, List.length_cons]

theorem tickCount_succ_of_not_tick (h : tick n = false) :
    tickCount tick (n + 1) = tickCount tick n := by
  unfold tickCount; rw [ticks_succ_of_not_tick h]

theorem tickCount_succ (n : ℕ) :
    tickCount tick (n + 1) = tickCount tick n + if tick n then 1 else 0 := by
  cases h : tick n with
  | true => exact tickCount_succ_of_tick h
  | false => exact tickCount_succ_of_not_tick h

theorem tickCount_le_succ (n : ℕ) : tickCount tick n ≤ tickCount tick (n + 1) := by
  cases h : tick n with
  | true => rw [tickCount_succ_of_tick h]; omega
  | false => rw [tickCount_succ_of_not_tick h]

theorem tickCount_mono : Monotone (tickCount tick) := monotone_nat_of_le_succ tickCount_le_succ

theorem tickCount_le (n : ℕ) : tickCount tick n ≤ n := by
  induction n with
  | zero => exact le_rfl
  | succ n ih =>
    rw [tickCount_succ]
    split_ifs <;> omega

theorem tickCount_eq_zero (h : ∀ m < n, tick m = false) : tickCount tick n = 0 := by
  induction n with
  | zero => rfl
  | succ n ih =>
    rw [tickCount_succ_of_not_tick (h n (Nat.lt_succ_self n))]
    exact ih fun m hm => h m (by omega)

theorem tickCount_delay {late : ℕ → Bool} {d : ℕ} (hnone : ∀ m < d, late m = false)
    (hlate : ∀ m, late (m + d) = tick m) (n : ℕ) : tickCount late n = tickCount tick (n - d) := by
  induction n with
  | zero => simp
  | succ n ih =>
    rcases Nat.lt_or_ge n d with hlt | hge
    · rw [tickCount_succ_of_not_tick (hnone n hlt), ih]
      simp [show n - d = 0 by omega, show n + 1 - d = 0 by omega]
    · obtain ⟨m, rfl⟩ := Nat.exists_eq_add_of_le' hge
      rw [Nat.add_sub_cancel] at ih
      rw [show m + d + 1 - d = m + 1 by omega]
      cases htick : tick m with
      | true =>
        have hm := (hlate m).trans htick
        rw [tickCount_succ_of_tick hm, tickCount_succ_of_tick htick, ih]
      | false =>
        have hm := (hlate m).trans htick
        rw [tickCount_succ_of_not_tick hm, tickCount_succ_of_not_tick htick, ih]

/-- Where ticks keep coming, each number of ticks is reached, just before the next tick. -/
theorem exists_tickCount_eq (hlive : ∀ n, ∃ u, n ≤ u ∧ tick u = true) (k : ℕ) :
    ∃ u, tickCount tick u = k ∧ tick u = true := by
  -- the first tick after a clock is reached with the count unchanged
  have hnext : ∀ n, ∃ u, tickCount tick u = tickCount tick n ∧ tick u = true := by
    intro n
    obtain ⟨u, hnu, hu⟩ := hlive n
    obtain ⟨d, rfl⟩ := Nat.exists_eq_add_of_le hnu
    clear hnu
    induction d generalizing n with
    | zero => exact ⟨n, rfl, hu⟩
    | succ d ih =>
      cases h : tick n with
      | true => exact ⟨n, rfl, h⟩
      | false =>
        obtain ⟨v, hv, htv⟩ := ih (n + 1) (by rwa [show n + 1 + d = n + (d + 1) by omega])
        exact ⟨v, hv.trans (tickCount_succ_of_not_tick h), htv⟩
  induction k with
  | zero => exact hnext 0
  | succ k ih =>
    obtain ⟨u, hu, htu⟩ := ih
    obtain ⟨v, hv, htv⟩ := hnext (u + 1)
    exact ⟨v, by rw [hv, tickCount_succ_of_tick htu, hu], htv⟩

/-- What held for the last `k` ticks held at each tick that is one of them. -/
theorem HeldFor.at_tick {P : ℕ → Bool} {k m : ℕ} (h : HeldFor tick P k n) (hm : m < n)
    (ht : tick m = true) (hk : tickCount tick n ≤ tickCount tick m + k) : P m = true := by
  refine h.2 m ?_
  clear h
  induction n generalizing k with
  | zero => exact absurd hm (Nat.not_lt_zero m)
  | succ n ih =>
    rcases Nat.lt_succ_iff_lt_or_eq.mp hm with hlt | rfl
    · cases hn : tick n with
      | false =>
        rw [tickCount_succ_of_not_tick hn] at hk
        rw [ticks_succ_of_not_tick hn]
        exact ih hlt hk
      | true =>
        -- the tick `n` is the first of the list, and `m` is among the others
        have hle : tickCount tick m + 1 ≤ tickCount tick n := by
          rw [← tickCount_succ_of_tick ht]
          exact tickCount_mono hlt
        rw [tickCount_succ_of_tick hn] at hk
        obtain ⟨j, rfl⟩ : ∃ j, k = j + 1 := ⟨k - 1, by omega⟩
        rw [ticks_succ_of_tick hn, List.take_succ_cons]
        exact List.mem_cons_of_mem _ (ih hlt (by omega))
    · rw [tickCount_succ_of_tick ht] at hk
      obtain ⟨j, rfl⟩ : ∃ j, k = j + 1 := ⟨k - 1, by omega⟩
      rw [ticks_succ_of_tick ht, List.take_succ_cons]
      exact List.mem_cons_self

theorem rank_add_tickCount_le (rank : ℕ → ℕ) {k : ℕ}
    (h : ∀ j < k, rank (j + 1) + (if tick j then 1 else 0) ≤ rank j) :
    rank k + tickCount tick k ≤ rank 0 := by
  induction k with
  | zero => simp
  | succ k ih =>
    have hk := ih fun j hj => h j (by omega)
    have hlast := h k k.lt_succ_self
    rw [tickCount_succ]
    omega

/-- **Progress.** Where ticks keep coming, a rank that each tick lowers until `P` holds, and no
other clock raises, leads to `P`. -/
theorem exists_of_rank {P : ℕ → Prop} (rank : ℕ → ℕ) {n : ℕ}
    (hlive : ∀ m, ∃ u, m ≤ u ∧ tick u = true)
    (h : ∀ m, n ≤ m → ¬P m → P (m + 1) ∨ rank (m + 1) + (if tick m then 1 else 0) ≤ rank m) :
    ∃ m, n ≤ m ∧ P m := by
  by_contra hnone
  push Not at hnone
  have hlate : ∀ m, ∃ u, m ≤ u ∧ tick (n + u) = true := by
    intro m
    obtain ⟨u, hu, ht⟩ := hlive (n + m)
    exact ⟨u - n, by omega, by rwa [show n + (u - n) = u by omega]⟩
  obtain ⟨k, hk, -⟩ := exists_tickCount_eq hlate (rank n + 1)
  have hle : rank (n + k) + tickCount (fun j => tick (n + j)) k ≤ rank (n + 0) :=
    rank_add_tickCount_le (fun j => rank (n + j)) fun j _ =>
      (h (n + j) (by omega) (hnone _ (by omega))).resolve_left (hnone _ (by omega))
  rw [hk] at hle
  simp at hle
  omega

end TickCount

/-! ## Windows -/

/-- What `f` shows at the ticks from clock `t` on, before clock `u`. -/
def record {α : Type*} (tick : ℕ → Bool) (f : ℕ → α) (t u : ℕ) : List α :=
  ((List.range' t (u - t)).filter tick).map f

section Record

variable {α : Type*} {tick : ℕ → Bool} {f : ℕ → α} {t u : ℕ}

@[simp] theorem record_self : record tick f t t = [] := by simp [record]

theorem record_succ (h : t ≤ u) :
    record tick f t (u + 1) = record tick f t u ++ if tick u then [f u] else [] := by
  unfold record
  rw [show u + 1 - t = u - t + 1 by omega, List.range'_concat, List.filter_append, List.map_append,
    show t + 1 * (u - t) = u by omega]
  cases htick : tick u with
  | true => simp [htick]
  | false => simp [htick]

theorem length_record_eq {β : Type*} (g : ℕ → β) :
    (record tick f t u).length = (record tick g t u).length := by
  simp [record]

theorem record_congr {tick' : ℕ → Bool} {g : ℕ → α} (htick : ∀ k, t ≤ k → k < u → tick k = tick' k)
    (hf : ∀ k, t ≤ k → k < u → f k = g k) : record tick f t u = record tick' g t u := by
  have hmem : ∀ k ∈ List.range' t (u - t), t ≤ k ∧ k < u := by
    intro k hk
    have hk' := List.mem_range'_1.mp hk
    omega
  unfold record
  rw [List.filter_congr fun k hk => htick k (hmem k hk).1 (hmem k hk).2]
  refine List.map_congr_left fun k hk => ?_
  have hk' := hmem k (List.mem_of_mem_filter hk)
  exact hf k hk'.1 hk'.2

theorem record_eq_replicate {a : α} (h : ∀ k, t ≤ k → k < u → f k = a) :
    record tick f t u = List.replicate (record tick f t u).length a := by
  refine List.eq_replicate_iff.mpr ⟨rfl, fun b hb => ?_⟩
  obtain ⟨k, hk, rfl⟩ := List.mem_map.mp hb
  obtain ⟨i, hi, rfl⟩ := List.mem_range'.mp (List.mem_filter.mp hk).1
  exact h _ (by omega) (by omega)

theorem record_eq_iff {g : ℕ → α} :
    record tick f t u = record tick g t u ↔ ∀ k, t ≤ k → k < u → tick k = true → f k = g k := by
  unfold record
  rw [List.map_inj_left]
  constructor
  · intro h k htk hku hk
    exact h k (List.mem_filter.mpr ⟨List.mem_range'_1.mpr ⟨htk, by omega⟩, hk⟩)
  · intro h k hk
    obtain ⟨hrange, htick⟩ := List.mem_filter.mp hk
    have hk' := List.mem_range'_1.mp hrange
    exact h k hk'.1 (by omega) htick

end Record

theorem exists_when {P : ℕ → Prop} {c : ℕ → Bool} {n : ℕ} (hn : P n)
    (hstay : ∀ m, n ≤ m → P m → c m = false → P (m + 1)) (hc : ∃ m, n ≤ m ∧ c m = true) :
    ∃ m, n ≤ m ∧ P m ∧ c m = true := by
  obtain ⟨m, hnm, hm⟩ := hc
  obtain ⟨d, rfl⟩ := Nat.exists_eq_add_of_le hnm
  clear hnm
  induction d generalizing n with
  | zero => exact ⟨n, le_rfl, hn, hm⟩
  | succ d ih =>
    cases h : c n with
    | true => exact ⟨n, le_rfl, hn, h⟩
    | false =>
      obtain ⟨m, hnm, hPm, hcm⟩ := ih (hstay n le_rfl hn h)
        (fun m hm => hstay m (by omega)) (by rwa [show n + 1 + d = n + (d + 1) by omega])
      exact ⟨m, by omega, hPm, hcm⟩

end Clocked
