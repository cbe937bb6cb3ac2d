import Mathlib.Tactic

/-!
# Logs in a ring

A log whose entry number `j` is stored in slot `j % size` of a ring. `Latest slot size n val` says
that after `n` entries each slot holds the newest entry that went there, that is, that the last
`size` entries are still to be read.

A reader copies runs of slots. Within one revolution of the ring these are runs of entries
(`Latest.map_range'`); where two runs are joined, they are `Consecutive` exactly if the second
starts where the first ends (`consecutive_append_iff`).

A writer whose index wraps without writing leaves out one entry in each turn: what its slots hold
then is the last `N + 1` entries but one (`Aged.perm`).
-/

namespace RingLog

variable {α : Type*}

/-! ## Entries in slots -/

/-- Each of the last `size` of `n` entries stands as it should to what is in its slot. -/
def Holds (slot : ℕ → α) (size n : ℕ) (R : ℕ → α → Prop) : Prop :=
  ∀ j < n, n ≤ j + size → R j (slot (j % size))

section Holds

variable {slot slot' : ℕ → α} {size n : ℕ} {R : ℕ → α → Prop}

theorem holds_zero : Holds slot size 0 R := fun j hj => absurd hj (Nat.not_lt_zero j)

theorem Holds.push (h : Holds slot size n R) (hnew : R n (slot' (n % size)))
    (hold : ∀ s < size, s ≠ n % size → slot' s = slot s) : Holds slot' size (n + 1) R := by
  intro j hj hlast
  rcases Nat.lt_or_eq_of_le (Nat.lt_succ_iff.mp hj) with hlt | rfl
  · have hne : j % size ≠ n % size := by
      intro heq
      -- equal slots mean a distance of at least one revolution
      have hmod : j ≡ n [MOD size] := heq
      have hdvd : size ∣ n - j := (Nat.modEq_iff_dvd' hlt.le).mp hmod
      have := Nat.le_of_dvd (by omega) hdvd
      omega
    have hsize : 0 < size := by omega
    rw [hold _ (Nat.mod_lt _ hsize) hne]
    exact h j hlt (by omega)
  · exact hnew

theorem Holds.congr (h : Holds slot size n R) (hsame : ∀ s < size, slot' s = slot s) :
    Holds slot' size n R := by
  intro j hj hlast
  have hsize : 0 < size := by omega
  rw [hsame _ (Nat.mod_lt _ hsize)]
  exact h j hj hlast

end Holds

/-- Each of the last `size` of `n` entries is in its slot. -/
def Latest (slot : ℕ → α) (size n : ℕ) (val : ℕ → α) : Prop :=
  ∀ j < n, n ≤ j + size → slot (j % size) = val j

section Latest

variable {slot slot' : ℕ → α} {size n : ℕ} {val : ℕ → α}

theorem latest_iff_holds : Latest slot size n val ↔ Holds slot size n fun j a => a = val j :=
  Iff.rfl

theorem latest_zero : Latest slot size 0 val := latest_iff_holds.mpr holds_zero

theorem Latest.push (h : Latest slot size n val) (hnew : slot' (n % size) = val n)
    (hold : ∀ s < size, s ≠ n % size → slot' s = slot s) : Latest slot' size (n + 1) val :=
  latest_iff_holds.mpr ((latest_iff_holds.mp h).push hnew hold)

/-- A run of slots that stays in one revolution holds a run of entries. -/
theorem Latest.map_range' (h : Latest slot size n val) {a s len : ℕ} (ha : a % size = s)
    (hrev : s + len ≤ size) (hn : a + len ≤ n) (hlast : n ≤ a + size) :
    (List.range' s len).map slot = (List.range' a len).map val := by
  apply List.ext_getElem
  · simp
  · intro i hi hi'
    have hlt : i < len := by simpa using hi
    simp only [List.getElem_map, List.getElem_range', one_mul]
    have hmod : (a + i) % size = s + i := by
      rw [Nat.add_mod, ha, Nat.mod_eq_of_lt (show i < size by omega),
        Nat.mod_eq_of_lt (show s + i < size by omega)]
    rw [← hmod]
    exact h (a + i) (by omega) (by omega)

end Latest

/-! ## Windows -/

theorem range_eq_append {a n : ℕ} (h : a ≤ n) :
    List.range n = List.range a ++ List.range' a (n - a) := by
  rw [List.range_eq_range', List.range_eq_range']
  have happend := List.range'_append_1 (s := 0) (m := a) (n := n - a)
  rw [Nat.zero_add] at happend
  rw [happend]
  congr 1
  omega

/-- The slots from `s` on, around the ring. -/
def window (size s len : ℕ) : List ℕ := (List.range len).map fun j => (s + j) % size

section Window

variable {size s len : ℕ}

theorem window_of_le (h : s + len ≤ size) : window size s len = List.range' s len := by
  unfold window
  rw [List.range'_eq_map_range]
  apply List.map_congr_left
  intro j hj
  rw [List.mem_range] at hj
  exact Nat.mod_eq_of_lt (by omega)

theorem window_of_ge (hs : s ≤ size) (hlen : len ≤ size) (h : size ≤ s + len) :
    window size s len = List.range' s (size - s) ++ List.range' 0 (s + len - size) := by
  unfold window
  rw [range_eq_append (show size - s ≤ len by omega), List.map_append,
    show len - (size - s) = s + len - size by omega]
  congr 1
  · rw [List.range'_eq_map_range]
    apply List.map_congr_left
    intro j hj
    rw [List.mem_range] at hj
    exact Nat.mod_eq_of_lt (by omega)
  · rw [List.range'_eq_map_range, List.range'_eq_map_range, List.map_map]
    apply List.map_congr_left
    intro j hj
    rw [List.mem_range] at hj
    show (s + (size - s + j)) % size = 0 + j
    rw [show s + (size - s + j) = size + j by omega, Nat.add_mod_left,
      Nat.mod_eq_of_lt (by omega), Nat.zero_add]

end Window

/-! ## A turn left out -/

/-- Entries are written to `N` slots in turn, and every `(N + 1)`st is left out: `next` counts the
turns, and at `N` it wraps without writing. `hist` has the entries by age, the latest first; those
after the one left out are below `next`, those before it from `next` on. -/
def Aged (slot : ℕ → α) (N next : ℕ) (hist : List α) : Prop :=
  (∀ i < next, hist[next - 1 - i]? = some (slot i)) ∧
    ∀ i < N, next ≤ i → hist[N + next - i]? = some (slot i)

/-- The slots by age; slot `N` stands in for the entry left out. -/
def byAge (slot : ℕ → α) (N next : ℕ) : List α :=
  (List.range (N + 1)).map fun p => slot (if p < next then next - 1 - p else N + next - p)

/-- The turn after `next`. -/
def nextTurn (N next : ℕ) : ℕ := if next = N then 0 else next + 1

section Aged

variable {slot slot' : ℕ → α} {N next : ℕ} {hist : List α} {x : α}

@[simp] theorem length_byAge : (byAge slot N next).length = N + 1 := by simp [byAge]

theorem getElem?_byAge {p : ℕ} (hp : p < N + 1) : (byAge slot N next)[p]? =
    some (slot (if p < next then next - 1 - p else N + next - p)) := by
  unfold byAge
  rw [List.getElem?_map, List.getElem?_range hp, Option.map_some]

theorem aged_byAge (h : next ≤ N) : Aged slot N next (byAge slot N next) := by
  constructor
  · intro i hi
    rw [getElem?_byAge (by omega), if_pos (by omega)]
    congr 2
    omega
  · intro i hi hle
    rw [getElem?_byAge (by omega), if_neg (by omega)]
    congr 2
    omega

theorem nextTurn_le (h : next ≤ N) : nextTurn N next ≤ N := by
  unfold nextTurn
  split_ifs <;> omega

theorem nextTurn_eq_mod (h : next ≤ N) : nextTurn N next = (next + 1) % (N + 1) := by
  unfold nextTurn
  split_ifs with hN
  · rw [hN, Nat.mod_self]
  · rw [Nat.mod_eq_of_lt (by omega)]

theorem mod_succ_le (a N : ℕ) : a % (N + 1) ≤ N := Nat.lt_succ_iff.mp (Nat.mod_lt a N.succ_pos)

theorem Aged.push (h : Aged slot N next hist) (hnext : next < N) (hnew : slot' next = x)
    (hold : ∀ i < N, i ≠ next → slot' i = slot i) : Aged slot' N (next + 1) (x :: hist) := by
  obtain ⟨hlast, hfirst⟩ := h
  constructor
  · intro i hi
    rcases Nat.lt_or_eq_of_le (Nat.lt_succ_iff.mp hi) with hlt | rfl
    · rw [show next + 1 - 1 - i = next - 1 - i + 1 by omega, List.getElem?_cons_succ,
        hold i (by omega) (by omega)]
      exact hlast i hlt
    · rw [show i + 1 - 1 - i = 0 by omega, List.getElem?_cons_zero, hnew]
  · intro i hi hle
    rw [show N + (next + 1) - i = N + next - i + 1 by omega, List.getElem?_cons_succ,
      hold i hi (by omega)]
    exact hfirst i hi (by omega)

theorem Aged.leaveOut (h : Aged slot N N hist) : Aged slot N 0 (x :: hist) := by
  refine ⟨fun i hi => absurd hi (Nat.not_lt_zero i), fun i hi _ => ?_⟩
  rw [show N + 0 - i = N - 1 - i + 1 by omega, List.getElem?_cons_succ]
  exact h.1 i hi

/-- The last `N + 1` entries but the one left out, by the slots they are in. -/
theorem Aged.eraseIdx_take (h : Aged slot N next hist) (hnext : next ≤ N) :
    (hist.take (N + 1)).eraseIdx next =
      ((List.range next).reverse ++ (List.range' next (N - next)).reverse).map slot := by
  apply List.ext_getElem?
  intro p
  rw [List.getElem?_eraseIdx, List.getElem?_map]
  split_ifs with hp
  · rw [List.getElem?_take_of_lt (by omega), List.getElem?_append_left (by simpa using hp),
      List.getElem?_reverse (by simpa using hp), List.length_range,
      List.getElem?_range (by omega), Option.map_some, ← h.1 _ (by omega)]
    congr 1
    omega
  · rw [List.getElem?_append_right (by simpa using hp), List.length_reverse, List.length_range]
    rcases Nat.lt_or_ge p N with hN | hN
    · have hlen : p - next < (List.range' next (N - next)).length := by
        rw [List.length_range']
        omega
      rw [List.getElem?_take_of_lt (by omega), List.getElem?_reverse hlen, List.length_range',
        List.getElem?_range' (by omega), Option.map_some, ← h.2 _ (by omega) (by omega)]
      congr 1
      omega
    · rw [List.getElem?_eq_none (by rw [List.length_take]; omega),
        List.getElem?_eq_none (by rw [List.length_reverse, List.length_range']; omega),
        Option.map_none]

/-- **What the slots hold**: the last `N + 1` entries, but the one left out. -/
theorem Aged.perm (h : Aged slot N next hist) (hnext : next ≤ N) :
    ((List.range N).map slot).Perm ((hist.take (N + 1)).eraseIdx next) := by
  rw [h.eraseIdx_take hnext]
  apply List.Perm.map
  rw [range_eq_append hnext]
  exact ((List.reverse_perm _).append (List.reverse_perm _)).symm

theorem sum_eraseIdx_take_iff {M : Type*} [AddCommGroup M] {l : List M} (hnext : next ≤ N)
    (hlen : N < l.length) :
    ((l.take (N + 1)).eraseIdx next).sum = (l.take N).sum ↔ l[N]? = l[next]? := by
  have hnext' : next < (l.take (N + 1)).length := by rw [List.length_take]; omega
  have herase := List.CommMonoid.add_sum_eraseIdx hnext'
  rw [List.getElem_take, List.sum_take_succ _ _ hlen, add_comm (l.take N).sum] at herase
  rw [List.getElem?_eq_getElem hlen, List.getElem?_eq_getElem (by omega), Option.some_inj]
  constructor
  · intro h
    rw [h] at herase
    exact (add_right_cancel herase).symm
  · intro h
    rw [h] at herase
    exact add_left_cancel herase

end Aged

/-! ## Consecutive numbers -/

variable {w : ℕ}

/-- Each number is one more than the one before it. -/
def Consecutive (l : List (BitVec w)) : Prop := l.IsChain fun a b => b = a + 1#w

/-- The numbers of the entries from `a` on. -/
def numbers (w a len : ℕ) : List (BitVec w) := (List.range' a len).map (BitVec.ofNat w)

theorem consecutive_numbers (a len : ℕ) : Consecutive (numbers w a len) := by
  unfold Consecutive numbers
  rw [List.isChain_map]
  induction len generalizing a with
  | zero => exact List.IsChain.nil
  | succ len ih =>
    rw [List.range'_succ]
    cases len with
    | zero => exact List.IsChain.singleton _
    | succ len =>
      rw [List.range'_succ] at *
      refine List.IsChain.cons_cons ?_ (ih (a + 1))
      exact BitVec.ofNat_add a 1

theorem getLast?_numbers (a len : ℕ) :
    (numbers w a len).getLast? = if len = 0 then none else some (BitVec.ofNat w (a + len - 1)) := by
  unfold numbers
  rw [List.getLast?_map, List.getLast?_range']
  split_ifs with h
  · rfl
  · simp only [Option.map_some]

theorem head?_numbers (a len : ℕ) :
    (numbers w a len).head? = if len = 0 then none else some (BitVec.ofNat w a) := by
  unfold numbers
  rw [List.head?_map, List.head?_range']
  split_ifs <;> rfl

/-- Two runs of entries are consecutive if the second starts where the first ends, or if one of
them is empty. -/
theorem consecutive_append_iff (a b la lb : ℕ) :
    Consecutive (numbers w a la ++ numbers w b lb) ↔
      la = 0 ∨ lb = 0 ∨ BitVec.ofNat w b = BitVec.ofNat w (a + la) := by
  unfold Consecutive
  rw [List.isChain_append, getLast?_numbers, head?_numbers]
  have ha : (numbers w a la).IsChain fun x y => y = x + 1#w := consecutive_numbers a la
  have hb : (numbers w b lb).IsChain fun x y => y = x + 1#w := consecutive_numbers b lb
  by_cases hla : la = 0
  · subst hla
    simp [ha, hb]
  · by_cases hlb : lb = 0
    · subst hlb
      simp [ha, hb]
    · have hnext : BitVec.ofNat w (a + la) = BitVec.ofNat w (a + la - 1) + 1#w := by
        rw [← BitVec.ofNat_add, show a + la - 1 + 1 = a + la by omega]
      rw [if_neg hla, if_neg hlb, hnext]
      simp [hla, hlb, ha, hb]

theorem ofNat_eq_ofNat_iff {a b : ℕ} (hab : a < b + 2 ^ w) (hba : b < a + 2 ^ w) :
    BitVec.ofNat w a = BitVec.ofNat w b ↔ a = b := by
  constructor
  · intro h
    have hmod : a ≡ b [MOD 2 ^ w] := by
      have hnat := congrArg BitVec.toNat h
      rwa [BitVec.toNat_ofNat, BitVec.toNat_ofNat] at hnat
    rcases le_total a b with hle | hle
    · have hdvd := (Nat.modEq_iff_dvd' hle).mp hmod
      by_contra hne
      have := Nat.le_of_dvd (by omega) hdvd
      omega
    · have hdvd := (Nat.modEq_iff_dvd' hle).mp hmod.symm
      by_contra hne
      have := Nat.le_of_dvd (by omega) hdvd
      omega
  · rintro rfl
    rfl

end RingLog
