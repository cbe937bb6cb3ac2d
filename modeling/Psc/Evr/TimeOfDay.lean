import Psc.Lib.Clocked
import Psc.Lib.NumericStd
import Psc.Lib.Spi

/-!
# The time of day

`event_rcv_ts.vhd`: the seconds come as 32 codes of the event stream, 0x70 for a zero and 0x71 for a
one, the highest bit first. A pointer says where the next bit goes, and the code 0x7D latches the
word and starts the next one.

The word is cleared two clocks after the latch, and the clear goes before a bit. `latched_word`:
what the next latch takes is the bits received since, with those of its first two clocks read as
zeros. `time_decoded_iff`: so it takes the right number if none of these two is a one, and nothing
that came before the latch ever influences it.
-/

namespace Psc.TimeOfDay

open Clocked NumericStd
open Spi (topBits wordBits)

/-- The input ports. -/
structure Input where
  reset : Bool
  eventStream : BitVec 8

/-- The code is a bit of the time of day. -/
def Input.bit (i : Input) : Bool := i.eventStream = 0x70#8 || i.eventStream = 0x71#8

/-- The code is a one. -/
def Input.one (i : Input) : Bool := i.eventStream = 0x71#8

/-- The code latches the time of day. -/
def Input.latch (i : Input) : Bool := i.eventStream = 0x7D#8

/-- The registers; the ports `Seconds`, `Offset` and `Position` show `secondsTmp`, `offsetReg` and
`pos`. -/
structure State where
  pos : BitVec 5
  secondsTmp : BitVec 32
  secondsReg : BitVec 32
  offsetReg : BitVec 32
  clear : Bool
  clearReg : Bool
  timeStamp : BitVec 64

/-- One clock: a process of the source for each field, and one for the two of the clear. -/
def step (s : State) (i : Input) : State where
  pos :=
    if i.eventStream = 0x7D#8 then 31
    else if i.eventStream = 0x70#8 ∨ i.eventStream = 0x71#8 then s.pos - 1
    else s.pos
  secondsTmp :=
    if i.reset || s.clearReg then 0
    else if i.eventStream = 0x70#8 then setBit s.secondsTmp s.pos.toNat false
    else if i.eventStream = 0x71#8 then setBit s.secondsTmp s.pos.toNat true
    else s.secondsTmp
  secondsReg := if i.eventStream = 0x7D#8 then s.secondsTmp else s.secondsReg
  offsetReg := if i.eventStream = 0x7D#8 then 0 else s.offsetReg + 1
  clear := i.eventStream = 0x7D#8
  clearReg := s.clear
  timeStamp := if i.reset then 0 else s.secondsReg ++ s.offsetReg

section Step

variable {s : State} {i : Input}

theorem pos_step_of_latch (h : i.latch = true) : (step s i).pos = 31 :=
  if_pos (of_decide_eq_true h)

theorem pos_step (h : i.latch = false) :
    (step s i).pos = if i.bit then s.pos - 1 else s.pos := by
  have hlatch : ¬i.eventStream = 0x7D#8 := of_decide_eq_false h
  simp [step, Input.bit, hlatch]

theorem secondsTmp_step_of_clearReg (h : s.clearReg = true) : (step s i).secondsTmp = 0 := by
  simp [step, h]

theorem secondsTmp_step (hr : i.reset = false) (hc : s.clearReg = false) :
    (step s i).secondsTmp =
      if i.bit then setBit s.secondsTmp s.pos.toNat i.one else s.secondsTmp := by
  simp only [step, hr, hc, Input.bit, Input.one]
  by_cases h0 : i.eventStream = 0x70#8
  · simp [h0]
  · by_cases h1 : i.eventStream = 0x71#8
    · simp [h1]
    · simp [h0, h1]

theorem secondsReg_step_of_latch (h : i.latch = true) : (step s i).secondsReg = s.secondsTmp :=
  if_pos (of_decide_eq_true h)

theorem bit_of_one (h : i.one = true) : i.bit = true := by
  simp [Input.bit, of_decide_eq_true h]

end Step

theorem topBits_setBit {w : ℕ} (x : BitVec w) (b : Bool) {k : ℕ} (h : k < w) :
    topBits (setBit x (w - 1 - k) b) (k + 1) = topBits x k ++ [b] := by
  unfold topBits
  rw [List.range_succ, List.map_append]
  congr 1
  · apply List.map_congr_left
    intro j hj
    have hjk := List.mem_range.mp hj
    rw [BitVec.getMsbD_eq_getLsbD, BitVec.getMsbD_eq_getLsbD, getLsbD_setBit, if_neg (by omega)]
  · rw [List.map_singleton, BitVec.getMsbD_eq_getLsbD, getLsbD_setBit,
      if_pos ⟨rfl, by omega⟩, decide_eq_true h, Bool.true_and]

theorem topBits_zero_word {w : ℕ} {l : List Bool} (h : ∀ b ∈ l, b = false) :
    topBits (0 : BitVec w) l.length = l := by
  rw [List.eq_replicate_length.mpr h]
  unfold topBits
  rw [List.length_replicate, List.eq_replicate_iff]
  simp

section Run

variable (inp : ℕ → Input)

/-- A latch at clock `n`. -/
def latch (n : ℕ) : Bool := (inp n).latch

/-- The bits received after clock `m` and before clock `n`. -/
def bits (m n : ℕ) : List Bool :=
  record (fun k => (inp k).bit) (fun k => (inp k).one) (m + 1) n

/-- The same, with those of the first two clocks read as zeros. -/
def kept (m n : ℕ) : List Bool :=
  record (fun k => (inp k).bit) (fun k => decide (m + 2 < k) && (inp k).one) (m + 1) n

/-- The time of day that is latched at clock `n`. -/
def latched (s : State) (n : ℕ) : BitVec 32 := (run step s inp (n + 1)).secondsReg

/-- The latch at clock `n` takes the bits received since the one at clock `m`, and no input before
clock `m` influences it. -/
def Decodes (s : State) (m n : ℕ) : Prop :=
  wordBits (latched inp s n) = bits inp m n ∧
    ∀ s' inp', (∀ k, m ≤ k → k ≤ n → inp' k = inp k) → latched inp' s' n = latched inp s n

theorem length_kept (m n : ℕ) : (kept inp m n).length = (bits inp m n).length :=
  length_record_eq _

theorem length_bits_le (m n : ℕ) : (bits inp m n).length ≤ n - (m + 1) := by
  unfold bits record
  rw [List.length_map]
  exact (List.length_filter_le _ _).trans_eq List.length_range'

variable {inp} {s : State} {m n : ℕ} (hmn : Consecutive (latch inp) m n)

include hmn

theorem pos_run {k : ℕ} (hmk : m < k) (hkn : k ≤ n) :
    (run step s inp k).pos = 31 - BitVec.ofNat 5 (bits inp m k).length := by
  induction k, hmk using Nat.le_induction with
  | base =>
    rw [run_succ, pos_step_of_latch hmn.2.1]
    simp [bits]
  | succ k hk ih =>
    rw [run_succ, pos_step (hmn.2.2.2 k hk (by omega)), ih (by omega)]
    unfold bits
    rw [record_succ (show m + 1 ≤ k from hk)]
    cases hbit : (inp k).bit with
    | true =>
      rw [if_pos rfl, if_pos rfl, List.length_append, List.length_singleton]
      bv_omega
    | false => simp

theorem clearReg_run {k : ℕ} (hmk : m + 2 ≤ k) (hkn : k ≤ n) :
    (run step s inp k).clearReg = decide (k = m + 2) := by
  obtain ⟨j, rfl⟩ : ∃ j, k = j + 2 := ⟨k - 2, by omega⟩
  have hclear : (run step s inp (j + 2)).clearReg = latch inp j := rfl
  rw [hclear]
  rcases Nat.eq_or_lt_of_le hmk with heq | hlt
  · rw [show j = m by omega, hmn.2.1]
    simp
  · rw [hmn.2.2.2 j (by omega) (by omega)]
    simp
    omega

/-- The word holds the bits received so far, from the third clock after the latch on. -/
theorem topBits_secondsTmp_run (hr : ∀ k, m < k → k < n → (inp k).reset = false) {k : ℕ}
    (hmk : m + 3 ≤ k) (hkn : k ≤ n) (hlen : (kept inp m k).length ≤ 32) :
    topBits (run step s inp k).secondsTmp (kept inp m k).length = kept inp m k := by
  induction k, hmk using Nat.le_induction with
  | base =>
    have hclear := clearReg_run (s := s) hmn le_rfl (show m + 2 ≤ n by omega)
    rw [run_succ, secondsTmp_step_of_clearReg (by simpa using hclear)]
    refine topBits_zero_word fun b hb => ?_
    obtain ⟨k, hk, rfl⟩ := List.mem_map.mp hb
    have hrange := List.mem_range'_1.mp (List.mem_of_mem_filter hk)
    rw [decide_eq_false (by omega), Bool.false_and]
  | succ k hk ih =>
    have hclear : (run step s inp k).clearReg = false := by
      rw [clearReg_run hmn (by omega) (by omega)]
      exact decide_eq_false (by omega)
    have hsucc : kept inp m (k + 1) =
        kept inp m k ++ if (inp k).bit then [(inp k).one] else [] := by
      unfold kept
      rw [record_succ (by omega), decide_eq_true (show m + 2 < k by omega), Bool.true_and]
    rw [run_succ, secondsTmp_step (hr k (by omega) (by omega)) hclear]
    rw [hsucc] at hlen ⊢
    cases hbit : (inp k).bit with
    | false =>
      simp only [hbit, Bool.false_eq_true, if_false, List.append_nil] at hlen ⊢
      exact ih (by omega) hlen
    | true =>
      simp only [hbit, if_true, List.length_append, List.length_singleton] at hlen ⊢
      -- the pointer is at the first place that is still free
      have hpos : (run step s inp k).pos.toNat = 32 - 1 - (kept inp m k).length := by
        rw [pos_run hmn (by omega) (by omega), ← length_kept]
        generalize (kept inp m k).length = len at hlen
        bv_omega
      rw [hpos, topBits_setBit _ _ (by omega), ih (by omega) (by omega)]

/-- **The latched word** is the bits received since the latch before, with those of its first two
clocks read as zeros. -/
theorem latched_word (hr : ∀ k, m < k → k < n → (inp k).reset = false)
    (hbits : (bits inp m n).length = 32) : wordBits (latched inp s n) = kept inp m n := by
  have hlen : (kept inp m n).length = 32 := (length_kept inp m n).trans hbits
  have hfar := length_bits_le inp m n
  have hword := topBits_secondsTmp_run (s := s) hmn hr (show m + 3 ≤ n by omega) le_rfl hlen.le
  unfold latched wordBits
  rw [run_succ, secondsReg_step_of_latch hmn.2.2.1]
  rwa [hlen] at hword

/-- What is latched depends on the inputs since the latch before alone. -/
theorem latched_congr (hr : ∀ k, m < k → k < n → (inp k).reset = false)
    (hbits : (bits inp m n).length = 32) {s' : State} {inp' : ℕ → Input}
    (heq : ∀ k, m ≤ k → k ≤ n → inp' k = inp k) : latched inp' s' n = latched inp s n := by
  obtain ⟨hlt, hm, hn, hnone⟩ := hmn
  have hlatch : ∀ k, m ≤ k → k ≤ n → latch inp' k = latch inp k := by
    intro k hmk hkn
    unfold latch
    rw [heq k hmk hkn]
  have hmn' : Consecutive (latch inp') m n :=
    ⟨hlt, (hlatch m le_rfl hlt.le).trans hm, (hlatch n hlt.le le_rfl).trans hn,
      fun u h1 h2 => (hlatch u h1.le h2.le).trans (hnone u h1 h2)⟩
  have hbits' : bits inp' m n = bits inp m n := by
    apply record_congr <;> intro k hmk hkn <;> rw [heq k (by omega) hkn.le]
  have hkept : kept inp' m n = kept inp m n := by
    apply record_congr <;> intro k hmk hkn <;> rw [heq k (by omega) hkn.le]
  apply Spi.wordBits_injective
  rw [latched_word ⟨hlt, hm, hn, hnone⟩ hr hbits, latched_word hmn' _ (by rw [hbits', hbits]),
    hkept]
  intro k hmk hkn
  rw [heq k hmk.le hkn.le]
  exact hr k hmk hkn

/-- **The time of day is decoded** if and only if the two clocks after the first latch bring no
one. -/
theorem time_decoded_iff (hr : ∀ k, m < k → k < n → (inp k).reset = false)
    (hbits : (bits inp m n).length = 32) :
    Decodes inp s m n ↔ (inp (m + 1)).one = false ∧ (inp (m + 2)).one = false := by
  have hlost : kept inp m n = bits inp m n ↔
      (inp (m + 1)).one = false ∧ (inp (m + 2)).one = false := by
    unfold kept bits
    rw [record_eq_iff]
    constructor
    · intro hall
      have hzero : ∀ k, m < k → k < n → k ≤ m + 2 → (inp k).one = false := by
        intro k hmk hkn hk
        by_contra hone
        rw [Bool.not_eq_false] at hone
        have hkept := hall k hmk hkn (bit_of_one hone)
        rw [decide_eq_false (by omega), Bool.false_and, hone] at hkept
        cases hkept
      have hfar := length_bits_le inp m n
      exact ⟨hzero _ (by omega) (by omega) (by omega), hzero _ (by omega) (by omega) le_rfl⟩
    · rintro ⟨h1, h2⟩ k hmk hkn -
      rcases Nat.lt_or_ge (m + 2) k with hlt | hge
      · rw [decide_eq_true hlt, Bool.true_and]
      · rw [decide_eq_false (by omega), Bool.false_and]
        rcases (show k = m + 1 ∨ k = m + 2 by omega) with rfl | rfl
        · exact h1.symm
        · exact h2.symm
  unfold Decodes
  rw [latched_word hmn hr hbits, hlost]
  exact and_iff_left fun s' inp' heq => latched_congr hmn hr hbits heq

end Run

/-! ## A word of ones -/

/-- The initial values. -/
def cleared : State := ⟨31, 0, 0, 0, false, false, 0⟩

/-- Two latches with 32 ones in a row before the second, `gap` clocks after the first. -/
def ones (gap n : ℕ) : Input where
  reset := false
  eventStream :=
    if n = 0 ∨ n = gap + 33 then 0x7D#8 else if gap < n ∧ n ≤ gap + 32 then 0x71#8 else 0#8

theorem latch_ones_iff (gap n : ℕ) : latch (ones gap) n = true ↔ n = 0 ∨ n = gap + 33 := by
  unfold latch Input.latch ones
  split_ifs <;> simp_all

theorem consecutive_ones (gap : ℕ) : Consecutive (latch (ones gap)) 0 (gap + 33) := by
  refine ⟨by omega, (latch_ones_iff gap 0).mpr (.inl rfl), (latch_ones_iff gap _).mpr (.inr rfl),
    fun u h1 h2 => ?_⟩
  rw [← Bool.not_eq_true, latch_ones_iff]
  omega

/-- Two clocks after the latch, the word of ones is decoded. -/
theorem ones_decoded : Decodes (ones 2) cleared 0 35 :=
  (time_decoded_iff (consecutive_ones 2) (fun _ _ _ => rfl) rfl).mpr ⟨rfl, rfl⟩

/-- Right after the latch, the word of ones loses its first two bits. -/
theorem ones_not_decoded : Consecutive (latch (ones 0)) 0 33 ∧ (bits (ones 0) 0 33).length = 32 ∧
    ¬Decodes (ones 0) cleared 0 33 := by
  refine ⟨consecutive_ones 0, rfl, fun h => ?_⟩
  have hkept : kept (ones 0) 0 33 = bits (ones 0) 0 33 :=
    (latched_word (consecutive_ones 0) (fun _ _ _ => rfl) rfl).symm.trans h.1
  have hfirst := congrArg List.head? hkept
  revert hfirst
  decide

end Psc.TimeOfDay
