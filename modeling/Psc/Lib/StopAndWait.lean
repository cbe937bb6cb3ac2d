import Mathlib.Tactic

/-!
# Transfers by numbered blocks

A file is sent in blocks of one size, numbered from 1, and ends with a block that is shorter. A
packet carries a block and the number of it modulo `2 ^ w`; packets are lost, repeated and
reordered. The receiver takes the block with the next number and drops all others (`receive`).

1. A number is not mistaken for that of a block less than `2 ^ w` away (`number_eq_iff`).
2. As long as it is not, what has been received are the first blocks (`receive_firstBlocks`,
`foldl_receive`).
3. The first blocks are a front of the file (`flatten_firstBlocks`), and all of it as soon as one is
short (`flatten_firstBlocks_of_short`).
-/

namespace StopAndWait

variable {α : Type*} {w : ℕ}

/-- What a packet says about which block it carries. -/
def number (w j : ℕ) : BitVec w := BitVec.ofNat w j

theorem number_succ (w j : ℕ) : number w (j + 1) = number w j + 1 := by
  unfold number
  rw [BitVec.ofNat_add]
  rfl

theorem number_eq_iff {i j : ℕ} (hij : i < j + 2 ^ w) (hji : j < i + 2 ^ w) :
    number w i = number w j ↔ i = j := by
  constructor
  · intro h
    have hmod : i % 2 ^ w = j % 2 ^ w := by
      simpa [number] using congrArg BitVec.toNat h
    obtain hle | hle := Nat.le_total i j
    · have hdvd : 2 ^ w ∣ j - i := (Nat.modEq_iff_dvd' hle).mp hmod
      have hzero := Nat.eq_zero_of_dvd_of_lt hdvd (by omega)
      omega
    · have hdvd : 2 ^ w ∣ i - j := (Nat.modEq_iff_dvd' hle).mp hmod.symm
      have hzero := Nat.eq_zero_of_dvd_of_lt hdvd (by omega)
      omega
  · rintro rfl
    rfl

/-! ## Receiving -/

/-- The blocks 1 to `n`. -/
def firstBlocks (block : ℕ → α) (n : ℕ) : List α := (List.range n).map fun i => block (i + 1)

@[simp] theorem firstBlocks_zero (block : ℕ → α) : firstBlocks block 0 = [] := rfl

@[simp] theorem length_firstBlocks (block : ℕ → α) (n : ℕ) : (firstBlocks block n).length = n := by
  simp [firstBlocks]

theorem firstBlocks_succ (block : ℕ → α) (n : ℕ) :
    firstBlocks block (n + 1) = firstBlocks block n ++ [block (n + 1)] := by
  simp [firstBlocks, List.range_succ]

theorem mem_firstBlocks {block : ℕ → α} {n : ℕ} {b : α} :
    b ∈ firstBlocks block n ↔ ∃ i < n, block (i + 1) = b := by
  simp [firstBlocks]

/-- What the receiver has after one more packet. -/
def receive (got : List α) (p : BitVec w × α) : List α :=
  if p.1 = number w (got.length + 1) then got ++ [p.2] else got

/-- A packet with a number that is not mistaken leaves the receiver with one block more, the next
one, or with what it had. -/
theorem receive_firstBlocks {block : ℕ → α} {n j : ℕ}
    (h : number w j = number w (n + 1) → j = n + 1) :
    receive (firstBlocks block n) (number w j, block j) =
      firstBlocks block (if j = n + 1 then n + 1 else n) := by
  unfold receive
  rw [length_firstBlocks]
  by_cases hj : j = n + 1
  · subst hj
    rw [if_pos rfl, if_pos rfl, firstBlocks_succ]
  · rw [if_neg fun heq => hj (h heq), if_neg hj]

/-- Whatever packets of a transfer of less than `2 ^ w` blocks arrive, in whatever order and however
often, what has been received are the first blocks of it. -/
theorem foldl_receive {block : ℕ → α} {n : ℕ} (hn : n < 2 ^ w) {ps : List (BitVec w × α)}
    (hps : ∀ p ∈ ps, ∃ j, 1 ≤ j ∧ j ≤ n ∧ p = (number w j, block j)) :
    ∃ k ≤ n, ps.foldl receive [] = firstBlocks block k := by
  induction ps using List.reverseRecOn with
  | nil => exact ⟨0, Nat.zero_le _, rfl⟩
  | append_singleton ps p ih =>
    obtain ⟨k, hk, hfold⟩ := ih fun p hp => hps p (by simp [hp])
    obtain ⟨j, hj, hjn, rfl⟩ := hps p (by simp)
    have hnum : number w j = number w (k + 1) → j = k + 1 :=
      (number_eq_iff (by omega) (by omega)).mp
    refine ⟨if j = k + 1 then k + 1 else k, ?_, ?_⟩
    · split_ifs <;> omega
    · rw [List.foldl_append, hfold, List.foldl_cons, List.foldl_nil, receive_firstBlocks hnum]

/-! ## Files -/

/-- Block `k` of a file. -/
def block (size : ℕ) (file : List α) (k : ℕ) : List α := (file.drop (size * (k - 1))).take size

theorem flatten_firstBlocks (size : ℕ) (file : List α) (n : ℕ) :
    (firstBlocks (block size file) n).flatten = file.take (size * n) := by
  induction n with
  | zero => simp
  | succ n ih =>
    rw [firstBlocks_succ, List.flatten_append, ih, List.flatten_singleton, block,
      Nat.add_sub_cancel, Nat.mul_succ, List.take_add]

theorem length_block_lt_iff {size n : ℕ} (hsize : 0 < size) (file : List α) :
    (block size file (n + 1)).length < size ↔ file.length < size * (n + 1) := by
  rw [block, List.length_take, List.length_drop, Nat.add_sub_cancel, Nat.mul_succ]
  omega

/-- The blocks up to one that is short are the file. -/
theorem flatten_firstBlocks_of_short {size n : ℕ} {file : List α}
    (h : (block size file (n + 1)).length < size) :
    (firstBlocks (block size file) (n + 1)).flatten = file := by
  have hlen := (length_block_lt_iff (Nat.zero_lt_of_lt h) file).mp h
  rw [flatten_firstBlocks, List.take_of_length_le hlen.le]

end StopAndWait
