import Mathlib.Tactic
import Mathlib.Data.List.TakeWhile
import Mathlib.Data.List.GetD

/-!
# Strings that are ended by a character

A pointer to a string is the memory from it on. The string is what comes before the first `nul`
(`str`), of which there is one behind the end of the memory at the latest.

Reading a character that is not `nul` shows that the next one may be read (`succ_le_length_str`),
and up to the end the memory and the string read the same (`getD_str`).
-/

namespace CString

variable {α : Type*} [DecidableEq α] (nul : α)

/-- The string at a pointer. -/
def str (p : List α) : List α := p.takeWhile fun c => decide (c ≠ nul)

variable {nul} {p s : List α} {k : ℕ}

theorem not_mem_str : nul ∉ str nul p := by
  intro h
  simpa using List.mem_takeWhile_imp h

theorem str_of_not_mem (hs : nul ∉ s) : str nul s = s :=
  List.takeWhile_eq_self_iff.mpr fun _ hc => decide_eq_true (ne_of_mem_of_not_mem hc hs)

@[simp] theorem str_str : str nul (str nul p) = str nul p := str_of_not_mem not_mem_str

theorem str_append (hs : nul ∉ s) (t : List α) : str nul (s ++ nul :: t) = s := by
  unfold str
  rw [List.takeWhile_append_of_pos fun c hc => decide_eq_true (ne_of_mem_of_not_mem hc hs),
    List.takeWhile_cons_of_neg (by simp), List.append_nil]

theorem str_cons (c : α) (p : List α) :
    str nul (c :: p) = if c = nul then [] else c :: str nul p := by
  unfold str
  split_ifs with h
  · rw [List.takeWhile_cons_of_neg (by simp [h])]
  · rw [List.takeWhile_cons_of_pos (by simp [h])]

theorem str_eq (p : List α) :
    str nul p = if p.getD 0 nul = nul then [] else p.getD 0 nul :: str nul (p.drop 1) := by
  cases p with
  | nil => rw [List.getD_nil, if_pos rfl]; rfl
  | cons c p => exact str_cons c p

theorem str_eq_nil_iff : str nul p = [] ↔ p.getD 0 nul = nul := by
  rw [str_eq]
  split_ifs with h
  · exact iff_of_true rfl h
  · exact iff_of_false not_false h

theorem str_eq_cons_iff {c : α} : str nul p = c :: s ↔
    (p.getD 0 nul = c ∧ c ≠ nul) ∧ str nul (p.drop 1) = s := by
  rw [str_eq]
  split_ifs with h
  · constructor
    · rintro ⟨⟩
    · rintro ⟨⟨rfl, hne⟩, -⟩
      exact absurd h hne
  · rw [List.cons.injEq]
    constructor
    · rintro ⟨rfl, hs⟩
      exact ⟨⟨rfl, h⟩, hs⟩
    · rintro ⟨⟨rfl, -⟩, hs⟩
      exact ⟨rfl, hs⟩

theorem str_set_takeWhile {f : α → Bool} (hf : f nul = false) :
    str nul (p.set (p.takeWhile f).length nul) = p.takeWhile f := by
  induction p with
  | nil => rfl
  | cons c p ih =>
    cases hc : f c with
    | true =>
      have hne : c ≠ nul := fun h => by simp [← h, hc] at hf
      rw [List.takeWhile_cons_of_pos hc, List.length_cons, List.set_cons_succ, str_cons, if_neg hne,
        ih]
    | false =>
      rw [List.takeWhile_cons_of_neg (by simp [hc]), List.length_nil, List.set_cons_zero, str_cons,
        if_pos rfl]

theorem str_set_of_lt (a : α) (hk : (str nul p).length < k) : str nul (p.set k a) = str nul p := by
  induction p generalizing k with
  | nil => rfl
  | cons c p ih =>
    obtain ⟨k, rfl⟩ := Nat.exists_eq_add_one.mpr (Nat.zero_lt_of_lt hk)
    rw [str_cons] at hk
    rw [List.set_cons_succ, str_cons, str_cons]
    split_ifs at hk ⊢ with hc
    · rfl
    · rw [ih (by simpa using hk)]

/-- Up to its end a string is read where it is stored. -/
theorem getD_str (hk : k ≤ (str nul p).length) : (str nul p).getD k nul = p.getD k nul := by
  induction p generalizing k with
  | nil => rfl
  | cons c p ih =>
    rw [str_cons] at hk ⊢
    split_ifs at hk ⊢ with hc
    · obtain rfl : k = 0 := by simpa using hk
      exact hc.symm
    · cases k with
      | zero => rfl
      | succ k => exact ih (by simpa using hk)

/-- Behind a character that does not end the string the next may be read. -/
theorem succ_le_length_str (hk : k ≤ (str nul p).length) (hne : p.getD k nul ≠ nul) :
    k + 1 ≤ (str nul p).length := by
  rcases Nat.lt_or_eq_of_le hk with hlt | rfl
  · exact hlt
  · rw [← getD_str le_rfl, List.getD_eq_default _ _ le_rfl] at hne
    exact absurd rfl hne

end CString
