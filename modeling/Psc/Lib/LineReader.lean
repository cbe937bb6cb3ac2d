import Mathlib.Tactic

/-!
# Reading lines into a buffer

A text is a sequence of lines, each with the character that ends it (`lines`). A reader with a
buffer of `n` characters hands over the front of the text up to the end of a line, or as much as
fits (`Reader`), so that a longer line comes in pieces (`pieces`). `Reader.front` is such a reader.

`readAll_eq`: what a reader hands over, up to the end of the text, are the pieces of its lines.
`flatMap_eq_iff` compares what is made of the pieces of a line with what is to be made of the line,
for all lines at once.
-/

namespace LineReader

variable {α : Type*}

/-! ## Lines -/

section Lines

variable [DecidableEq α] (eol : α)

/-- The lines of a text. -/
def lines : List α → List (List α)
  | [] => []
  | a :: s =>
    if a = eol then [a] :: lines s
    else
      match lines s with
      | [] => [[a]]
      | l :: ls => (a :: l) :: ls

/-- `l` is a line, with the text `t` behind it. -/
structure IsLine (l t : List α) : Prop where
  ne_nil : l ≠ []
  inner : eol ∉ l.dropLast
  ends : t = [] ∨ l.getLast? = some eol

variable {eol} {l s t : List α}

omit [DecidableEq α] in
theorem IsLine.cons {a : α} (h : IsLine eol l t) (ha : a ≠ eol) : IsLine eol (a :: l) t where
  ne_nil := List.cons_ne_nil a l
  inner := by
    rw [List.dropLast_cons_of_ne_nil h.ne_nil, List.mem_cons, not_or]
    exact ⟨ha.symm, h.inner⟩
  ends := h.ends.imp_right fun hlast => by
    rw [List.getLast?_cons, hlast]
    rfl

variable (eol) in
theorem exists_isLine (hs : s ≠ []) : ∃ l t, s = l ++ t ∧ IsLine eol l t := by
  induction s with
  | nil => exact absurd rfl hs
  | cons a s ih =>
    by_cases ha : a = eol
    · exact ⟨[a], s, rfl, ⟨List.cons_ne_nil _ _, by simp, Or.inr (by rw [ha]; rfl)⟩⟩
    · rcases eq_or_ne s [] with rfl | hne
      · exact ⟨[a], [], rfl, ⟨List.cons_ne_nil _ _, by simp, Or.inl rfl⟩⟩
      · obtain ⟨l, t, rfl, hline⟩ := ih hne
        exact ⟨a :: l, t, rfl, hline.cons ha⟩

theorem lines_append (h : IsLine eol l t) : lines eol (l ++ t) = l :: lines eol t := by
  induction l with
  | nil => exact absurd rfl h.ne_nil
  | cons a l ih =>
    rw [List.cons_append, lines]
    rcases eq_or_ne l [] with rfl | hne
    · split_ifs with ha
      · rfl
      · obtain rfl : t = [] := h.ends.resolve_right fun hlast => ha (by simpa using hlast)
        rfl
    · have hinner := h.inner
      rw [List.dropLast_cons_of_ne_nil hne, List.mem_cons, not_or] at hinner
      have htail : IsLine eol l t := ⟨hne, hinner.2, h.ends.imp_right fun hlast => by
        rwa [List.getLast?_cons_of_ne_nil hne] at hlast⟩
      rw [if_neg (Ne.symm hinner.1), ih htail]

omit [DecidableEq α] in
/-- A front of the text without an end of a line inside is the first line, or `n` characters of
it. -/
theorem IsLine.front {c r : List α} {n : ℕ} (hline : IsLine eol l t) (hsplit : l ++ t = c ++ r)
    (hinner : eol ∉ c.dropLast) (hend : c.length = n ∨ c.getLast? = some eol ∨ r = []) :
    (c = l ∧ r = t) ∨ ∃ l', l = c ++ l' ∧ r = l' ++ t ∧ c.length = n ∧ IsLine eol l' t := by
  rcases List.append_eq_append_iff.mp hsplit with ⟨u, rfl, rfl⟩ | ⟨l', rfl, rfl⟩
  · rcases eq_or_ne u [] with rfl | hu
    · exact Or.inl ⟨List.append_nil l, rfl⟩
    · -- more than the line would have its end inside
      have hlast := hline.ends.resolve_left (List.append_ne_nil_of_left_ne_nil hu r)
      rw [List.dropLast_append_of_ne_nil hu] at hinner
      exact absurd (List.mem_append_left _ (List.mem_of_getLast? hlast)) hinner
  · rcases eq_or_ne l' [] with rfl | hl'
    · exact Or.inl ⟨(List.append_nil c).symm, rfl⟩
    · have hin := hline.inner
      rw [List.dropLast_append_of_ne_nil hl', List.mem_append, not_or] at hin
      have hfull : c.length = n := by
        rcases hend with h | h | h
        · exact h
        · exact absurd (List.mem_of_getLast? h) hin.1
        · exact absurd (List.append_eq_nil_iff.mp h).1 hl'
      refine Or.inr ⟨l', rfl, rfl, hfull, hl', hin.2, hline.ends.imp_right fun hlast => ?_⟩
      rwa [List.getLast?_append_of_ne_nil _ hl'] at hlast

end Lines

/-! ## Pieces -/

/-- A text cut after every `n` characters. -/
def pieces (n : ℕ) (l : List α) : List (List α) :=
  (List.range ((l.length + n - 1) / n)).map fun j => (l.drop (n * j)).take n

section Pieces

variable {n : ℕ} {l : List α}

@[simp] theorem pieces_nil (hn : 0 < n) : pieces n ([] : List α) = [] := by
  unfold pieces
  rw [List.length_nil, Nat.div_eq_of_lt (by omega)]
  rfl

theorem pieces_of_ne_nil (hn : 0 < n) (hl : l ≠ []) :
    pieces n l = l.take n :: pieces n (l.drop n) := by
  have hpos := List.length_pos_iff.mpr hl
  have hcount : (l.length + n - 1) / n = ((l.drop n).length + n - 1) / n + 1 := by
    rw [List.length_drop, ← Nat.add_div_right _ hn]
    rcases le_total n l.length with h | h
    · congr 1
      omega
    · rw [Nat.div_eq_of_lt_le (k := 1), Nat.div_eq_of_lt_le (k := 1)] <;> omega
  unfold pieces
  rw [hcount, List.range_succ_eq_map, List.map_cons, List.map_map, Nat.mul_zero, List.drop_zero]
  refine congrArg _ (List.map_congr_left fun j _ => ?_)
  rw [Function.comp_apply, List.drop_drop, Nat.mul_succ, Nat.add_comm]

theorem pieces_of_le (hl : l ≠ []) (hle : l.length ≤ n) : pieces n l = [l] := by
  have hpos := List.length_pos_iff.mpr hl
  rw [pieces_of_ne_nil (by omega) hl, List.take_of_length_le hle, List.drop_eq_nil_of_le hle,
    pieces_nil (by omega)]

theorem forall_mem_pieces {P : List α → Prop} (hn : 0 < n) (hP : P []) :
    (∀ x ∈ pieces n l, P x) ↔ ∀ j, P ((l.drop (n * j)).take n) := by
  unfold pieces
  rw [List.forall_mem_map]
  constructor
  · intro h j
    by_cases hj : j < (l.length + n - 1) / n
    · exact h j (List.mem_range.mpr hj)
    · -- behind the last piece there is nothing
      have hlt := (Nat.div_lt_iff_lt_mul hn).mp (Nat.lt_succ_of_le (Nat.not_lt.mp hj))
      rw [Nat.succ_mul] at hlt
      have hle : l.length ≤ n * j := by
        rw [Nat.mul_comm]
        omega
      rw [List.drop_eq_nil_of_le hle, List.take_nil]
      exact hP
  · exact fun h j _ => h j

end Pieces

/-! ## Readers -/

/-- A reader of lines with a buffer of `n` characters. -/
structure Reader (eol : α) (n : ℕ) where
  read : List α → Option (List α × List α)
  read_nil : read [] = none
  read_some : ∀ s ≠ [], ∃ c r, read s = some (c, r) ∧ s = c ++ r ∧ c ≠ [] ∧ c.length ≤ n ∧
    eol ∉ c.dropLast ∧ (c.length = n ∨ c.getLast? = some eol ∨ r = [])

namespace Reader

variable {eol : α} {n : ℕ} (R : Reader eol n)

theorem length_lt {s c r : List α} (h : R.read s = some (c, r)) : r.length < s.length := by
  rcases eq_or_ne s [] with rfl | hs
  · rw [R.read_nil] at h
    cases h
  · obtain ⟨c', r', hread, hsplit, hne, -⟩ := R.read_some s hs
    obtain ⟨rfl, rfl⟩ := Prod.mk.inj (Option.some.inj (hread.symm.trans h))
    have := List.length_pos_iff.mpr hne
    rw [hsplit, List.length_append]
    omega

/-- All that is handed over until the end of the text. -/
def readAll (s : List α) : List (List α) :=
  match _h : R.read s with
  | none => []
  | some (c, r) => c :: readAll r
termination_by s.length
decreasing_by exact R.length_lt _h

theorem readAll_nil : R.readAll [] = [] := by
  rw [readAll]
  split
  · rfl
  · rename_i h
    rw [R.read_nil] at h
    cases h

theorem readAll_of_read {s c r : List α} (h : R.read s = some (c, r)) :
    R.readAll s = c :: R.readAll r := by
  rw [readAll]
  split
  · rename_i h'
    rw [h] at h'
    cases h'
  · rename_i h'
    obtain ⟨rfl, rfl⟩ := Prod.mk.inj (Option.some.inj (h'.symm.trans h))
    rfl

/-- **Reading a text.** What is handed over are the pieces of its lines. -/
theorem readAll_eq [DecidableEq α] (hn : 0 < n) (s : List α) :
    R.readAll s = (lines eol s).flatMap (pieces n) := by
  induction hs : s.length using Nat.strong_induction_on generalizing s with
  | _ k ih =>
    subst hs
    rcases eq_or_ne s [] with rfl | hne
    · rw [readAll_nil]
      rfl
    · obtain ⟨l, t, rfl, hline⟩ := exists_isLine eol hne
      obtain ⟨c, r, hread, hsplit, hc, hle, hinner, hend⟩ := R.read_some _ hne
      have hlt := R.length_lt hread
      rw [R.readAll_of_read hread, ih _ hlt r rfl, lines_append hline, List.flatMap_cons]
      rcases hline.front hsplit hinner hend with ⟨rfl, rfl⟩ | ⟨l', rfl, rfl, hfull, hline'⟩
      · rw [pieces_of_le hc hle]
        rfl
      · rw [lines_append hline', List.flatMap_cons, pieces_of_ne_nil hn hline.ne_nil,
          List.take_left' hfull, List.drop_left' hfull]
        rfl

end Reader

/-! ## A reader -/

section Front

variable [DecidableEq α] (eol : α)

/-- The front of a text, up to the end of a line or `n` characters. -/
def front : ℕ → List α → List α
  | 0, _ => []
  | _ + 1, [] => []
  | n + 1, a :: s => if a = eol then [a] else a :: front n s

theorem front_spec (n : ℕ) (s : List α) : ∃ r, s = front eol n s ++ r ∧
    (front eol n s).length ≤ n ∧ eol ∉ (front eol n s).dropLast ∧
      ((front eol n s).length = n ∨ (front eol n s).getLast? = some eol ∨ r = []) := by
  induction n generalizing s with
  | zero => exact ⟨s, rfl, le_rfl, List.not_mem_nil, Or.inl rfl⟩
  | succ n ih =>
    cases s with
    | nil => exact ⟨[], rfl, Nat.zero_le _, List.not_mem_nil, Or.inr (Or.inr rfl)⟩
    | cons a s =>
      rw [front]
      split_ifs with ha
      · exact ⟨s, rfl, Nat.le_add_left 1 n, List.not_mem_nil, Or.inr (Or.inl (by rw [ha]; rfl))⟩
      · obtain ⟨r, hsplit, hle, hinner, hend⟩ := ih s
        refine ⟨r, congrArg (a :: ·) hsplit, Nat.succ_le_succ hle, ?_, ?_⟩
        · cases hf : front eol n s with
          | nil => exact List.not_mem_nil
          | cons b f =>
            rw [hf] at hinner
            rw [List.dropLast_cons_of_ne_nil (List.cons_ne_nil b f), List.mem_cons, not_or]
            exact ⟨Ne.symm ha, hinner⟩
        · refine hend.imp (congrArg (· + 1)) (Or.imp_left fun hlast => ?_)
          rw [List.getLast?_cons, hlast]
          rfl

theorem front_ne_nil {n : ℕ} {s : List α} (hn : 0 < n) (hs : s ≠ []) : front eol n s ≠ [] := by
  obtain ⟨n, rfl⟩ := Nat.exists_eq_add_one.mpr hn
  obtain ⟨a, s, rfl⟩ := List.exists_cons_of_ne_nil hs
  rw [front]
  split_ifs <;> exact List.cons_ne_nil _ _

/-- The reader that hands over the front of the text. -/
def Reader.front (n : ℕ) (hn : 0 < n) : Reader eol n where
  read s :=
    let c := LineReader.front eol n s
    if s = [] then none else some (c, s.drop c.length)
  read_nil := rfl
  read_some s hs := by
    obtain ⟨r, hsplit, hle, hinner, hend⟩ := front_spec eol n s
    have hdrop : s.drop (LineReader.front eol n s).length = r :=
      (congrArg (List.drop _) hsplit).trans List.drop_left
    refine ⟨_, r, ?_, hsplit, front_ne_nil eol hn hs, hle, hinner, hend⟩
    dsimp only
    rw [if_neg hs, hdrop]

end Front

/-! ## All lines at once -/

/-- If `f` makes no less of a line than `g`, they make the same of all lines together only if they
do of each. -/
theorem flatMap_eq_iff {β γ : Type*} {f g : β → List γ} {L : List β}
    (hle : ∀ x ∈ L, (g x).length ≤ (f x).length) :
    L.flatMap f = L.flatMap g ↔ ∀ x ∈ L, f x = g x := by
  induction L with
  | nil => simp
  | cons x L ih =>
    rw [List.forall_mem_cons] at hle
    rw [List.flatMap_cons, List.flatMap_cons, List.forall_mem_cons, ← ih hle.2]
    constructor
    · intro h
      have htail : (L.flatMap g).length ≤ (L.flatMap f).length := by
        rw [List.length_flatMap, List.length_flatMap]
        exact List.sum_le_sum hle.2
      have hlen := congrArg List.length h
      rw [List.length_append, List.length_append] at hlen
      exact List.append_inj h (by omega)
    · rintro ⟨hx, hL⟩
      rw [hx, hL]

end LineReader
