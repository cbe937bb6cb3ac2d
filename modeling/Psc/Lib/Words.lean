import Mathlib.Tactic
import Mathlib.Data.List.TakeWhile

/-!
# The words of a text

A scanner skips what is blank and then takes a word (`nextWord`), and what is left is behind it
(`afterWord`). A character may be neither blank nor part of a word; it ends the scan.

A text that is cut has the same first word up to the cut as in full exactly if there is none or it
ends before the cut (`nextWord_append_iff`), and then what is left goes on behind the cut
(`afterWord_append`).
-/

namespace Words

variable {α : Type*}

section Scan

variable (blank word : α → Bool)

/-- The first word. -/
def nextWord (l : List α) : List α := (l.dropWhile blank).takeWhile word

/-- What is behind the first word. -/
def afterWord (l : List α) : List α := (l.dropWhile blank).dropWhile word

/-- A text without anything but blanks. -/
def Blank (l : List α) : Prop := ∀ a ∈ l, blank a = true

end Scan

section Append

variable {blank word : α → Bool} {p r : List α}

theorem dropWhile_eq_nil_iff : p.dropWhile blank = [] ↔ Blank blank p :=
  List.dropWhile_eq_nil_iff

variable (blank word) in
theorem afterWord_length_le (l : List α) : (afterWord blank word l).length ≤ l.length :=
  ((List.dropWhile_sublist _).trans (List.dropWhile_sublist _)).length_le

theorem dropWhile_append_of_not_blank (hp : ¬Blank blank p) :
    (p ++ r).dropWhile blank = p.dropWhile blank ++ r := by
  rw [List.dropWhile_append, if_neg]
  rwa [List.isEmpty_iff, dropWhile_eq_nil_iff]

variable (word r) in
theorem scan_append_of_blank (hp : Blank blank p) :
    nextWord blank word (p ++ r) = nextWord blank word r ∧
      afterWord blank word (p ++ r) = afterWord blank word r := by
  unfold nextWord afterWord
  rw [List.dropWhile_append_of_pos hp]
  exact ⟨rfl, rfl⟩

theorem nextWord_of_blank (hp : Blank blank p) : nextWord blank word p = [] := by
  unfold nextWord
  rw [dropWhile_eq_nil_iff.mpr hp, List.takeWhile_nil]

theorem afterWord_length_lt {l : List α} (hword : nextWord blank word l ≠ []) :
    (afterWord blank word l).length < l.length := by
  have hsplit := congrArg List.length
    (List.takeWhile_append_dropWhile (p := word) (l := l.dropWhile blank))
  have hle := (List.dropWhile_sublist (l := l) blank).length_le
  have hpos := List.length_pos_iff.mpr hword
  rw [List.length_append] at hsplit
  unfold afterWord
  unfold nextWord at hpos
  omega

variable (p r) in
/-- Nothing behind a character that is neither blank nor part of a word is scanned. -/
theorem scan_append_stop {z : α} (hblank : blank z = false) (hword : word z = false) :
    nextWord blank word (p ++ z :: r) = nextWord blank word p ∧
      afterWord blank word (p ++ z :: r) = afterWord blank word p ++ z :: r := by
  unfold nextWord afterWord
  have hskip : (p ++ z :: r).dropWhile blank = p.dropWhile blank ++ z :: r := by
    rw [List.dropWhile_append]
    split_ifs with hall
    · rw [List.isEmpty_iff.mp hall, List.dropWhile_cons_of_neg (by simp [hblank]), List.nil_append]
    · rfl
  rw [hskip]
  generalize p.dropWhile blank = q
  induction q with
  | nil =>
    rw [List.nil_append, List.takeWhile_cons_of_neg (by simp [hword]),
      List.dropWhile_cons_of_neg (by simp [hword])]
    exact ⟨rfl, rfl⟩
  | cons c q ih =>
    rw [List.cons_append, List.takeWhile_cons, List.takeWhile_cons, List.dropWhile_cons,
      List.dropWhile_cons]
    split_ifs
    · exact ⟨congrArg _ ih.1, ih.2⟩
    · exact ⟨rfl, rfl⟩

/-- Behind something that is not blank the scan goes on where the cut was, unless a word is cut. -/
theorem afterWord_append (hp : ¬Blank blank p)
    (hword : nextWord blank word (p ++ r) = nextWord blank word p) :
    afterWord blank word (p ++ r) = afterWord blank word p ++ r := by
  unfold nextWord at hword
  unfold afterWord
  rw [dropWhile_append_of_not_blank hp] at hword ⊢
  have h₁ := List.takeWhile_append_dropWhile (p := word) (l := p.dropWhile blank ++ r)
  have h₂ := List.takeWhile_append_dropWhile (p := word) (l := p.dropWhile blank)
  rw [hword] at h₁
  refine List.append_cancel_left (h₁.trans ?_)
  rw [← List.append_assoc, h₂]

variable (blank word p r) in
/-- **A text that is cut.** Its first word is the same up to the cut if there is none or if it ends
before the cut. -/
theorem nextWord_append_iff : nextWord blank word (p ++ r) = nextWord blank word p ↔
    nextWord blank word (p ++ r) = [] ∨
      (p ++ r).length - (afterWord blank word (p ++ r)).length ≤ p.length := by
  by_cases hp : Blank blank p
  · -- a word can only be behind the cut
    obtain ⟨hnext, hafter⟩ := scan_append_of_blank word r hp
    rw [hnext, hafter, nextWord_of_blank hp, List.length_append]
    constructor
    · exact Or.inl
    · rintro (h | h)
      · exact h
      · by_contra hword
        have := afterWord_length_lt hword
        omega
  · constructor
    · intro hword
      right
      rw [afterWord_append hp hword, List.length_append, List.length_append]
      omega
    · unfold nextWord afterWord
      rw [dropWhile_append_of_not_blank hp, List.takeWhile_append]
      split_ifs with hall
      · -- the word runs up to the cut
        have hself : (p.dropWhile blank).takeWhile word = p.dropWhile blank :=
          (List.takeWhile_prefix word).eq_of_length hall
        have hsplit := congrArg List.length
          (List.takeWhile_append_dropWhile (p := word) (l := p.dropWhile blank ++ r))
        rw [List.takeWhile_append, if_pos hall, List.length_append, List.length_append,
          List.length_append] at hsplit
        rw [List.length_append, hself]
        rintro (h | h)
        · rw [(List.append_eq_nil_iff.mp h).2, List.append_nil]
        · have hnone : r.takeWhile word = [] := List.length_eq_zero_iff.mp (by omega)
          rw [hnone, List.append_nil]
      · exact fun _ => rfl

end Append

end Words
