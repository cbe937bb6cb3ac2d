import Psc.Net.Directives

/-!
# Lines and pieces of NET.CNF

`f_gets` hands over at most 63 characters, so `sdcard_netconf` takes every 63 characters of a long
line for a line of their own.

1. `directive_append_eq_iff`: a piece says what the line says if nothing of it is cut off.
2. `filterMap_pieces_eq_iff`: the pieces say what the line says if it `Fits`, which every line of up
   to 63 characters does (`fits_of_le`).
3. `byLines_iff`: the file is processed by lines exactly if all of them fit.
-/

namespace Psc.Net

open LineReader Words

/-! ## Lines that fit -/

/-- How far a directive reaches: to the end of its argument, or of its command if there is none. -/
def extent (l : List Byte) : ℕ :=
  let rest := afterWord isspace inWord l
  match directive l with
  | none => 0
  | some (_, none) => l.length - rest.length
  | some (_, some _) => l.length - (afterWord isspace inWord rest).length

/-- A line, cut after every `n` characters, has only blanks in front of one of its pieces, all of
its directive in it, and blanks or comments behind it. -/
def Fits (n : ℕ) (l : List Byte) : Prop :=
  ∃ i, Blank isspace (l.take (n * i)) ∧ extent l ≤ n * (i + 1) ∧
    ∀ j, i < j → directive ((l.drop (n * j)).take n) = none

theorem wordOf_inj {w w' : List Byte} : wordOf w = wordOf w' ↔ w = w' := by
  unfold wordOf
  constructor
  · intro h
    split_ifs at h with hw hw'
    · rw [hw, hw']
    · exact Option.some.inj h
  · rintro rfl
    rfl

theorem directive_nil : directive [] = none := rfl

section Cut

variable {p r : List Byte}

theorem directive_append_of_blank (hp : Blank isspace p) : directive (p ++ r) = directive r := by
  unfold directive
  rw [(scan_append_of_blank inWord r hp).1, (scan_append_of_blank inWord r hp).2]

theorem directive_of_blank (hp : Blank isspace p) : directive p = none := by
  have h := directive_append_of_blank (r := []) hp
  rwa [List.append_nil, directive_nil] at h

theorem directive_eq_none_iff {l : List Byte} : directive l = none ↔
    (l.dropWhile isspace).getD 0 0 = 0 ∨ (l.dropWhile isspace).getD 0 0 = 0x23 := by
  have hskips := skips_iff l
  rw [← getD_drop, drop_scan, List.drop_zero] at hskips
  rw [hskips]
  unfold directive
  dsimp only
  split_ifs with h
  · exact iff_of_true rfl h
  · exact iff_of_false (by rintro ⟨⟩) h

theorem directive_of_ne_none {l : List Byte} (h : directive l ≠ none) : directive l =
    some (nextWord isspace inWord l,
      wordOf (nextWord isspace inWord (afterWord isspace inWord l))) := by
  unfold directive at h ⊢
  dsimp only at h ⊢
  split_ifs at h ⊢
  · exact absurd rfl h
  · rfl

theorem nextWord_ne_nil {l : List Byte} (h : directive l ≠ none) :
    nextWord isspace inWord l ≠ [] := by
  rw [Ne, nextWord_eq_nil_iff]
  exact fun hnul => h (directive_eq_none_iff.mpr (Or.inl hnul))

theorem extent_eq {l : List Byte} (h : directive l ≠ none) : extent l =
    if nextWord isspace inWord (afterWord isspace inWord l) = [] then
      l.length - (afterWord isspace inWord l).length
    else l.length - (afterWord isspace inWord (afterWord isspace inWord l)).length := by
  unfold extent
  rw [directive_of_ne_none h, wordOf]
  split_ifs <;> rfl

theorem directive_append_eq_none_iff (hp : ¬Blank isspace p) :
    directive (p ++ r) = none ↔ directive p = none := by
  rw [directive_eq_none_iff, directive_eq_none_iff, dropWhile_append_of_not_blank hp]
  rw [← dropWhile_eq_nil_iff] at hp
  obtain ⟨c, q, hq⟩ := List.exists_cons_of_ne_nil hp
  rw [hq]
  rfl

/-- **A line that is cut.** Its front says what the line says if the directive is in it. -/
theorem directive_append_eq_iff (hp : ¬Blank isspace p) (h : directive (p ++ r) ≠ none) :
    directive p = directive (p ++ r) ↔ extent (p ++ r) ≤ p.length := by
  have h' : directive p ≠ none := mt (directive_append_eq_none_iff hp).mpr h
  have hcmd : nextWord isspace inWord (p ++ r) = nextWord isspace inWord p ↔
      (p ++ r).length - (afterWord isspace inWord (p ++ r)).length ≤ p.length :=
    (nextWord_append_iff isspace inWord p r).trans (or_iff_right (nextWord_ne_nil h))
  have hle := afterWord_length_le isspace inWord (afterWord isspace inWord (p ++ r))
  rw [directive_of_ne_none h, directive_of_ne_none h', Option.some.injEq, Prod.mk.injEq, wordOf_inj,
    extent_eq h]
  by_cases hend : (p ++ r).length - (afterWord isspace inWord (p ++ r)).length ≤ p.length
  · -- the command is not cut, and what is behind it is
    have hsame := hcmd.mpr hend
    have hafter := afterWord_append hp hsame
    have harg := nextWord_append_iff isspace inWord (afterWord isspace inWord p) r
    have hlen := congrArg List.length hafter
    rw [← hafter] at harg
    rw [List.length_append] at hlen
    rw [and_iff_right hsame.symm, eq_comm, harg]
    split_ifs with hnone
    · exact iff_of_true (Or.inl hnone) hend
    · rw [or_iff_right hnone, hlen, List.length_append]
      omega
  · refine iff_of_false (fun hsame => hend (hcmd.mp hsame.1.symm)) ?_
    split_ifs
    · exact hend
    · omega

end Cut

/-! ## Pieces -/

section Pieces

variable {n : ℕ} {l : List Byte}

theorem extent_le (l : List Byte) : extent l ≤ l.length := by
  unfold extent
  dsimp only
  split <;> omega

/-- A line without a piece behind the first fits. -/
theorem fits_of_le (hle : l.length ≤ n) : Fits n l := by
  refine ⟨0, ?_, ?_, fun j hj => ?_⟩
  · rw [Nat.mul_zero, List.take_zero]
    exact List.forall_mem_nil _
  · have := extent_le l
    omega
  · have hdrop : l.length ≤ n * j := hle.trans (Nat.le_mul_of_pos_right n hj)
    rw [List.drop_eq_nil_of_le hdrop, List.take_nil, directive_nil]

theorem extent_of_none (h : directive l = none) : extent l = 0 := by
  unfold extent
  rw [h]

theorem extent_pos (h : directive l ≠ none) : 0 < extent l := by
  have hlt := afterWord_length_lt (nextWord_ne_nil h)
  have hle := afterWord_length_le isspace inWord (afterWord isspace inWord l)
  rw [extent_eq h]
  split_ifs <;> omega

variable {p r : List Byte}

theorem extent_append_of_blank (hp : Blank isspace p) (h : directive r ≠ none) :
    extent (p ++ r) = p.length + extent r := by
  have h₁ := afterWord_length_le isspace inWord r
  have h₂ := afterWord_length_le isspace inWord (afterWord isspace inWord r)
  have h' : directive (p ++ r) ≠ none := by rwa [directive_append_of_blank hp]
  rw [extent_eq h, extent_eq h', (scan_append_of_blank inWord r hp).2, List.length_append]
  split_ifs <;> omega

theorem take_append_piece (hlen : p.length = n) (i : ℕ) :
    (p ++ r).take (n * (i + 1)) = p ++ r.take (n * i) := by
  rw [Nat.mul_succ, Nat.add_comm, ← hlen, List.take_length_add_append]

theorem drop_append_piece (hlen : p.length = n) (i : ℕ) :
    (p ++ r).drop (n * (i + 1)) = r.drop (n * i) := by
  rw [Nat.mul_succ, Nat.add_comm, ← hlen, List.drop_length_add_append]

theorem extent_append_le_iff (hp : Blank isspace p) (hlen : p.length = n) (i : ℕ) :
    extent (p ++ r) ≤ n * (i + 1 + 1) ↔ extent r ≤ n * (i + 1) := by
  by_cases hnone : directive r = none
  · have hnone' : directive (p ++ r) = none := by rwa [directive_append_of_blank hp]
    rw [extent_of_none hnone, extent_of_none hnone']
    exact iff_of_true (Nat.zero_le _) (Nat.zero_le _)
  · rw [extent_append_of_blank hp hnone, Nat.mul_succ n (i + 1)]
    omega

/-- Blanks that fill a piece do not count. -/
theorem fits_append_of_blank (hp : Blank isspace p) (hlen : p.length = n) :
    Fits n (p ++ r) ↔ Fits n r := by
  constructor
  · rintro ⟨i, hblank, hextent, hlater⟩
    have hrest : ∀ j, i < j + 1 → directive ((r.drop (n * j)).take n) = none := fun j hj =>
      drop_append_piece (r := r) hlen j ▸ hlater (j + 1) hj
    cases i with
    | zero =>
      -- nothing of a directive behind the blanks is in the first piece
      have hnone : directive r = none := by
        by_contra hsome
        rw [extent_append_of_blank hp hsome] at hextent
        have := extent_pos hsome
        omega
      refine ⟨0, ?_, ?_, fun j hj => hrest j (by omega)⟩
      · rw [Nat.mul_zero, List.take_zero]
        exact List.forall_mem_nil _
      · rw [extent_of_none hnone]
        exact Nat.zero_le _
    | succ i =>
      rw [take_append_piece hlen] at hblank
      exact ⟨i, (List.forall_mem_append.mp hblank).2, (extent_append_le_iff hp hlen i).mp hextent,
        fun j hj => hrest j (by omega)⟩
  · rintro ⟨i, hblank, hextent, hlater⟩
    refine ⟨i + 1, ?_, (extent_append_le_iff hp hlen i).mpr hextent, fun j hj => ?_⟩
    · rw [take_append_piece hlen]
      exact List.forall_mem_append.mpr ⟨hp, hblank⟩
    · obtain ⟨j, rfl⟩ := Nat.exists_eq_add_one.mpr (Nat.zero_lt_of_lt hj)
      rw [drop_append_piece hlen]
      exact hlater j (by omega)

/-- If there is something in the first piece, the directive has to be there. -/
theorem fits_append_iff (hn : 0 < n) (hp : ¬Blank isspace p) (hlen : p.length = n) :
    Fits n (p ++ r) ↔ extent (p ++ r) ≤ n ∧ ∀ x ∈ pieces n r, directive x = none := by
  rw [forall_mem_pieces hn directive_nil]
  constructor
  · rintro ⟨i, hblank, hextent, hlater⟩
    cases i with
    | zero =>
      refine ⟨by rwa [Nat.zero_add, Nat.mul_one] at hextent, fun j => ?_⟩
      rw [← drop_append_piece hlen]
      exact hlater (j + 1) j.succ_pos
    | succ i =>
      rw [take_append_piece hlen] at hblank
      exact absurd (List.forall_mem_append.mp hblank).1 hp
  · rintro ⟨hextent, hlater⟩
    refine ⟨0, ?_, by rwa [Nat.zero_add, Nat.mul_one], fun j hj => ?_⟩
    · rw [Nat.mul_zero, List.take_zero]
      exact List.forall_mem_nil _
    · obtain ⟨j, rfl⟩ := Nat.exists_eq_add_one.mpr hj
      rw [drop_append_piece hlen]
      exact hlater j

theorem filterMap_directive_cons (x : List Byte) (xs : List (List Byte)) :
    (x :: xs).filterMap directive = (directive x).toList ++ xs.filterMap directive := by
  cases h : directive x with
  | none => rw [List.filterMap_cons_none h, Option.toList_none, List.nil_append]
  | some d => rw [List.filterMap_cons_some h, Option.toList_some, List.singleton_append]

theorem pieces_cases (hn : 0 < n) (l : List Byte) :
    (l.length ≤ n ∧ (pieces n l).filterMap directive = (directive l).toList) ∨
      ∃ p r, l = p ++ r ∧ p.length = n ∧
        (pieces n l).filterMap directive =
          (directive p).toList ++ (pieces n r).filterMap directive := by
  rcases Nat.lt_or_ge n l.length with hlong | hshort
  · right
    refine ⟨l.take n, l.drop n, (List.take_append_drop n l).symm,
      List.length_take_of_le hlong.le, ?_⟩
    rw [pieces_of_ne_nil hn (List.ne_nil_of_length_pos (by omega)), filterMap_directive_cons]
  · refine Or.inl ⟨hshort, ?_⟩
    rcases eq_or_ne l [] with rfl | hne
    · rw [pieces_nil hn]
      rfl
    · rw [pieces_of_le hne hshort, filterMap_directive_cons, List.filterMap_nil, List.append_nil]

/-- **Pieces of a line.** They say what the line says exactly if it fits, and never less. -/
theorem filterMap_pieces_eq_iff (hn : 0 < n) (l : List Byte) :
    ((pieces n l).filterMap directive = (directive l).toList ↔ Fits n l) ∧
      (directive l).toList.length ≤ ((pieces n l).filterMap directive).length := by
  induction hk : l.length using Nat.strong_induction_on generalizing l with
  | _ k ih =>
    subst hk
    rcases pieces_cases hn l with ⟨hle, heq⟩ | ⟨p, r, rfl, hlen, heq⟩
    · rw [heq]
      exact ⟨iff_of_true rfl (fits_of_le hle), le_rfl⟩
    · rw [heq]
      by_cases hp : Blank isspace p
      · rw [directive_of_blank hp, directive_append_of_blank hp, fits_append_of_blank hp hlen]
        exact ih r.length (by rw [List.length_append]; omega) r rfl
      · rw [fits_append_iff hn hp hlen, ← List.filterMap_eq_nil_iff]
        by_cases hnone : directive (p ++ r) = none
        · rw [hnone, (directive_append_eq_none_iff hp).mp hnone, extent_of_none hnone]
          exact ⟨(and_iff_right (Nat.zero_le n)).symm, Nat.zero_le _⟩
        · have hsame := directive_append_eq_iff hp hnone
          rw [hlen] at hsame
          rw [← hsame]
          obtain ⟨d, hd⟩ := Option.ne_none_iff_exists'.mp hnone
          obtain ⟨d', hd'⟩ := Option.ne_none_iff_exists'.mp
            (mt (directive_append_eq_none_iff hp).mpr hnone)
          rw [hd, hd', Option.toList_some, Option.toList_some, List.singleton_append,
            List.cons.injEq, Option.some.injEq]
          exact ⟨Iff.rfl, Nat.le_add_left 1 _⟩

end Pieces

/-! ## Files -/

section Files

variable (ext : Externals) (fGets : Reader newline 63) (s : NetConfState) (file : List Byte)

/-- What directives make of a configuration. -/
def configure (conf : NetConfig) (ds : List Directive) : NetConfig :=
  ds.foldl (fun conf d => (execDirective ext conf d.1 d.2).1) conf

/-- The lines of the file are taken one by one, and each says what it says whatever its length. -/
structure ByLines : Prop where
  directives : (sdcardNetconf ext fGets s file).directives =
    s.directives ++ (lines newline file).filterMap directive
  conf : (sdcardNetconf ext fGets s file).conf =
    configure ext s.conf ((lines newline file).filterMap directive)

theorem foldl_take (ds : List Directive) :
    (ds.foldl (NetConfState.take ext) s).directives = s.directives ++ ds ∧
      (ds.foldl (NetConfState.take ext) s).conf = configure ext s.conf ds := by
  induction ds generalizing s with
  | nil => exact ⟨(List.append_nil _).symm, rfl⟩
  | cons d ds ih =>
    obtain ⟨hdirectives, hconf⟩ := ih (s.take ext d)
    exact ⟨hdirectives.trans (List.append_assoc _ [d] ds), hconf⟩

theorem sdcardNetconf_eq :
    (sdcardNetconf ext fGets s file).directives = s.directives ++
        (lines newline file).flatMap (fun l => (pieces 63 l).filterMap directive) ∧
      (sdcardNetconf ext fGets s file).conf = configure ext s.conf
        ((lines newline file).flatMap fun l => (pieces 63 l).filterMap directive) := by
  obtain ⟨lbuf, hrun⟩ := foldl_netconfLine ext s (fGets.readAll file)
  have htake := foldl_take ext s ((fGets.readAll file).filterMap directive)
  unfold sdcardNetconf
  rw [hrun]
  rwa [fGets.readAll_eq (Nat.succ_pos 62), List.filterMap_flatMap] at htake ⊢

/-- **Physical lines.** A file is processed by lines exactly if all of them fit. -/
theorem byLines_iff :
    ByLines ext fGets s file ↔ ∀ l ∈ lines newline file, Fits 63 l := by
  obtain ⟨hdirectives, hconf⟩ := sdcardNetconf_eq ext fGets s file
  have hline := filterMap_pieces_eq_iff (Nat.succ_pos 62)
  have hall := (flatMap_eq_iff fun l (_ : l ∈ lines newline file) => (hline l).2).trans
    (forall₂_congr fun l _ => (hline l).1)
  rw [← List.filterMap_eq_flatMap_toList] at hall
  rw [← hall]
  constructor
  · intro h
    exact List.append_cancel_left (hdirectives.symm.trans h.directives)
  · intro h
    rw [h] at hdirectives hconf
    exact ⟨hdirectives, hconf⟩

end Files

/-- The front of the file, up to the end of a line or 63 characters. -/
def fGetsFront : Reader newline 63 := Reader.front newline 63 (Nat.succ_pos 62)

/-- A comment of 70 characters. -/
def longComment : List Byte := List.replicate 63 0x23 ++ ascii "dhcp no\n"

/-- The end of a long comment is taken as a directive. -/
theorem comment_tail_taken :
    (lines newline longComment).filterMap directive = [] ∧
      (sdcardNetconf noExternals fGetsFront startState longComment).conf.useStatic = 1 ∧
      ¬ByLines noExternals fGetsFront startState longComment := by
  have hlines : (lines newline longComment).filterMap directive = [] := by decide +kernel
  have htaken :
      (sdcardNetconf noExternals fGetsFront startState longComment).conf.useStatic = 1 := by
    rw [(sdcardNetconf_eq noExternals fGetsFront startState longComment).2]
    decide +kernel
  refine ⟨hlines, htaken, fun h => ?_⟩
  rw [h.conf, hlines] at htaken
  exact absurd htaken (by decide)

end Psc.Net
