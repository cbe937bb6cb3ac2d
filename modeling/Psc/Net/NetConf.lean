import Psc.Lib.Words
import Psc.Net.Hwaddr

/-!
# Lines of NET.CNF

The tokeniser of `sdcard_netconf` in `sdcard.c`. It cuts a command and its argument out of the
buffer, by writing NULs into it, and goes on with pointers to them.

`tokenise_eq`: what the pointers point to are the first two words of the line, unless the first is a
comment (`directive`).
-/

namespace Psc.Net

open CString Words

/-! ## The tokeniser -/

/-- `lwip_isspace`. -/
def isspace (c : Byte) : Bool :=
  c = 0x20 || c = 0x09 || c = 0x0A || c = 0x0B || c = 0x0C || c = 0x0D

/-- What a command or an argument consists of. -/
def inWord (c : Byte) : Bool := c ≠ 0 && !isspace c

/-- `while(p(line[0])) line++`, with `line` as an index of the buffer. -/
def scan (p : Byte → Bool) (lbuf : List Byte) (line : ℕ) : ℕ :=
  line + ((lbuf.drop line).takeWhile p).length

/-- The buffer with its words cut out, and where they are. -/
structure Tokens where
  lbuf : List Byte
  cmd : ℕ
  arg : Option ℕ

/-- The loop body up to the first comparison. Nothing if it continues with the next line. -/
def tokenise (lbuf : List Byte) : Option Tokens :=
  let line := scan isspace lbuf 0
  if charAt line lbuf = 0 ∨ charAt line lbuf = 0x23 then none
  else
    let cmd := line
    let cmdend := scan inWord lbuf line
    let line := scan isspace lbuf cmdend
    let lbuf := lbuf.set cmdend 0
    if charAt line lbuf ≠ 0 then
      let arg := line
      let line := scan inWord lbuf line
      some ⟨lbuf.set line 0, cmd, some arg⟩
    else some ⟨lbuf, cmd, none⟩

/-- A command and its argument. -/
abbrev Directive : Type := List Byte × Option (List Byte)

/-- The strings that the pointers point to. -/
def Tokens.directive (t : Tokens) : Directive :=
  (str 0 (t.lbuf.drop t.cmd), t.arg.map fun arg => str 0 (t.lbuf.drop arg))

/-- A word, if there is one. -/
def wordOf (w : List Byte) : Option (List Byte) := if w = [] then none else some w

/-- **What a line says.** Its first two words, unless it is blank or a comment. -/
def directive (l : List Byte) : Option Directive :=
  let cmd := nextWord isspace inWord l
  if cmd = [] ∨ cmd.head? = some 0x23 then none
  else some (cmd, wordOf (nextWord isspace inWord (afterWord isspace inWord l)))

section Scan

variable {p : Byte → Bool} {lbuf : List Byte} {line : ℕ}

theorem le_scan : line ≤ scan p lbuf line := Nat.le_add_right _ _

theorem drop_scan : lbuf.drop (scan p lbuf line) = (lbuf.drop line).dropWhile p := by
  have hsplit := List.takeWhile_append_dropWhile (p := p) (l := lbuf.drop line)
  unfold scan
  rw [← List.drop_drop]
  calc (lbuf.drop line).drop ((lbuf.drop line).takeWhile p).length
      = ((lbuf.drop line).takeWhile p ++ (lbuf.drop line).dropWhile p).drop
          ((lbuf.drop line).takeWhile p).length := by rw [hsplit]
    _ = (lbuf.drop line).dropWhile p := List.drop_left

variable (lbuf line)

theorem not_scanned (hp : p 0 = false) : p (charAt (scan p lbuf line) lbuf) = false := by
  rw [← getD_drop, drop_scan]
  induction lbuf.drop line with
  | nil => exact hp
  | cons c l ih =>
    cases hc : p c with
    | true => rwa [List.dropWhile_cons_of_pos hc]
    | false => rwa [List.dropWhile_cons_of_neg (by simp [hc])]

theorem str_cut (hp : p 0 = false) :
    str 0 ((lbuf.set (scan p lbuf line) 0).drop line) = (lbuf.drop line).takeWhile p := by
  rw [List.drop_set, if_neg (Nat.not_lt.mpr le_scan), scan, Nat.add_sub_cancel_left]
  exact str_set_takeWhile hp

end Scan

/-! ## The words of a line -/

theorem nextWord_eq_nil_iff {l : List Byte} :
    nextWord isspace inWord l = [] ↔ (l.dropWhile isspace).getD 0 0 = 0 := by
  have hstop := not_scanned (p := isspace) l 0 rfl
  rw [← getD_drop, drop_scan, List.drop_zero] at hstop
  unfold nextWord
  cases hrest : l.dropWhile isspace with
  | nil => exact iff_of_true rfl rfl
  | cons c r =>
    rw [hrest, List.getD_cons_zero] at hstop
    rw [List.getD_cons_zero, List.takeWhile_cons]
    simp [inWord, hstop]

theorem head?_nextWord {l : List Byte} (h : nextWord isspace inWord l ≠ []) :
    (nextWord isspace inWord l).head? = some ((l.dropWhile isspace).getD 0 0) := by
  unfold nextWord at h ⊢
  cases hrest : l.dropWhile isspace with
  | nil => simp [hrest] at h
  | cons c r =>
    rw [hrest, List.takeWhile_cons] at h
    rw [List.takeWhile_cons]
    split_ifs at h ⊢ with hc
    · rfl
    · exact absurd rfl h

@[simp] theorem str_nextWord (l : List Byte) :
    str 0 (nextWord isspace inWord l) = nextWord isspace inWord l :=
  str_of_not_mem fun h => absurd (List.mem_takeWhile_imp h) (by decide)

theorem str_directive {l : List Byte} {d : Directive} (h : directive l = some d) :
    (str 0 d.1, d.2.map (str 0)) = d := by
  unfold directive at h
  dsimp only at h
  split_ifs at h
  obtain rfl := Option.some.inj h
  unfold wordOf
  split_ifs
  · rw [str_nextWord, Option.map_none]
  · rw [str_nextWord, Option.map_some, str_nextWord]

theorem directive_append_nul (l t : List Byte) : directive (l ++ 0 :: t) = directive l := by
  have hstop : isspace 0 = false ∧ inWord 0 = false := ⟨rfl, rfl⟩
  have hcmd := scan_append_stop l t hstop.1 hstop.2
  have harg := scan_append_stop (afterWord isspace inWord l) t hstop.1 hstop.2
  unfold directive
  rw [hcmd.1, hcmd.2, harg.1]

theorem charAt_cut (lbuf : List Byte) (k : ℕ) : charAt k (lbuf.set k 0) = 0 := by
  unfold charAt
  rw [List.getD_eq_getElem?_getD, List.getElem?_set_self']
  cases lbuf[k]? <;> rfl

theorem charAt_set_of_ne {lbuf : List Byte} {i k : ℕ} (h : k ≠ i) (c : Byte) :
    charAt i (lbuf.set k c) = charAt i lbuf := by
  unfold charAt
  rw [List.getD_eq_getElem?_getD, List.getD_eq_getElem?_getD, List.getElem?_set_ne h]

section Tokenise

variable {lbuf : List Byte} {cmd : ℕ}

variable (lbuf) in
theorem skips_iff :
    (charAt (scan isspace lbuf 0) lbuf = 0 ∨ charAt (scan isspace lbuf 0) lbuf = 0x23) ↔
      (nextWord isspace inWord lbuf = [] ∨ (nextWord isspace inWord lbuf).head? = some 0x23) := by
  rw [← getD_drop, drop_scan, List.drop_zero, nextWord_eq_nil_iff]
  by_cases h : nextWord isspace inWord lbuf = []
  · rw [nextWord_eq_nil_iff] at h
    simp only [h, true_or]
  · rw [head?_nextWord h, Option.some.injEq]

variable (lbuf cmd) in
theorem no_arg_iff :
    charAt (scan isspace lbuf (scan inWord lbuf cmd)) (lbuf.set (scan inWord lbuf cmd) 0) = 0 ↔
      nextWord isspace inWord ((lbuf.drop cmd).dropWhile inWord) = [] := by
  rw [nextWord_eq_nil_iff, ← drop_scan, ← drop_scan, getD_drop]
  generalize hend : scan inWord lbuf cmd = cmdend
  by_cases hsame : cmdend = scan isspace lbuf cmdend
  · -- no blank follows, so the command is ended by the end of the string
    have hword : inWord (charAt cmdend lbuf) = false := hend ▸ not_scanned _ _ rfl
    have hspace : isspace (charAt cmdend lbuf) = false := by
      rw [hsame]
      exact not_scanned _ _ rfl
    rw [← hsame]
    exact iff_of_true (charAt_cut lbuf cmdend) (by simpa [inWord, hspace] using hword)
  · rw [charAt_set_of_ne hsame]

theorem str_cmd {k : ℕ} (hk : scan inWord lbuf cmd < k) :
    str 0 (((lbuf.set (scan inWord lbuf cmd) 0).set k 0).drop cmd) =
      (lbuf.drop cmd).takeWhile inWord := by
  have hcut := str_cut (p := inWord) lbuf cmd rfl
  have hle : cmd ≤ scan inWord lbuf cmd := le_scan
  rw [List.drop_set, if_neg (by omega), str_set_of_lt 0, hcut]
  rw [hcut]
  unfold scan at hk
  omega

theorem str_arg {cmdend arg : ℕ} (h : cmdend < arg) :
    str 0 (((lbuf.set cmdend 0).set (scan inWord (lbuf.set cmdend 0) arg) 0).drop arg) =
      (lbuf.drop arg).takeWhile inWord := by
  rw [str_cut _ _ rfl, List.drop_set, if_pos h]

/-- **The tokeniser.** What it cuts out is what the line says. -/
theorem tokenise_eq (lbuf : List Byte) : (tokenise lbuf).map Tokens.directive = directive lbuf := by
  unfold tokenise directive
  dsimp only
  by_cases hskip : charAt (scan isspace lbuf 0) lbuf = 0 ∨ charAt (scan isspace lbuf 0) lbuf = 0x23
  · rw [if_pos hskip, if_pos ((skips_iff lbuf).mp hskip)]
    rfl
  · rw [if_neg hskip, if_neg (mt (skips_iff lbuf).mpr hskip)]
    have hcmd : lbuf.drop (scan isspace lbuf 0) = lbuf.dropWhile isspace := drop_scan
    have hno := no_arg_iff lbuf (scan isspace lbuf 0)
    generalize hline : scan isspace lbuf (scan inWord lbuf (scan isspace lbuf 0)) = line at hno ⊢
    rw [hcmd] at hno
    change _ ↔ nextWord isspace inWord (afterWord isspace inWord lbuf) = [] at hno
    by_cases harg : charAt line (lbuf.set (scan inWord lbuf (scan isspace lbuf 0)) 0) = 0
    · rw [if_neg (not_not.mpr harg), wordOf, if_pos (hno.mp harg), Option.map_some,
        Tokens.directive]
      dsimp only
      rw [str_cut _ _ rfl, hcmd]
      rfl
    · have hlt : scan inWord lbuf (scan isspace lbuf 0) < line := by
        refine lt_of_le_of_ne (hline ▸ le_scan) ?_
        rintro rfl
        exact harg (charAt_cut _ _)
      have hrest : lbuf.drop line = (afterWord isspace inWord lbuf).dropWhile isspace := by
        rw [← hline, drop_scan, drop_scan, hcmd]
        rfl
      rw [if_pos harg, wordOf, if_neg (mt hno.mpr harg), Option.map_some, Tokens.directive]
      dsimp only
      rw [str_cmd (hlt.trans_le le_scan), Option.map_some, str_arg hlt, hcmd, hrest]
      rfl

end Tokenise

end Psc.Net
