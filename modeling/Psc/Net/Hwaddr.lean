import Psc.Lib.CString
import Psc.Lib.Program
import Psc.Net.Framing

/-!
# Hardware addresses

The parser of the `hwaddr` directive in `sdcard.c`. It looks at the argument three characters at a
time and reads none of them before the one in front of it turned out to be what was expected.

The grammar is `Pairs`: pairs of hexadecimal digits, separated by single colons.

1. `parse_iff`: a string is accepted exactly if it is six pairs, with their values.
2. `reads_le`: no character behind the end of the string is read, so that what is stored there does
   not matter (`parse_str`).
-/

namespace Psc.Net

open CString Program

/-- The characters of a literal. -/
def ascii (s : String) : List Byte := s.toList.map fun c => BitVec.ofNat 8 c.toNat

/-- `NETIF_MAX_HWADDR_LEN` bytes. -/
abbrev Hwaddr : Type := Vector Byte 6

/-- The warnings about a hardware address, "truncated hwaddr" and "invalid hwaddr". -/
inductive HwaddrError where
  | truncated | invalid
  deriving DecidableEq

/-- `parse_hex`: the byte `out` after the digit, unless `c` is none. -/
def parseHex (c out : Byte) : Option Byte :=
  if 0x30 ≤ c ∧ c ≤ 0x39 then some (out ||| (c - 0x30))
  else if 0x41 ≤ c ∧ c ≤ 0x46 then some (out ||| (c - 0x41 + 10))
  else if 0x61 ≤ c ∧ c ≤ 0x66 then some (out ||| (c - 0x61 + 10))
  else none

/-- What reads the characters of the argument, by their index. -/
abbrev Reads : Type → Type := Prog ℕ (fun _ => Byte) HwaddrError

/-- The loop over the parts of the argument, from part `n` on. There is a result if it gets to
`memcpy`; `hwaddr[n]` is the last argument of `parseHex`. -/
def parseParts : ℕ → ℕ → Hwaddr → Reads (Option Hwaddr)
  | 0, _, _ => .ret none
  | left + 1, n, hwaddr =>
    .op (n * 3) fun c =>
      match parseHex c (hwaddr.getD n 0) with
      | none => .fail .truncated
      | some x =>
        .op (n * 3 + 1) fun c =>
          match parseHex c (x <<< 4) with
          | none => .fail .truncated
          | some x =>
            let hwaddr := hwaddr.setIfInBounds n x
            .op (n * 3 + 2) fun c =>
              if n < 5 ∧ c = 0x3A then parseParts left (n + 1) hwaddr
              else if n = 5 ∧ c = 0 then .ret (some hwaddr)
              else .fail .invalid

/-- The loop, with `hwaddr` set to zero before it. -/
def parseHwaddr : Reads (Option Hwaddr) := parseParts 6 0 (Vector.replicate 6 0)

/-- A character of the argument in memory. -/
def charAt (i : ℕ) (arg : List Byte) : Byte := arg.getD i 0

/-- Reading it. -/
abbrev readChar (i : ℕ) (arg : List Byte) : Byte × List Byte := (charAt i arg, arg)

/-- What the loop comes to. -/
def parse (arg : List Byte) : Except HwaddrError (Option Hwaddr) :=
  (run readChar parseHwaddr arg).1

/-- The characters that it reads. -/
def reads (arg : List Byte) : List ℕ := trace readChar parseHwaddr arg

/-! ## The grammar -/

/-- The value of a hexadecimal digit, in either case. -/
def hexDigit (c : Byte) : Option ℕ :=
  (ascii "0123456789abcdef").idxOf? c <|> (ascii "0123456789ABCDEF").idxOf? c

/-- Pairs of hexadecimal digits that are separated by single colons, and their values. -/
inductive Pairs : List Byte → List Byte → Prop
  | last {a b : Byte} {u v : ℕ} : hexDigit a = some u → hexDigit b = some v →
      Pairs [a, b] [BitVec.ofNat 8 (16 * u + v)]
  | more {a b : Byte} {u v : ℕ} {s vals : List Byte} : hexDigit a = some u → hexDigit b = some v →
      Pairs s vals → Pairs (a :: b :: 0x3A :: s) (BitVec.ofNat 8 (16 * u + v) :: vals)

/-! ## Digits -/

theorem parseHex_zero : ∀ c : Byte, parseHex c 0 = (hexDigit c).map (BitVec.ofNat 8) := by
  decide +kernel

theorem parseHex_eq (c out : Byte) :
    parseHex c out = (hexDigit c).map fun u => out ||| BitVec.ofNat 8 u := by
  have hor : parseHex c out = (parseHex c 0).map (out ||| ·) := by
    unfold parseHex
    split_ifs <;> simp
  rw [hor, parseHex_zero, Option.map_map]
  rfl

theorem hexDigit_lt : ∀ c : Byte, ∀ u ∈ hexDigit c, u < 16 := by
  decide +kernel

theorem hexDigit_nul : hexDigit 0 = none := by decide

theorem join_digits : ∀ u < 16, ∀ v < 16,
    (BitVec.ofNat 8 u) <<< 4 ||| BitVec.ofNat 8 v = BitVec.ofNat 8 (16 * u + v) := by
  decide

theorem ne_nul_of_hexDigit {c : Byte} {u : ℕ} (h : hexDigit c = some u) : c ≠ 0 := by
  rintro rfl
  rw [hexDigit_nul] at h
  cases h

/-! ## Pairs -/

theorem Pairs.ne_nil {s vals : List Byte} (h : Pairs s vals) : vals ≠ [] := by
  cases h <;> exact List.cons_ne_nil _ _

theorem getD_drop (arg : List Byte) (k : ℕ) : (arg.drop k).getD 0 0 = charAt k arg := by
  simp [charAt, List.getD_eq_getElem?_getD]

/-- The pairs of the string from character `k` on, by its first three characters. -/
theorem pairs_str_iff {arg vals : List Byte} {k : ℕ} : Pairs (str 0 (arg.drop k)) vals ↔
    ∃ u v, hexDigit (charAt k arg) = some u ∧ hexDigit (charAt (k + 1) arg) = some v ∧
      ((charAt (k + 2) arg = 0 ∧ vals = [BitVec.ofNat 8 (16 * u + v)]) ∨
        (charAt (k + 2) arg = 0x3A ∧ ∃ vals', vals = BitVec.ofNat 8 (16 * u + v) :: vals' ∧
          Pairs (str 0 (arg.drop (k + 3))) vals')) := by
  constructor
  · intro h
    generalize hs : str 0 (arg.drop k) = s at h
    cases h with
    | last hu hv =>
      obtain ⟨⟨ha, -⟩, hs₁⟩ := str_eq_cons_iff.mp hs
      rw [List.drop_drop] at hs₁
      obtain ⟨⟨hb, -⟩, hs₂⟩ := str_eq_cons_iff.mp hs₁
      rw [List.drop_drop, str_eq_nil_iff] at hs₂
      rw [getD_drop] at ha hb hs₂
      exact ⟨_, _, by rw [ha]; exact hu, by rw [hb]; exact hv, Or.inl ⟨hs₂, rfl⟩⟩
    | more hu hv hrest =>
      obtain ⟨⟨ha, -⟩, hs₁⟩ := str_eq_cons_iff.mp hs
      rw [List.drop_drop] at hs₁
      obtain ⟨⟨hb, -⟩, hs₂⟩ := str_eq_cons_iff.mp hs₁
      rw [List.drop_drop] at hs₂
      obtain ⟨⟨hcolon, -⟩, hs₃⟩ := str_eq_cons_iff.mp hs₂
      rw [List.drop_drop] at hs₃
      rw [getD_drop] at ha hb hcolon
      rw [← hs₃] at hrest
      exact ⟨_, _, by rw [ha]; exact hu, by rw [hb]; exact hv, Or.inr ⟨hcolon, _, rfl, hrest⟩⟩
  · rintro ⟨u, v, hu, hv, hcase⟩
    have htail : ∀ {s}, str 0 (arg.drop (k + 2)) = s →
        str 0 (arg.drop k) = charAt k arg :: charAt (k + 1) arg :: s := by
      intro s hs
      refine str_eq_cons_iff.mpr ⟨⟨getD_drop arg k, ne_nul_of_hexDigit hu⟩, ?_⟩
      rw [List.drop_drop]
      refine str_eq_cons_iff.mpr ⟨⟨getD_drop arg (k + 1), ne_nul_of_hexDigit hv⟩, ?_⟩
      rwa [List.drop_drop]
    rcases hcase with ⟨hend, rfl⟩ | ⟨hcolon, vals', rfl, hrest⟩
    · rw [htail (str_eq_nil_iff.mpr ((getD_drop arg _).trans hend))]
      exact .last hu hv
    · rw [htail (str_eq_cons_iff.mpr ⟨⟨(getD_drop arg _).trans hcolon, by decide⟩, rfl⟩),
        List.drop_drop]
      exact .more hu hv hrest

/-! ## The loop -/

section Loop

variable {arg : List Byte}

/-- One part: two digits, and then a colon or the end. -/
theorem run_part {left n : ℕ} {hwaddr : Hwaddr} (hzero : hwaddr.getD n 0 = 0) :
    (run readChar (parseParts (left + 1) n hwaddr) arg).1 =
      match hexDigit (charAt (n * 3) arg), hexDigit (charAt (n * 3 + 1) arg) with
      | some u, some v =>
        if n < 5 ∧ charAt (n * 3 + 2) arg = 0x3A then
          (run readChar (parseParts left (n + 1)
            (hwaddr.setIfInBounds n (BitVec.ofNat 8 (16 * u + v)))) arg).1
        else if n = 5 ∧ charAt (n * 3 + 2) arg = 0 then
          .ok (some (hwaddr.setIfInBounds n (BitVec.ofNat 8 (16 * u + v))))
        else .error .invalid
      | _, _ => .error .truncated := by
  rw [parseParts, run, parseHex_eq, hzero]
  cases hu : hexDigit (charAt (n * 3) arg) with
  | none => rfl
  | some u =>
    have hfirst : (0 : Byte) ||| BitVec.ofNat 8 u = BitVec.ofNat 8 u := BitVec.zero_or
    rw [Option.map_some, hfirst]
    dsimp only
    rw [run, parseHex_eq]
    cases hv : hexDigit (charAt (n * 3 + 1) arg) with
    | none => rfl
    | some v =>
      rw [Option.map_some, join_digits u (hexDigit_lt _ u hu) v (hexDigit_lt _ v hv)]
      dsimp only
      rw [run]
      split_ifs <;> rfl

theorem take_setIfInBounds {n : ℕ} (hn : n < 6) (hwaddr : Hwaddr) (x : Byte) :
    (hwaddr.setIfInBounds n x).toList.take (n + 1) = hwaddr.toList.take n ++ [x] := by
  rw [Vector.toList_setIfInBounds, List.take_add_one, List.take_set_of_le le_rfl,
    List.getElem?_set_self (by simpa using hn)]
  rfl

theorem getD_setIfInBounds_of_lt {n i : ℕ} (hwaddr : Hwaddr) (x : Byte) (hi : n < i) :
    (hwaddr.setIfInBounds n x).getD i 0 = hwaddr.getD i 0 := by
  rw [Vector.getD, Vector.getD, Array.getD_eq_getD_getElem?, Array.getD_eq_getD_getElem?]
  simp [hi.ne]

theorem getD_replicate_zero (i : ℕ) : (Vector.replicate 6 (0 : Byte)).getD i 0 = 0 := by
  rw [Vector.getD, Vector.toArray_replicate, Array.getD_eq_getD_getElem?, Array.getElem?_replicate]
  split_ifs <;> rfl

theorem not_pairs_of_none {k : ℕ} {vals : List Byte}
    (h : hexDigit (charAt k arg) = none ∨ hexDigit (charAt (k + 1) arg) = none) :
    ¬Pairs (str 0 (arg.drop k)) vals := by
  intro hpairs
  obtain ⟨u, v, hu, hv, -⟩ := pairs_str_iff.mp hpairs
  rcases h with h | h
  · cases hu.symm.trans h
  · cases hv.symm.trans h

theorem pairs_part_iff {n u v : ℕ} (hu : hexDigit (charAt (n * 3) arg) = some u)
    (hv : hexDigit (charAt (n * 3 + 1) arg) = some v) (vals : List Byte) :
    Pairs (str 0 (arg.drop (n * 3))) vals ↔
      (charAt (n * 3 + 2) arg = 0 ∧ vals = [BitVec.ofNat 8 (16 * u + v)]) ∨
        (charAt (n * 3 + 2) arg = 0x3A ∧ ∃ vals', vals = BitVec.ofNat 8 (16 * u + v) :: vals' ∧
          Pairs (str 0 (arg.drop ((n + 1) * 3))) vals') := by
  rw [pairs_str_iff, Nat.succ_mul n]
  constructor
  · rintro ⟨u', v', hu', hv', hcase⟩
    obtain rfl := Option.some.inj (hu.symm.trans hu')
    obtain rfl := Option.some.inj (hv.symm.trans hv')
    exact hcase
  · exact fun hcase => ⟨u, v, hu, hv, hcase⟩

theorem colon_ne_nul {c : Byte} (h : c = 0x3A) : c ≠ 0 := ne_of_eq_of_ne h (by decide)

/-- **The parts from `n` on.** They are accepted exactly if they are as many pairs as are missing,
and end the string. -/
theorem run_parseParts {left n : ℕ} {hwaddr : Hwaddr} (hn : n + left = 6) (h0 : 0 < left)
    (hzero : ∀ i, n ≤ i → hwaddr.getD i 0 = 0) (b : Hwaddr) :
    (run readChar (parseParts left n hwaddr) arg).1 = .ok (some b) ↔
      ∃ vals, Pairs (str 0 (arg.drop (n * 3))) vals ∧ vals.length = left ∧
        b.toList = hwaddr.toList.take n ++ vals := by
  induction left generalizing n hwaddr with
  | zero => omega
  | succ left ih =>
    rw [run_part (hzero n le_rfl)]
    cases hu : hexDigit (charAt (n * 3) arg) with
    | none =>
      refine iff_of_false (by rintro ⟨⟩) ?_
      rintro ⟨vals, hpairs, -⟩
      exact not_pairs_of_none (Or.inl hu) hpairs
    | some u =>
      cases hv : hexDigit (charAt (n * 3 + 1) arg) with
      | none =>
        refine iff_of_false (by rintro ⟨⟩) ?_
        rintro ⟨vals, hpairs, -⟩
        exact not_pairs_of_none (Or.inr hv) hpairs
      | some v =>
        have hpairs := pairs_part_iff hu hv
        dsimp only
        generalize BitVec.ofNat 8 (16 * u + v) = x at hpairs ⊢
        have htake := take_setIfInBounds (show n < 6 by omega) hwaddr x
        simp only [hpairs]
        rcases Nat.lt_or_ge n 5 with hlt | hge
        · -- a part in front of the last is followed by a colon
          by_cases hcolon : charAt (n * 3 + 2) arg = 0x3A
          · have hzero' : ∀ i, n + 1 ≤ i → (hwaddr.setIfInBounds n x).getD i 0 = 0 := fun i hi =>
              (getD_setIfInBounds_of_lt hwaddr x hi).trans (hzero i (by omega))
            rw [if_pos ⟨hlt, hcolon⟩, ih (by omega) (by omega) hzero', htake]
            constructor
            · rintro ⟨vals, hvals, hlen, hb⟩
              exact ⟨x :: vals, Or.inr ⟨hcolon, vals, rfl, hvals⟩, by rw [List.length_cons, hlen],
                by rw [hb, List.append_assoc]; rfl⟩
            · rintro ⟨_, ⟨hend, -⟩ | ⟨-, vals, rfl, hvals⟩, hlen, hb⟩
              · exact absurd hend (colon_ne_nul hcolon)
              · exact ⟨vals, hvals, Nat.succ.inj hlen, by rw [hb, List.append_assoc]; rfl⟩
          · rw [if_neg fun h => hcolon h.2, if_neg fun h => hlt.ne h.1]
            refine iff_of_false (by rintro ⟨⟩) ?_
            rintro ⟨_, ⟨-, rfl⟩ | ⟨h, -⟩, hlen, -⟩
            · rw [List.length_singleton] at hlen
              omega
            · exact hcolon h
        · -- the last is followed by the end
          obtain ⟨rfl, rfl⟩ : n = 5 ∧ left = 0 := by omega
          rw [if_neg fun h => absurd h.1 (by omega)]
          by_cases hend : charAt (5 * 3 + 2) arg = 0
          · have hall : (hwaddr.setIfInBounds 5 x).toList = hwaddr.toList.take 5 ++ [x] := by
              rw [← htake, List.take_of_length_le (by simp)]
            rw [if_pos ⟨rfl, hend⟩]
            constructor
            · intro h
              obtain rfl := Option.some.inj (Except.ok.inj h)
              exact ⟨[x], Or.inl ⟨hend, rfl⟩, rfl, hall⟩
            · rintro ⟨_, ⟨-, rfl⟩ | ⟨hcolon, -⟩, -, hb⟩
              · rw [Vector.toList_inj.mp (hb.trans hall.symm)]
              · exact absurd hend (colon_ne_nul hcolon)
          · rw [if_neg fun h => hend h.2]
            refine iff_of_false (by rintro ⟨⟩) ?_
            rintro ⟨_, ⟨h, -⟩ | ⟨-, vals, rfl, hvals⟩, hlen, -⟩
            · exact hend h
            · exact hvals.ne_nil (List.length_eq_zero_iff.mp (Nat.succ.inj hlen))

theorem run_parseParts_ne {left n : ℕ} {hwaddr : Hwaddr} (hn : n + left = 6) (h0 : 0 < left)
    (hzero : ∀ i, n ≤ i → hwaddr.getD i 0 = 0) :
    (run readChar (parseParts left n hwaddr) arg).1 ≠ .ok none := by
  induction left generalizing n hwaddr with
  | zero => omega
  | succ left ih =>
    rw [run_part (hzero n le_rfl)]
    split
    · split_ifs with hcolon hend
      · exact ih (by omega) (by omega) fun i hi =>
          (getD_setIfInBounds_of_lt hwaddr _ hi).trans (hzero i (by omega))
      · rintro ⟨⟩
      · rintro ⟨⟩
    · rintro ⟨⟩

theorem parse_ne : parse arg ≠ .ok none :=
  run_parseParts_ne (by omega) (by omega) fun i _ => getD_replicate_zero i

/-- No part reads behind the end of the string if the one before it did not end there. -/
theorem trace_parseParts_le {left n : ℕ} {hwaddr : Hwaddr} (hn : n * 3 ≤ (str 0 arg).length) :
    ∀ k ∈ trace readChar (parseParts left n hwaddr) arg, k ≤ (str 0 arg).length := by
  induction left generalizing n hwaddr with
  | zero => simp [parseParts, trace]
  | succ left ih =>
    rw [parseParts, trace, List.forall_mem_cons, parseHex_eq]
    refine ⟨hn, ?_⟩
    cases hu : hexDigit (charAt (n * 3) arg) with
    | none => simp [trace]
    | some u =>
      have hn₁ := succ_le_length_str hn (ne_nul_of_hexDigit hu)
      rw [Option.map_some]
      dsimp only
      rw [trace, List.forall_mem_cons, parseHex_eq]
      refine ⟨hn₁, ?_⟩
      cases hv : hexDigit (charAt (n * 3 + 1) arg) with
      | none => simp [trace]
      | some v =>
        have hn₂ := succ_le_length_str hn₁ (ne_nul_of_hexDigit hv)
        rw [Option.map_some]
        dsimp only
        rw [trace, List.forall_mem_cons]
        refine ⟨hn₂, ?_⟩
        split_ifs with hcolon hend
        · exact ih (Nat.succ_mul n 3 ▸ succ_le_length_str hn₂ (colon_ne_nul hcolon.2))
        · simp [trace]
        · simp [trace]

variable (arg) in
/-- **What is read.** No character behind the one that ends the string. -/
theorem reads_le : ∀ k ∈ reads arg, k ≤ (str 0 arg).length :=
  trace_parseParts_le (Nat.zero_mul 3 ▸ Nat.zero_le _)

/-- What is stored behind the string does not matter. -/
theorem parse_str : parse arg = parse (str 0 arg) :=
  run_congr_of_trace fun k hk => (getD_str (reads_le arg k hk)).symm

/-- **What is accepted.** -/
theorem parse_iff (b : Hwaddr) : parse arg = .ok (some b) ↔ Pairs (str 0 arg) b.toList := by
  unfold parse parseHwaddr
  rw [run_parseParts (by omega) (by omega) (fun i _ => getD_replicate_zero i),
    Nat.zero_mul, List.drop_zero]
  constructor
  · rintro ⟨vals, hvals, -, hb⟩
    rw [hb]
    exact hvals
  · intro hvals
    exact ⟨b.toList, hvals, b.length_toList, rfl⟩

end Loop

end Psc.Net
