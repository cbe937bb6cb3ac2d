import Psc.Lib.Clocked

/-!
# Serial frames

A master drives the lines `nSync`, `sclk` and `sdo`. A slave takes a bit at each falling edge of
`sclk` while `nSync` is low. The bits of one low interval of `nSync` are a *frame*, if there are
any: an interval without an edge is not one.

`frames w n` lists the frames of the waveform `w` up to clock `n`, the last one as far as it has
come.
-/

namespace Spi

open Clocked

/-- The lines during a clock. -/
structure Lines where
  nSync : Bool
  sclk : Bool
  sdo : Bool

/-- `sclk` falls from one clock to the next. -/
def Falls (l l' : Lines) : Prop := l.sclk = true ∧ l'.sclk = false

instance (l l' : Lines) : Decidable (Falls l l') := inferInstanceAs (Decidable (_ ∧ _))

/-- What a slave has taken: the frames of earlier intervals, and the bits of this one. -/
structure Slave where
  sent : List (List Bool)
  bits : List Bool

namespace Slave

/-- The frames, with the one under way. -/
def frames (r : Slave) : List (List Bool) := if r.bits = [] then r.sent else r.sent ++ [r.bits]

/-- What the lines of two clocks running tell the slave. -/
def observe (r : Slave) (e : Lines × Lines) : Slave :=
  if e.2.nSync then ⟨r.frames, []⟩
  else if Falls e.1 e.2 then { r with bits := r.bits ++ [e.1.sdo] }
  else r

variable {r : Slave} {l l' : Lines}

@[simp] theorem frames_nil (fs : List (List Bool)) : frames ⟨fs, []⟩ = fs := rfl

theorem frames_of_ne_nil (h : r.bits ≠ []) : r.frames = r.sent ++ [r.bits] := if_neg h

theorem observe_of_nSync (h : l'.nSync = true) : r.observe (l, l') = ⟨r.frames, []⟩ := if_pos h

theorem observe_of_falls (h : l'.nSync = false) (hfall : Falls l l') :
    r.observe (l, l') = { r with bits := r.bits ++ [l.sdo] } := by
  rw [observe, if_neg (by simp [h]), if_pos hfall]

theorem observe_of_not_falls (h : l'.nSync = false) (hfall : ¬Falls l l') :
    r.observe (l, l') = r := by
  rw [observe, if_neg (by simp [h]), if_neg hfall]

theorem observe_of_bits_nil (h : r.bits = []) (hfall : ¬Falls l l') : r.observe (l, l') = r := by
  cases hs : l'.nSync with
  | true =>
    rw [observe_of_nSync hs, frames, if_pos h]
    exact congrArg (Slave.mk r.sent) h.symm
  | false => exact observe_of_not_falls hs hfall

theorem frames_observe_of_not_falls (hfall : ¬Falls l l') :
    (r.observe (l, l')).frames = r.frames := by
  cases h : l'.nSync with
  | true => rw [observe_of_nSync h, frames_nil]
  | false => rw [observe_of_not_falls h hfall]

end Slave

/-- The slave at clock `n`. -/
def slave (w : ℕ → Lines) (n : ℕ) : Slave :=
  run Slave.observe ⟨[], []⟩ (fun k => (w k, w (k + 1))) n

/-- The frames up to clock `n`. -/
def frames (w : ℕ → Lines) (n : ℕ) : List (List Bool) := (slave w n).frames

theorem slave_succ (w : ℕ → Lines) (n : ℕ) :
    slave w (n + 1) = (slave w n).observe (w n, w (n + 1)) := rfl

/-- Lines that are the same from a clock with `nSync` high on carry the same frames, if there are
none before it. -/
theorem frames_congr {w w' : ℕ → Lines} (hsync : (w 1).nSync = true)
    (hsame : ∀ n, 0 < n → w' n = w n) {n : ℕ} (hn : 0 < n) : frames w' n = frames w n := by
  have hslave : slave w' n = slave w n := by
    induction n, hn using Nat.le_induction with
    | base =>
      have hsync' : (w' 1).nSync = true := by rw [hsame 1 Nat.one_pos, hsync]
      rw [show Nat.succ 0 = 0 + 1 from rfl, slave_succ, slave_succ, Slave.observe_of_nSync hsync,
        Slave.observe_of_nSync hsync']
      rfl
    | succ n hn ih => rw [slave_succ, slave_succ, ih, hsame n hn, hsame (n + 1) n.succ_pos]
  rw [frames, frames, hslave]

/-- The frames so far begin with the given words: each is the next word, the last one as far as it
has come. -/
def Follows : List (List Bool) → List (List Bool) → Prop
  | [], _ => True
  | _ :: _, [] => True
  | [f], w :: _ => f <+: w
  | f :: g :: fs, w :: ws => f = w ∧ Follows (g :: fs) ws

theorem Follows.of_append {l l' ws : List (List Bool)} (h : Follows (l ++ l') ws) :
    Follows l ws := by
  induction l generalizing ws with
  | nil => exact True.intro
  | cons f l ih =>
    match ws, l with
    | [], _ => exact True.intro
    | w :: ws, [] =>
      cases l' with
      | nil => exact h
      | cons g l' => exact h.1 ▸ List.prefix_rfl
    | w :: ws, g :: l => exact ⟨h.1, ih h.2⟩

theorem Follows.of_append_bits {l ws : List (List Bool)} {b v : List Bool}
    (h : Follows (l ++ [b ++ v]) ws) : Follows (l ++ [b]) ws := by
  induction l generalizing ws with
  | nil =>
    cases ws with
    | nil => exact True.intro
    | cons w ws => exact (List.prefix_append b v).trans h
  | cons f l ih =>
    match ws, l with
    | [], _ => exact True.intro
    | w :: ws, [] => exact ⟨h.1, ih h.2⟩
    | w :: ws, g :: l => exact ⟨h.1, ih h.2⟩

theorem Follows.of_succ {w : ℕ → Lines} {n : ℕ} {ws : List (List Bool)}
    (h : Follows (frames w (n + 1)) ws) : Follows (frames w n) ws := by
  unfold frames at h ⊢
  rw [slave_succ] at h
  by_cases hfall : Falls (w n) (w (n + 1))
  · cases hsync : (w (n + 1)).nSync with
    | true =>
      rwa [Slave.observe_of_nSync hsync, Slave.frames_nil] at h
    | false =>
      rw [Slave.observe_of_falls hsync hfall, Slave.frames_of_ne_nil (by simp)] at h
      unfold Slave.frames
      split_ifs
      · exact h.of_append
      · exact h.of_append_bits
  · rwa [Slave.frames_observe_of_not_falls hfall] at h

theorem Follows.of_le {w : ℕ → Lines} {m n : ℕ} {ws : List (List Bool)} (hmn : m ≤ n)
    (h : Follows (frames w n) ws) : Follows (frames w m) ws := by
  induction n, hmn using Nat.le_induction with
  | base => exact h
  | succ n _ ih => exact ih h.of_succ

/-! ## Words -/

/-- The `k` most significant bits of a word, the highest first. -/
def topBits {w : ℕ} (x : BitVec w) (k : ℕ) : List Bool := (List.range k).map x.getMsbD

/-- The bits of a word, the highest first. -/
def wordBits {w : ℕ} (x : BitVec w) : List Bool := topBits x w

section Words

variable {w : ℕ}

@[simp] theorem length_topBits (x : BitVec w) (k : ℕ) : (topBits x k).length = k := by
  simp [topBits]

@[simp] theorem length_wordBits (x : BitVec w) : (wordBits x).length = w := length_topBits x w

@[simp] theorem topBits_zero (x : BitVec w) : topBits x 0 = [] := rfl

theorem topBits_succ (x : BitVec w) (k : ℕ) :
    topBits x (k + 1) = x.getMsbD 0 :: topBits (x <<< 1) k := by
  unfold topBits
  rw [List.range_succ_eq_map, List.map_cons, List.map_map]
  congr 1
  apply List.map_congr_left
  intro i _
  rw [BitVec.getMsbD_shiftLeft]
  rfl

theorem wordBits_injective : Function.Injective (wordBits : BitVec w → List Bool) := by
  intro x y h
  apply BitVec.eq_of_getMsbD_eq
  intro i hi
  have hget := congrArg (fun l => l[i]?) h
  simpa [wordBits, topBits, hi] using hget

/-- The word of equal bits. -/
def level (w : ℕ) (b : Bool) : BitVec w := if b then BitVec.allOnes w else 0

theorem wordBits_eq_replicate_iff {x : BitVec w} {b : Bool} :
    wordBits x = List.replicate w b ↔ x = level w b := by
  have hlevel : wordBits (level w b) = List.replicate w b := by
    refine List.ext_getElem (by simp) fun n hn _ => ?_
    have hw : n < w := by simpa using hn
    cases b <;> simp [wordBits, topBits, level, hw]
  rw [← hlevel]
  exact wordBits_injective.eq_iff

/-- The `k` least significant bits of a word, the highest first. -/
def lowBits (x : BitVec w) (k : ℕ) : List Bool :=
  (List.range k).map fun j => x.getLsbD (k - 1 - j)

theorem lowBits_eq_wordBits (x : BitVec w) : lowBits x w = wordBits x := by
  apply List.map_congr_left
  intro j hj
  rw [BitVec.getMsbD_eq_getLsbD, decide_eq_true (List.mem_range.mp hj), Bool.true_and]

theorem lowBits_shiftConcat (x : BitVec w) (b : Bool) {k : ℕ} (h : k < w) :
    lowBits (x.shiftConcat b) (k + 1) = lowBits x k ++ [b] := by
  unfold lowBits
  rw [List.range_succ, List.map_append]
  congr 1
  · apply List.map_congr_left
    intro j hj
    have hjk := List.mem_range.mp hj
    rw [show k + 1 - 1 - j = k - 1 - j + 1 by omega, BitVec.getLsbD_eq_getElem (by omega),
      BitVec.getElem_shiftConcat, if_neg (by omega), BitVec.getLsbD_eq_getElem (by omega)]
    rfl
  · rw [List.map_cons, List.map_nil, show k + 1 - 1 - k = 0 by omega,
      BitVec.getLsbD_eq_getElem (by omega), BitVec.getElem_shiftConcat, if_pos rfl]

end Words

end Spi
