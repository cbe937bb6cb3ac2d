import Psc.Control.Readback
import Psc.Snapshot.Reader

/-!
# The columns of a waveform

`CopyDataChan` turns each record of forty words into ten columns for one supply: the header, the
data-point counter and the eight readings, scaled. The writer hands over the words in forty states,
the reader takes them at offsets written out for each supply.

1. `kept_run`: at any clock, each word of the bursts in the ring is the one that was handed over.
2. `columns_of_burst`: so the columns of a record are the header, the number of the burst, and the
   readings of the supply as numbers with a sign, times the conversion and the scale factor.
-/

namespace Psc.Snapshot

open Clocked RingLog Control

/-! ## The columns -/

/-- The number that a reading is. -/
def Field.signed (d : DcctAdcs) (m : MonAdcs) : Field → ℤ
  | dcct1 => d.dcct0.toInt
  | dcct2 => d.dcct1.toInt
  | mon1 => m.dacmon.toInt
  | mon2 => m.voltage.toInt
  | mon3 => m.ignd.toInt
  | mon4 => m.spare.toInt
  | mon5 => m.psReg.toInt
  | mon6 => m.psError.toInt

section Copy

variable (b : Board) (chan : ℕ)

/-- One turn of a loop of `CopyDataChan`: the words `w`, taken at offsets written out there. -/
def copyTurn (w : ℕ → BitVec 32)
    (dcct1 dcct2 dacmon volt ignd spare regulator error : ℕ) : List ℚ :=
  let sf := b.sf (BitVec.ofNat 32 chan)
  [(w 0).toNat, (w 1).toNat,
    (w dcct1).toInt * b.convDacBitsToVolts * sf.dacDccts,
    (w dcct2).toInt * b.convDacBitsToVolts * sf.dacDccts,
    (w dacmon).toInt * conv16BitsToVolts * sf.dacDccts,
    (w volt).toInt * conv16BitsToVolts * sf.vout,
    (w ignd).toInt * conv16BitsToVolts * sf.ignd,
    (w spare).toInt * conv16BitsToVolts * sf.spare,
    (w regulator).toInt * conv16BitsToVolts * sf.regulator,
    (w error).toInt * conv16BitsToVolts * sf.error]

/-- What `CopyDataChan` makes of the record at an address. -/
def copyRecord (mem : BitVec 32 → BitVec 32) (a : BitVec 32) : List ℚ :=
  let w k := mem (a + BitVec.ofNat 32 (4 * k))
  match chan with
  | 1 => copyTurn b chan w 2 3 4 5 6 7 8 9
  | 2 => copyTurn b chan w 10 11 12 13 14 15 16 17
  | 3 => copyTurn b chan w 18 19 20 21 22 23 24 25
  | 4 => copyTurn b chan w 26 27 28 29 30 31 32 33
  | _ => []

/-- The columns that `CopyDataChan` appends to the message. -/
def copyColumns (mem : BitVec 32 → BitVec 32) (bufData numwords : BitVec 32) : List ℚ :=
  (copyDataChan bufData numwords).flatMap (copyRecord b chan mem)

/-- The offsets of the words that are taken from a record. -/
def recordOffsets : ℕ → List ℕ
  | 1 => [0, 1, 2, 3, 4, 5, 6, 7, 8, 9]
  | 2 => [0, 1, 10, 11, 12, 13, 14, 15, 16, 17]
  | 3 => [0, 1, 18, 19, 20, 21, 22, 23, 24, 25]
  | 4 => [0, 1, 26, 27, 28, 29, 30, 31, 32, 33]
  | _ => []

variable {chan} in
theorem recordOffsets_lt {k : ℕ} (hk : k ∈ recordOffsets chan) : k < 40 := by
  unfold recordOffsets at hk
  split at hk
  case h_5 => cases hk
  all_goals
    simp only [List.mem_cons, List.not_mem_nil, or_false] at hk
    omega

theorem copyRecord_congr {mem mem' : BitVec 32 → BitVec 32} {a a' : BitVec 32}
    (h : ∀ k ∈ recordOffsets chan,
      mem (a + BitVec.ofNat 32 (4 * k)) = mem' (a' + BitVec.ofNat 32 (4 * k))) :
    copyRecord b chan mem a = copyRecord b chan mem' a' := by
  unfold copyRecord
  split
  case h_5 => rfl
  all_goals
    simp only [recordOffsets, List.forall_mem_cons] at h
    simp only [copyTurn, h]

variable {b chan}

theorem length_copyRecord (hchan : 1 ≤ chan ∧ chan ≤ 4) (mem : BitVec 32 → BitVec 32)
    (a : BitVec 32) : (copyRecord b chan mem a).length = 10 := by
  obtain ⟨h1, h4⟩ := hchan
  interval_cases chan <;> rfl

theorem take_drop_flatMap {α β : Type*} {f : α → List β} {n : ℕ} (hf : ∀ a, (f a).length = n) :
    ∀ (l : List α) (j : ℕ) (hj : j < l.length), ((l.flatMap f).drop (n * j)).take n = f l[j] := by
  intro l
  induction l with
  | nil => intro j hj; simp at hj
  | cons a l ih =>
    intro j hj
    cases j with
    | zero =>
      rw [Nat.mul_zero, List.drop_zero, List.flatMap_cons]
      exact List.take_left' (hf a)
    | succ j =>
      have hn : n * (j + 1) = (f a).length + n * j := by rw [hf a, Nat.mul_succ, Nat.add_comm]
      rw [hn, List.flatMap_cons, List.drop_length_add_append, List.getElem_cons_succ]
      exact ih j (by simpa using hj)

/-- Whole records give ten columns each, in order. -/
theorem copyColumns_records (hchan : 1 ≤ chan ∧ chan ≤ 4) (mem : BitVec 32 → BitVec 32)
    (bufData : BitVec 32) {numwords : BitVec 32} (hwords : numwords.toNat % 40 = 0) :
    (copyColumns b chan mem bufData numwords).length = numwords.toNat / 4 ∧
      ∀ j < numwords.toNat / 40,
        ((copyColumns b chan mem bufData numwords).drop (10 * j)).take 10 =
          copyRecord b chan mem (bufData + BitVec.ofNat 32 (160 * j)) := by
  have hlen := length_copyRecord (b := b) hchan mem
  have hrecords : (copyDataChan bufData numwords).length = numwords.toNat / 40 := by
    unfold copyDataChan
    rw [List.length_map, List.length_range]
    omega
  constructor
  · unfold copyColumns
    rw [List.length_flatMap, List.map_congr_left fun a _ => hlen a, List.map_const',
      List.sum_replicate, hrecords, smul_eq_mul]
    omega
  · intro j hj
    unfold copyColumns
    rw [take_drop_flatMap hlen _ j (by omega)]
    simp only [copyDataChan, List.getElem_map, List.getElem_range]

end Copy

/-! ## What is in the ring -/

theorem Field.idx_lt (f : Field) : f.idx < 8 := by cases f <;> decide

theorem Field.idx_injective : Function.Injective Field.idx := by
  intro f f' h
  cases f <;> cases f' <;> first | rfl | simp [Field.idx] at h

/-- The position of a word tells the word. -/
theorem Word.eq_of_idx {w w' : Word} (h : w.idx = w'.idx) : w = w' := by
  cases w with
  | ps p f =>
    have hp := p.idx_lt
    have hf := f.idx_lt
    cases w' with
    | ps p' f' =>
      have hf' := f'.idx_lt
      simp only [Word.idx] at h
      have hps : p = p' := Ps.idx_injective (by omega)
      have hfs : f = f' := Field.idx_injective (by omega)
      rw [hps, hfs]
    | _ => simp only [Word.idx] at h; omega
  | _ =>
    cases w' with
    | ps p' f' =>
      have hp := p'.idx_lt
      have hf' := f'.idx_lt
      simp only [Word.idx] at h
      omega
    | _ => first | rfl | simp [Word.idx] at h

section Runs

variable (x₀ : Sys) (inp : ℕ → Input)

/-- Word `w` of burst `j` is handed over as `v`. -/
def Handed (w : Word) (j : ℕ) (v : BitVec 32) : Prop :=
  ∃ c, triggers x₀ inp c = j + 1 ∧ (run sysStep x₀ inp c).regs.state = .word w ∧
    (inp c).wready = true ∧ v = w.data (run sysStep x₀ inp c).regs.datacnt (inp c)

/-- The number of bursts whose word `w` is in memory, after `n` triggers. -/
def present (w : Word) (n : ℕ) : Phase → ℕ
  | .address => n - 1
  | .word w' => if w.idx + 1 < w'.idx then n else n - 1
  | _ => n

/-- The words in memory, and the one on the bus, are those handed over. The last word of a burst is
left out: the machine does not wait until it is taken. -/
structure Kept (u : ℕ) : Prop where
  mem : ∀ w ≠ Word.wrdlast, Holds (fun t => (run sysStep x₀ inp u).ddr.mem (wordAddr t w.idx))
    ringSlots (present w (triggers x₀ inp u) (run sysStep x₀ inp u).regs.state) (Handed x₀ inp w)
  bus : ∀ w w', (run sysStep x₀ inp u).regs.state = .word w' → w.idx + 1 = w'.idx →
    Handed x₀ inp w (triggers x₀ inp u - 1) (run sysStep x₀ inp u).regs.axi.wdata

end Runs

theorem Word.idx_lt_of_ne {w : Word} (h : w ≠ .wrdlast) : w.idx < 39 := by
  have hle := w.idx_le
  have hne : w.idx ≠ 39 := fun heq => h (Word.eq_of_idx heq)
  omega

theorem present_bounds (w : Word) (n : ℕ) (phase : Phase) :
    n - 1 ≤ present w n phase ∧ present w n phase ≤ n := by
  unfold present
  split
  · omega
  · split_ifs <;> omega
  · omega

theorem present_next {v w : Word} (hv : v ≠ .wrdlast) (n : ℕ) :
    present v n w.next = if v.idx < w.idx then n else n - 1 := by
  have hidx := Word.idx_lt_of_ne hv
  rcases w.next_eq with ⟨w', hnext, hw'⟩ | ⟨hnext, hw⟩
  · rw [hnext]
    simp only [present, hw', Nat.add_lt_add_iff_right]
  · rw [hnext, if_pos (by omega)]
    rfl

section Steps

variable {x : Sys} {i : Input} {n : ℕ}

/-- In a state that hands over a word, the word before it goes to its place in the slot. -/
theorem mem_step_of_word {w : Word} (h : Inv x n) (hs : x.regs.state = .word w)
    (hready : i.wready = true) {s k : ℕ} (hslot : s < ringSlots) (hk : k < 40) :
    (x.ddr.step x.regs.axi i).mem (wordAddr s k) =
      if w.idx = k + 1 ∧ s = (n - 1) % ringSlots then x.regs.axi.wdata
      else x.ddr.mem (wordAddr s k) := by
  have hb := h.burst
  rw [hs] at hb
  obtain ⟨-, -, hw, hwaddr, -, -⟩ := hb
  have haw : x.regs.axi.awvalid = false := by rw [h.awvalid, hs]; rfl
  by_cases h0 : w.idx = 0
  · rw [(ddr_step_of_not_wvalid (show x.regs.axi.wvalid = false by rw [hw, h0]; rfl)).1,
      if_neg (by omega)]
  · have hv : x.regs.axi.wvalid = true := by rw [hw]; simpa using Nat.pos_of_ne_zero h0
    rw [(ddr_step_of_transfer haw hv hready).1, hwaddr]
    have hidx := w.idx_le
    split_ifs with hhit
    · obtain ⟨hword, rfl⟩ := hhit
      rw [hword, Nat.add_sub_cancel, Function.update_self]
    · apply Function.update_of_ne
      intro heq
      obtain ⟨hslots, hwords⟩ := wordAddr_inj hslot (slot_lt _) hk (by omega) heq
      exact hhit ⟨by omega, hslots⟩

/-- In the other states at most the last word of a burst is taken. -/
theorem mem_step_of_not_word (h : Inv x n) (hs : ∀ w, x.regs.state ≠ .word w) {s k : ℕ}
    (hslot : s < ringSlots) (hk : k < 39) :
    (x.ddr.step x.regs.axi i).mem (wordAddr s k) = x.ddr.mem (wordAddr s k) := by
  have hb := h.burst
  cases hstate : x.regs.state with
  | idle =>
    rw [hstate] at hb
    rw [(ddr_step_of_not_wvalid hb.2.1).1]
  | address =>
    rw [hstate] at hb
    rw [(ddr_step_of_not_wvalid hb.2.2.2.1).1]
  | word w => exact absurd hstate (hs w)
  | awaitresp =>
    rw [hstate] at hb
    have haw : x.regs.axi.awvalid = false := by rw [h.awvalid, hstate]; rfl
    cases hready : i.wready with
    | false => rw [ddr_step_of_not_wready haw hready]
    | true =>
      cases hw : x.regs.axi.wvalid with
      | false => rw [(ddr_step_of_not_wvalid hw).1]
      | true =>
        rw [(ddr_step_of_transfer haw hw hready).1, hb.2.2.1 hw]
        apply Function.update_of_ne
        intro heq
        have := (wordAddr_inj hslot (slot_lt _) (by omega) (by omega) heq).2
        omega

end Steps

section Runs

variable {x₀ : Sys} {inp : ℕ → Input} (h : Configured x₀) (hr : ∀ n, (inp n).reset = false)

theorem regs_succ (x₀ : Sys) (inp : ℕ → Input) (u : ℕ) : (run sysStep x₀ inp (u + 1)).regs =
    step (run sysStep x₀ inp u).regs (inp u) :=
  congrArg Sys.regs (run_succ ..)

theorem triggers_succ_of_busy {u : ℕ} (hs : (run sysStep x₀ inp u).regs.state ≠ .idle) :
    triggers x₀ inp (u + 1) = triggers x₀ inp u := by
  apply tickCount_succ_of_not_tick
  unfold taken accepts
  simp [hs]

include h hr

theorem kept_of_not_word {u : ℕ} (hk : Kept x₀ inp u)
    (hs : ∀ w, (run sysStep x₀ inp u).regs.state ≠ .word w)
    (hbus : ∀ w, (run sysStep x₀ inp (u + 1)).regs.state = .word w → w = .hdr)
    (hpresent : ∀ w ≠ Word.wrdlast,
      present w (triggers x₀ inp (u + 1)) (run sysStep x₀ inp (u + 1)).regs.state =
        present w (triggers x₀ inp u) (run sysStep x₀ inp u).regs.state) :
    Kept x₀ inp (u + 1) := by
  refine ⟨fun w hw => ?_, fun w w' hstate hidx => ?_⟩
  · rw [hpresent w hw]
    apply (hk.mem w hw).congr
    intro s hslot
    exact mem_step_of_not_word (inv_run h hr u) hs hslot (Word.idx_lt_of_ne hw)
  · obtain rfl := hbus w' hstate
    exact absurd hidx (Nat.succ_ne_zero _)

theorem kept_idle {u : ℕ} (hk : Kept x₀ inp u) (hs : (run sysStep x₀ inp u).regs.state = .idle) :
    Kept x₀ inp (u + 1) := by
  have hstep := regs_succ x₀ inp u
  rw [step_of_not_reset (hr u), hs] at hstep
  have hacc : taken x₀ inp u =
      ((inp u).trigger && !(run sysStep x₀ inp u).regs.prevTrigger) := by
    unfold taken accepts
    simp [hr u, hs]
  cases ht : (inp u).trigger && !(run sysStep x₀ inp u).regs.prevTrigger with
  | true =>
    have hstate : (run sysStep x₀ inp (u + 1)).regs.state = .address := by
      rw [hstep]
      simp only [ht, if_true]
      rfl
    have hn : triggers x₀ inp (u + 1) = triggers x₀ inp u + 1 :=
      tickCount_succ_of_tick (hacc.trans ht)
    refine kept_of_not_word h hr hk (by simp [hs]) (by simp [hstate]) fun w _ => ?_
    rw [hstate, hs, hn]
    rfl
  | false =>
    have hstate : (run sysStep x₀ inp (u + 1)).regs.state = .idle := by
      rw [hstep]
      simp only [ht, Bool.false_eq_true, if_false]
    have hn : triggers x₀ inp (u + 1) = triggers x₀ inp u :=
      tickCount_succ_of_not_tick (hacc.trans ht)
    refine kept_of_not_word h hr hk (by simp [hs]) (by simp [hstate]) fun w _ => ?_
    rw [hstate, hs, hn]

theorem kept_address {u : ℕ} (hk : Kept x₀ inp u)
    (hs : (run sysStep x₀ inp u).regs.state = .address) : Kept x₀ inp (u + 1) := by
  have hstep := regs_succ x₀ inp u
  rw [step_of_not_reset (hr u), hs] at hstep
  have hn : triggers x₀ inp (u + 1) = triggers x₀ inp u := triggers_succ_of_busy (by simp [hs])
  cases hready : (inp u).awready with
  | true =>
    have hstate : (run sysStep x₀ inp (u + 1)).regs.state = .word .hdr := by
      rw [hstep]
      simp only [hready, if_true]
    refine kept_of_not_word h hr hk (by simp [hs]) (by simp [hstate]) fun w _ => ?_
    rw [hstate, hs, hn]
    simp [present, Word.idx]
  | false =>
    have hstate : (run sysStep x₀ inp (u + 1)).regs.state = .address := by
      rw [hstep]
      simp only [hready, Bool.false_eq_true, if_false]
      exact hs
    refine kept_of_not_word h hr hk (by simp [hs]) (by simp [hstate]) fun w _ => ?_
    rw [hstate, hs, hn]

theorem kept_awaitresp {u : ℕ} (hk : Kept x₀ inp u)
    (hs : (run sysStep x₀ inp u).regs.state = .awaitresp) : Kept x₀ inp (u + 1) := by
  have hstep := regs_succ x₀ inp u
  rw [step_of_not_reset (hr u), hs] at hstep
  have hn : triggers x₀ inp (u + 1) = triggers x₀ inp u := triggers_succ_of_busy (by simp [hs])
  have hstate : (run sysStep x₀ inp (u + 1)).regs.state = .idle ∨
      (run sysStep x₀ inp (u + 1)).regs.state = .awaitresp := by
    rw [hstep]
    dsimp only
    split_ifs
    · exact Or.inl rfl
    · exact Or.inr rfl
  refine kept_of_not_word h hr hk (by simp [hs]) ?_ fun w _ => ?_
  · rcases hstate with hstate | hstate <;> simp [hstate]
  · rw [hs, hn]
    rcases hstate with hstate | hstate
    · rw [hstate]; rfl
    · rw [hstate]

theorem run_succ_of_not_wready {u : ℕ} {w : Word}
    (hs : (run sysStep x₀ inp u).regs.state = .word w) (hready : (inp u).wready = false) :
    run sysStep x₀ inp (u + 1) = run sysStep x₀ inp u := by
  have haw : (run sysStep x₀ inp u).regs.axi.awvalid = false := by
    rw [(inv_run h hr u).awvalid, hs]
    rfl
  rw [run_succ]
  show (⟨step _ _, Ddr.step _ _ _⟩ : Sys) = _
  rw [step_of_not_reset (hr u), hs, ddr_step_of_not_wready haw hready]
  simp only [hready, Bool.false_eq_true, if_false]

/-- The word before the one that is handed over goes to memory, and the others stay. -/
theorem holds_after_word {u : ℕ} {v w : Word} (hk : Kept x₀ inp u)
    (hs : (run sysStep x₀ inp u).regs.state = .word w) (hready : (inp u).wready = true)
    (hv : v ≠ .wrdlast) : Holds (fun t => (run sysStep x₀ inp (u + 1)).ddr.mem (wordAddr t v.idx))
      ringSlots (if v.idx < w.idx then triggers x₀ inp u else triggers x₀ inp u - 1)
      (Handed x₀ inp v) := by
  have hinv := inv_run h hr u
  have hb := hinv.burst
  rw [hs] at hb
  obtain ⟨hpos, -⟩ := hb
  have hidx := Word.idx_lt_of_ne hv
  have hmem : ∀ s < ringSlots, (run sysStep x₀ inp (u + 1)).ddr.mem (wordAddr s v.idx) = _ :=
    fun s hslot => mem_step_of_word hinv hs hready hslot (by omega)
  have hbefore := hk.mem v hv
  rw [hs] at hbefore
  simp only [present] at hbefore
  rcases Nat.lt_trichotomy (v.idx + 1) w.idx with hlt | heq | hgt
  · rw [if_pos hlt] at hbefore
    rw [if_pos (by omega)]
    apply hbefore.congr
    intro s hslot
    rw [hmem s hslot, if_neg (by omega)]
  · rw [if_neg (by omega)] at hbefore
    rw [if_pos (by omega), show triggers x₀ inp u = triggers x₀ inp u - 1 + 1 by omega]
    apply hbefore.push
    · rw [hmem _ (slot_lt _), if_pos ⟨heq.symm, rfl⟩]
      exact hk.bus v w hs heq
    · intro s hslot hne
      rw [hmem s hslot, if_neg (fun hhit => hne hhit.2)]
  · rw [if_neg (by omega)] at hbefore
    rw [if_neg (by omega)]
    apply hbefore.congr
    intro s hslot
    rw [hmem s hslot, if_neg (by omega)]

theorem kept_word {u : ℕ} {w : Word} (hk : Kept x₀ inp u)
    (hs : (run sysStep x₀ inp u).regs.state = .word w) : Kept x₀ inp (u + 1) := by
  have hn : triggers x₀ inp (u + 1) = triggers x₀ inp u := triggers_succ_of_busy (by simp [hs])
  cases hready : (inp u).wready with
  | false =>
    have hsame := run_succ_of_not_wready h hr hs hready
    refine ⟨?_, ?_⟩
    · rw [hsame, hn]
      exact hk.mem
    · rw [hsame, hn]
      exact hk.bus
  | true =>
    have hstep : (run sysStep x₀ inp (u + 1)).regs =
        writeWord (run sysStep x₀ inp u).regs (inp u) w := by
      rw [regs_succ, step_of_not_reset (hr u), hs]
      exact if_pos hready
    have hstate : (run sysStep x₀ inp (u + 1)).regs.state = w.next := by rw [hstep]; rfl
    refine ⟨fun v hv => ?_, fun v w' hword hidx => ?_⟩
    · rw [hstate, hn, present_next hv]
      exact holds_after_word h hr hk hs hready hv
    · -- the word just handed over is on the bus now
      rw [hstate] at hword
      rcases w.next_eq with ⟨w'', hnext, hidx'⟩ | ⟨hnext, -⟩
      · obtain rfl : w'' = w' := by simpa using hnext.symm.trans hword
        obtain rfl : v = w := Word.eq_of_idx (by omega)
        have hb := (inv_run h hr u).burst
        rw [hs] at hb
        obtain ⟨hpos, -⟩ := hb
        rw [hstep]
        exact ⟨u, by omega, hs, hready, rfl⟩
      · cases hnext.symm.trans hword

/-- **What is in the ring.** In a run from configuration without reset. -/
theorem kept_run (u : ℕ) : Kept x₀ inp u := by
  induction u with
  | zero =>
    refine ⟨fun w _ => ?_, fun w w' hstate => ?_⟩
    · rw [show (run sysStep x₀ inp 0).regs.state = .idle from h.state]
      exact holds_zero
    · rw [show (run sysStep x₀ inp 0).regs.state = .idle from h.state] at hstate
      simp at hstate
  | succ u ih =>
    cases hs : (run sysStep x₀ inp u).regs.state with
    | idle => exact kept_idle h hr ih hs
    | address => exact kept_address h hr ih hs
    | word w => exact kept_word h hr ih hs
    | awaitresp => exact kept_awaitresp h hr ih hs

/-- Burst `n` is in the ring at clock `u`: it has been started and is not under way, and none of the
bursts since has taken its slot. -/
def InRing (x₀ : Sys) (inp : ℕ → Input) (n u : ℕ) : Prop :=
  n < triggers x₀ inp u ∧ triggers x₀ inp u ≤ n + ringSlots ∧
    (triggers x₀ inp u = n + 1 → (run sysStep x₀ inp u).regs.state = .idle ∨
      (run sysStep x₀ inp u).regs.state = .awaitresp)

theorem handed_of_inRing {u n : ℕ} (hin : InRing x₀ inp n u) {w : Word} (hw : w ≠ .wrdlast) :
    Handed x₀ inp w n
      ((run sysStep x₀ inp u).ddr.mem (wordAddr (n % ringSlots) w.idx)) := by
  obtain ⟨hlt, hle, hdone⟩ := hin
  obtain ⟨hlow, hhigh⟩ := present_bounds w (triggers x₀ inp u)
    (run sysStep x₀ inp u).regs.state
  refine (kept_run h hr u).mem w hw n ?_ (by omega)
  by_cases heq : triggers x₀ inp u = n + 1
  · rcases hdone heq with hs | hs
    · rw [hs]
      exact hlt
    · rw [hs]
      exact hlt
  · omega

end Runs

/-! ## The columns of a burst -/

section Record

variable {mem : BitVec 32 → BitVec 32} {d : DcctAdcs} {m : MonAdcs}

theorem toInt_reading (f : Field) : (f.reading d m).toInt = f.signed d m := by
  cases f <;> exact BitVec.toInt_signExtend_of_le (by omega)

theorem wordAddr_add (t k : ℕ) : wordAddr t 0 + BitVec.ofNat 32 (4 * k) = wordAddr t k := by
  unfold wordAddr
  rw [← BitVec.ofNat_add]
  congr 1

theorem copyRecord_ps (b : Board) (ps : Ps) (t : ℕ) :
    copyRecord b (ps.idx + 1) mem (wordAddr t 0) =
      copyTurn b (ps.idx + 1) (fun k => mem (wordAddr t k))
        (Word.ps ps .dcct1).idx (Word.ps ps .dcct2).idx (Word.ps ps .mon1).idx
        (Word.ps ps .mon2).idx (Word.ps ps .mon3).idx (Word.ps ps .mon4).idx
        (Word.ps ps .mon5).idx (Word.ps ps .mon6).idx := by
  have hword : (fun k => mem (wordAddr t 0 + BitVec.ofNat 32 (4 * k))) =
      fun k => mem (wordAddr t k) := by
    funext k
    rw [wordAddr_add]
  unfold copyRecord
  rw [hword]
  cases ps <;> rfl

end Record

/-- **The columns of a record.** In a run from configuration without reset, for a burst `n` that is
in the ring, the columns of a supply are the header, the number of the burst, and its readings, each
as it was when its word was handed over, times the conversion and the scale factor of the column;
whole records give ten columns each, in order. -/
theorem columns_of_burst (x₀ : Sys) (inp : ℕ → Input) (h : Configured x₀)
    (hr : ∀ n, (inp n).reset = false) (b : Board) (ps : Ps) :
    (∀ u n, InRing x₀ inp n u → ∃ v : Field → ℤ,
      (∀ f, ∃ c, triggers x₀ inp c = n + 1 ∧
        (run sysStep x₀ inp c).regs.state = .word (.ps ps f) ∧ (inp c).wready = true ∧
        v f = f.signed ((inp c).dcctAdcs ps) ((inp c).monAdcs ps)) ∧
      copyRecord b (ps.idx + 1) (run sysStep x₀ inp u).ddr.mem (wordAddr (n % ringSlots) 0) =
        [(2 ^ 31 : ℚ), ((n + 1) % 2 ^ 32 : ℕ),
          v .dcct1 * b.convDacBitsToVolts * (b.sf ps.chan).dacDccts,
          v .dcct2 * b.convDacBitsToVolts * (b.sf ps.chan).dacDccts,
          v .mon1 * conv16BitsToVolts * (b.sf ps.chan).dacDccts,
          v .mon2 * conv16BitsToVolts * (b.sf ps.chan).vout,
          v .mon3 * conv16BitsToVolts * (b.sf ps.chan).ignd,
          v .mon4 * conv16BitsToVolts * (b.sf ps.chan).spare,
          v .mon5 * conv16BitsToVolts * (b.sf ps.chan).regulator,
          v .mon6 * conv16BitsToVolts * (b.sf ps.chan).error]) ∧
    ∀ (mem : BitVec 32 → BitVec 32) (bufData numwords : BitVec 32), numwords.toNat % 40 = 0 →
      (copyColumns b (ps.idx + 1) mem bufData numwords).length = numwords.toNat / 4 ∧
      ∀ j < numwords.toNat / 40,
        ((copyColumns b (ps.idx + 1) mem bufData numwords).drop (10 * j)).take 10 =
          copyRecord b (ps.idx + 1) mem (bufData + BitVec.ofNat 32 (160 * j)) := by
  have hidx := ps.idx_lt
  constructor
  · intro u n hin
    obtain ⟨_, -, -, -, hhdr⟩ := handed_of_inRing h hr hin (w := .hdr) (by simp)
    obtain ⟨c, hc, -, -, hcnt⟩ := handed_of_inRing h hr hin (w := .cnt) (by simp)
    have hdata := (inv_run h hr c).datacnt
    rw [hc] at hdata
    refine ⟨fun f => ((run sysStep x₀ inp u).ddr.mem
      (wordAddr (n % ringSlots) (Word.ps ps f).idx)).toInt, fun f => ?_, ?_⟩
    · obtain ⟨c, hc, hs, hready, hword⟩ := handed_of_inRing h hr hin (w := .ps ps f) (by simp)
      refine ⟨c, hc, hs, hready, ?_⟩
      dsimp only
      rw [hword]
      exact toInt_reading f
    · rw [copyRecord_ps]
      have hone : (run sysStep x₀ inp u).ddr.mem (wordAddr (n % ringSlots) 1) =
          BitVec.ofNat 32 (n + 1) := hcnt.trans hdata
      have hzero : (run sysStep x₀ inp u).ddr.mem (wordAddr (n % ringSlots) 0) = 0x80000000 := hhdr
      have hchan : BitVec.ofNat 32 (ps.idx + 1) = ps.chan := rfl
      have htop : (0x80000000 : BitVec 32).toNat = 2 ^ 31 := rfl
      simp only [copyTurn, hone, hzero, hchan, htop, BitVec.toNat_ofNat, Nat.cast_pow,
        Nat.cast_ofNat]
  · intro mem bufData numwords hwords
    exact copyColumns_records (by omega) mem bufData hwords

/-- A trigger every fifty clocks, and readings that tell the supplies and the quantities apart. -/
def sampled (n : ℕ) : Input :=
  { pulses n with
    dcctAdcs := fun ps => ⟨BitVec.ofNat 20 (100 * ps.idx + 1), BitVec.ofInt 20 (-100 * ps.idx - 2)⟩
    monAdcs := fun ps => ⟨BitVec.ofNat 16 (100 * ps.idx + 3), BitVec.ofInt 16 (-100 * ps.idx - 4),
      BitVec.ofNat 16 (100 * ps.idx + 5), BitVec.ofInt 16 (-100 * ps.idx - 6),
      BitVec.ofNat 16 (100 * ps.idx + 7), BitVec.ofInt 16 (-100 * ps.idx - 8)⟩ }

/-- A board with a factor of its own for each quantity. -/
def scaledBoard : Board :=
  { groundBoard with
    toDevice := { groundBoard.toDevice with scalefactors := fun _ => ⟨⟨1, 2⟩, 3, 4, 5, 6, 7⟩ } }

theorem triggers_sampled {j : ℕ} (hj : j < 50) : triggers restSys sampled (1 + j) = 1 := by
  induction j with
  | zero => exact tickCount_succ_of_tick rfl
  | succ j ih =>
    have hlow : taken restSys sampled (1 + j) = false := by
      have ht : (sampled (1 + j)).trigger = false := by
        show ((1 + j) % 50 == 0) = false
        rw [beq_eq_false_iff_ne]
        omega
      unfold taken accepts
      simp [ht]
    exact (tickCount_succ_of_not_tick hlow).trans (ih (by omega))

/-- The first burst of this run, for the third supply. -/
theorem third_supply_columns :
    InRing restSys sampled 0 50 ∧
      copyRecord scaledBoard 3 (run sysStep restSys sampled 50).ddr.mem (wordAddr 0 0) =
        [2 ^ 31, 1, 201 * (10 / 524288) * 2, -202 * (10 / 524288) * 2,
          203 * conv16BitsToVolts * 2, -204 * conv16BitsToVolts * 3, 205 * conv16BitsToVolts * 4,
          -206 * conv16BitsToVolts * 5, 207 * conv16BitsToVolts * 6, -208 * conv16BitsToVolts * 7] ∧
      (copyColumns scaledBoard 3 (run sysStep restSys sampled 50).ddr.mem bufStart 80).length =
        20 := by
  have hin : InRing restSys sampled 0 50 := by
    have hone : triggers restSys sampled 50 = 1 :=
      triggers_sampled (j := 49) (by omega)
    refine ⟨?_, ?_, fun _ => Or.inl rfl⟩
    · rw [hone]
      exact Nat.zero_lt_one
    · rw [hone]
      unfold ringSlots
      omega
  obtain ⟨hcolumns, hcount⟩ := columns_of_burst restSys sampled configured_restSys (fun _ => rfl)
    scaledBoard .ps3
  refine ⟨hin, ?_, (hcount _ bufStart 80 rfl).1⟩
  obtain ⟨v, hv, hcopy⟩ := hcolumns 50 0 hin
  have hread : ∀ f, v f = f.signed ((sampled 0).dcctAdcs .ps3) ((sampled 0).monAdcs .ps3) := by
    intro f
    obtain ⟨c, -, -, -, hvf⟩ := hv f
    exact hvf
  simp only [hread] at hcopy
  exact hcopy

end Psc.Snapshot
