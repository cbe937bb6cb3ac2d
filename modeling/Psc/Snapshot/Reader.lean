import Psc.Snapshot.Writer

/-!
# The snapshot reader

`snapshots.c`: the records of a waveform are copied from the ring in DDR, `pretrigpts` of them from
before the trigger address and `posttrigpts` from it on, in up to three runs. The buffer that is
read has 200000 slots; the ring that is written has one more.

1. `read_slots`: which slots are read, for any trigger address of the ring.
2. So the runs on the two sides of the seam do not join: before it the reader is one slot behind,
   after it the slot at `DDR_MAX_ADDR` is left out.

`ring_geometry_iff`: which bursts lie where the reader expects them, and which windows are read
without a gap.
-/

namespace Psc.Snapshot

open Clocked RingLog

/-! ## Copying -/

/-- `BUFSTART`. -/
def bufStart : BitVec 32 := 0x10000000

/-- `BUFLEN`. -/
def bufLen : BitVec 32 := 0x01E84800

/-- `BUFSTEPBYTES`. -/
def bufStepBytes : BitVec 32 := 0xA0

/-- `BUFSTEPWORDS`, and `WORDSPERSAMPLE`. -/
def bufStepWords : BitVec 32 := 40

/-- `CopyDataChan`: the addresses of the records that are copied, one for each forty words. -/
def copyDataChan (bufData numwords : BitVec 32) : List (BitVec 32) :=
  (List.range ((numwords.toNat + 39) / 40)).map fun k => bufData + BitVec.ofNat 32 (160 * k)

/-- `ReadDMABuf`: the addresses of the records that are copied, in order. -/
def readDMABuf (addr pretrigpts posttrigpts : BitVec 32) : List (BitVec 32) :=
  let startaddr := addr - pretrigpts * bufStepBytes
  let stopaddr := addr + posttrigpts * bufStepBytes
  if startaddr.ult 0x10000000 then
    -- the records before the trigger wrap
    let presecnumwords := (addr - bufStart) >>> 2
    let prefirstnumwords := pretrigpts * bufStepWords - presecnumwords
    copyDataChan (bufStart + bufLen - prefirstnumwords * 4) prefirstnumwords ++
      copyDataChan bufStart presecnumwords ++ copyDataChan addr (posttrigpts * bufStepWords)
  else if (bufStart + bufLen).ult stopaddr then
    -- the records after the trigger wrap
    let postfirstnumwords := (bufStart + bufLen - addr) >>> 2
    let postsecnumwords := posttrigpts * bufStepWords - postfirstnumwords
    copyDataChan startaddr (pretrigpts * bufStepWords) ++
      copyDataChan addr postfirstnumwords ++ copyDataChan bufStart postsecnumwords
  else copyDataChan startaddr ((pretrigpts + posttrigpts) * bufStepWords)

/-- The data-point counters of records. -/
def counters (mem : BitVec 32 → BitVec 32) (records : List (BitVec 32)) : List (BitVec 32) :=
  records.map fun a => mem (a + 4)

/-- The counters of the slots from `s` on. -/
def slotCounters (mem : BitVec 32 → BitVec 32) (s len : ℕ) : List (BitVec 32) :=
  (List.range' s len).map fun t => mem (wordAddr t 1)

/-- The records of the slots from `s` on. -/
def slotRecords (s len : ℕ) : List (BitVec 32) := (List.range' s len).map fun t => wordAddr t 0

section Copy

variable (mem : BitVec 32 → BitVec 32)

theorem counters_append (l l' : List (BitVec 32)) :
    counters mem (l ++ l') = counters mem l ++ counters mem l' :=
  List.map_append

theorem copy_slots {bufData numwords : BitVec 32} {s len : ℕ} (hdata : bufData = wordAddr s 0)
    (hwords : numwords.toNat = 40 * len) : copyDataChan bufData numwords = slotRecords s len := by
  unfold copyDataChan slotRecords
  rw [hwords, show (40 * len + 39) / 40 = len by omega, List.range'_eq_map_range, List.map_map]
  apply List.map_congr_left
  intro k _
  show bufData + BitVec.ofNat 32 (160 * k) = wordAddr (s + k) 0
  rw [hdata]
  unfold wordAddr
  rw [← BitVec.ofNat_add]
  congr 1
  omega

theorem counters_slotRecords (s len : ℕ) :
    counters mem (slotRecords s len) = slotCounters mem s len := by
  unfold counters slotRecords slotCounters
  rw [List.map_map]
  apply List.map_congr_left
  intro t _
  show mem (wordAddr t 0 + 4) = mem (wordAddr t 1)
  rw [wordAddr_succ]

theorem slotRecords_append (s len len' : ℕ) :
    slotRecords s len ++ slotRecords (s + len) len' = slotRecords s (len + len') := by
  unfold slotRecords
  rw [← List.map_append, ← List.range'_append_1]

theorem eq_wordAddr {a : BitVec 32} {s : ℕ} (hs : s < ringSlots)
    (h : a.toNat = 0x10000000 + 160 * s) : a = wordAddr s 0 := by
  apply BitVec.eq_of_toNat_eq
  rw [toNat_wordAddr hs (by omega), h]
  omega

theorem slotCounters_append (s len len' : ℕ) :
    slotCounters mem s len ++ slotCounters mem (s + len) len' =
      slotCounters mem s (len + len') := by
  unfold slotCounters
  rw [← List.map_append, ← List.range'_append_1]

end Copy

theorem toNat_mul_points (pts c : BitVec 32) (hpts : pts.toNat ≤ 200000) (hc : c.toNat ≤ 160) :
    (pts * c).toNat = c.toNat * pts.toNat := by
  have hlt : pts.toNat * c.toNat < 2 ^ 32 := by
    have := Nat.mul_le_mul hpts hc
    omega
  rw [BitVec.toNat_mul_of_lt hlt, Nat.mul_comm]

section Read

variable {t : ℕ} {pre post : BitVec 32}

theorem bufStart_eq : bufStart = wordAddr 0 0 := rfl

theorem toNat_buffer_end : (bufStart + bufLen).toNat = 0x10000000 + 160 * 200000 := rfl

theorem toNat_startaddr (ht : t < ringSlots) (hp : pre.toNat ≤ 200000) :
    (wordAddr t 0 - pre * bufStepBytes).toNat = 0x10000000 + 160 * t - 160 * pre.toNat := by
  have hpre : (pre * bufStepBytes).toNat = 160 * pre.toNat :=
    toNat_mul_points pre bufStepBytes hp (by decide)
  rw [BitVec.toNat_sub, toNat_wordAddr ht (by omega), hpre]
  unfold ringSlots at ht
  omega

theorem startaddr_ult_iff (ht : t < ringSlots) (hp : pre.toNat ≤ 200000) :
    (wordAddr t 0 - pre * bufStepBytes).ult 0x10000000 = true ↔ t < pre.toNat := by
  rw [BitVec.ult_eq_decide, toNat_startaddr ht hp, decide_eq_true_iff,
    show (0x10000000 : BitVec 32).toNat = 0x10000000 from rfl]
  omega

theorem ult_stopaddr_iff (ht : t < ringSlots) (hq : post.toNat ≤ 200000) :
    (bufStart + bufLen).ult (wordAddr t 0 + post * bufStepBytes) = true ↔
      200000 < t + post.toNat := by
  have hpost : (post * bufStepBytes).toNat = 160 * post.toNat :=
    toNat_mul_points post bufStepBytes hq (by decide)
  have hstop : (wordAddr t 0 + post * bufStepBytes).toNat =
      0x10000000 + 160 * t + 160 * post.toNat := by
    rw [BitVec.toNat_add, toNat_wordAddr ht (by omega), hpost]
    unfold ringSlots at ht
    omega
  rw [BitVec.ult_eq_decide, hstop, toNat_buffer_end, decide_eq_true_iff]
  omega

theorem startaddr_eq (ht : t < ringSlots) (hp : pre.toNat ≤ 200000) (hle : pre.toNat ≤ t) :
    wordAddr t 0 - pre * bufStepBytes = wordAddr (t - pre.toNat) 0 := by
  apply eq_wordAddr
  · omega
  · rw [toNat_startaddr ht hp]
    omega

theorem toNat_presecnumwords (ht : t < ringSlots) :
    ((wordAddr t 0 - bufStart) >>> 2).toNat = 40 * t := by
  rw [BitVec.toNat_ushiftRight, Nat.shiftRight_eq_div_pow, BitVec.toNat_sub,
    toNat_wordAddr ht (by omega), show bufStart.toNat = 0x10000000 from rfl]
  unfold ringSlots at ht
  omega

theorem toNat_prefirstnumwords (ht : t < ringSlots) (hp : pre.toNat ≤ 200000)
    (hlt : t < pre.toNat) :
    (pre * bufStepWords - (wordAddr t 0 - bufStart) >>> 2).toNat = 40 * (pre.toNat - t) := by
  rw [BitVec.toNat_sub, toNat_presecnumwords ht,
    toNat_mul_points pre bufStepWords hp (by decide), show bufStepWords.toNat = 40 from rfl]
  omega

theorem toNat_postfirstnumwords (ht : t < ringSlots) :
    ((bufStart + bufLen - wordAddr t 0) >>> 2).toNat = 40 * (200000 - t) := by
  unfold ringSlots at ht
  rw [BitVec.toNat_ushiftRight, Nat.shiftRight_eq_div_pow, BitVec.toNat_sub,
    toNat_wordAddr (by unfold ringSlots; omega) (by omega), toNat_buffer_end]
  omega

theorem read_wrap_pre (ht : t < ringSlots) (hp : pre.toNat ≤ 200000) (hq : post.toNat ≤ 200000)
    (hlt : t < pre.toNat) :
    readDMABuf (wordAddr t 0) pre post =
      slotRecords (200000 - (pre.toNat - t)) (pre.toNat - t) ++
        slotRecords 0 (t + post.toNat) := by
  have hsec := toNat_presecnumwords ht
  have hfirst := toNat_prefirstnumwords ht hp hlt
  have hbegin : bufStart + bufLen - (pre * bufStepWords - (wordAddr t 0 - bufStart) >>> 2) * 4 =
      wordAddr (200000 - (pre.toNat - t)) 0 := by
    apply eq_wordAddr
    · unfold ringSlots
      omega
    · rw [BitVec.toNat_sub, toNat_buffer_end, BitVec.toNat_mul, hfirst,
        show (4 : BitVec 32).toNat = 4 from rfl]
      omega
  have hpost : (post * bufStepWords).toNat = 40 * post.toNat :=
    toNat_mul_points post bufStepWords hq (by decide)
  unfold readDMABuf
  rw [if_pos ((startaddr_ult_iff ht hp).mpr hlt)]
  dsimp only
  rw [copy_slots hbegin hfirst, copy_slots bufStart_eq hsec, copy_slots (s := t) rfl hpost,
    List.append_assoc]
  congr 1
  have hjoin := slotRecords_append 0 t post.toNat
  rwa [Nat.zero_add] at hjoin

theorem read_wrap_post (ht : t < ringSlots) (hp : pre.toNat ≤ 200000) (hq : post.toNat ≤ 200000)
    (hle : pre.toNat ≤ t) (hgt : 200000 < t + post.toNat) :
    readDMABuf (wordAddr t 0) pre post =
      slotRecords (t - pre.toNat) (pre.toNat + (200000 - t)) ++
        slotRecords 0 (t + post.toNat - 200000) := by
  have hfirst := toNat_postfirstnumwords ht
  have hsec : (post * bufStepWords - (bufStart + bufLen - wordAddr t 0) >>> 2).toNat =
      40 * (t + post.toNat - 200000) := by
    unfold ringSlots at ht
    rw [BitVec.toNat_sub, hfirst, toNat_mul_points post bufStepWords hq (by decide),
      show bufStepWords.toNat = 40 from rfl]
    omega
  have hpre : (pre * bufStepWords).toNat = 40 * pre.toNat :=
    toNat_mul_points pre bufStepWords hp (by decide)
  unfold readDMABuf
  rw [if_neg (fun h => absurd ((startaddr_ult_iff ht hp).mp h) (by omega)),
    if_pos ((ult_stopaddr_iff ht hq).mpr hgt)]
  dsimp only
  rw [copy_slots (startaddr_eq ht hp hle) hpre, copy_slots (s := t) rfl hfirst,
    copy_slots bufStart_eq hsec]
  congr 1
  have hjoin := slotRecords_append (t - pre.toNat) pre.toNat (200000 - t)
  rwa [Nat.sub_add_cancel hle] at hjoin

theorem read_no_wrap (ht : t < ringSlots) (hsum : pre.toNat + post.toNat ≤ 200000)
    (hle : pre.toNat ≤ t) (hfit : t + post.toNat ≤ 200000) :
    readDMABuf (wordAddr t 0) pre post = slotRecords (t - pre.toNat) (pre.toNat + post.toNat) := by
  have hadd : (pre + post).toNat = pre.toNat + post.toNat := by
    rw [BitVec.toNat_add]
    omega
  have hwords : ((pre + post) * bufStepWords).toNat = 40 * (pre.toNat + post.toNat) := by
    rw [← hadd]
    exact toNat_mul_points _ bufStepWords (by omega) (by decide)
  unfold readDMABuf
  rw [if_neg (fun h => absurd ((startaddr_ult_iff ht (by omega)).mp h) (by omega)),
    if_neg (fun h => absurd ((ult_stopaddr_iff ht (by omega)).mp h) (by omega))]
  exact copy_slots (startaddr_eq ht (by omega) hle) hwords

/-- **The slots that are read** for a trigger in slot `t`. -/
theorem read_slots (ht : t < ringSlots) (hsum : pre.toNat + post.toNat ≤ 200000) :
    readDMABuf (wordAddr t 0) pre post =
      if t < pre.toNat then
        slotRecords (200000 - (pre.toNat - t)) (pre.toNat - t) ++ slotRecords 0 (t + post.toNat)
      else if 200000 < t + post.toNat then
        slotRecords (t - pre.toNat) (pre.toNat + (200000 - t)) ++
          slotRecords 0 (t + post.toNat - 200000)
      else slotRecords (t - pre.toNat) (pre.toNat + post.toNat) := by
  split_ifs with hlt hgt
  · exact read_wrap_pre ht (by omega) (by omega) hlt
  · exact read_wrap_post ht (by omega) (by omega) (by omega) hgt
  · exact read_no_wrap ht hsum (by omega) (by omega)

theorem counters_read (mem : BitVec 32 → BitVec 32) (ht : t < ringSlots)
    (hsum : pre.toNat + post.toNat ≤ 200000) :
    counters mem (readDMABuf (wordAddr t 0) pre post) =
      if t < pre.toNat then
        slotCounters mem (200000 - (pre.toNat - t)) (pre.toNat - t) ++
          slotCounters mem 0 (t + post.toNat)
      else if 200000 < t + post.toNat then
        slotCounters mem (t - pre.toNat) (pre.toNat + (200000 - t)) ++
          slotCounters mem 0 (t + post.toNat - 200000)
      else slotCounters mem (t - pre.toNat) (pre.toNat + post.toNat) := by
  rw [read_slots ht hsum]
  split_ifs <;> simp only [counters_append, counters_slotRecords]

end Read

/-! ## Windows -/

/-- The windows that are read without a gap: trigger number `m`, `p` records before it and `q` from
it on, with `n` bursts in memory. The window stays on one side of the seam; or it ends before the
first slot, and all of it is read one slot too early; or it starts at the slot that the reader does
not know, and the one record that is left out is the first. -/
def Readable (m p q n : ℕ) : Prop :=
  (p ≤ m % ringSlots ∧ m % ringSlots + q ≤ 200000) ∨
    (m % ringSlots < p ∧ m % ringSlots + q = 0) ∨
    (m % ringSlots = 200000 ∧ p = 0 ∧ (q ≤ 1 ∨ m + q < n))

section Windows

variable {mem : BitVec 32 → BitVec 32} {n m p q : ℕ}

theorem slot_of_revolution {a r s : ℕ} (ha : a = 200001 * r + s) (hs : s < 200001) :
    a % ringSlots = s := by
  unfold ringSlots
  omega

theorem slotCounters_eq (h : Log mem n) {a r s len : ℕ} (ha : a = 200001 * r + s)
    (hs : s < 200001) (hrev : s + len ≤ 200001) (hn : a + len ≤ n) (hlast : n ≤ a + 200001) :
    slotCounters mem s len = numbers 32 (a + 1) len := by
  unfold slotCounters
  rw [h.map_range' (slot_of_revolution ha hs) hrev hn hlast]
  unfold numbers
  rw [List.range'_eq_map_range, List.range'_eq_map_range, List.map_map, List.map_map]
  apply List.map_congr_left
  intro k _
  show BitVec.ofNat 32 (a + k + 1) = BitVec.ofNat 32 (a + 1 + k)
  rw [Nat.add_right_comm]

theorem consecutive_join_iff {a b la lb : ℕ} (hab : b < a + la + 2 ^ 32)
    (hba : a + la < b + 2 ^ 32) : Consecutive (numbers 32 a la ++ numbers 32 b lb) ↔
      la = 0 ∨ lb = 0 ∨ b = a + la := by
  rw [consecutive_append_iff, ofNat_eq_ofNat_iff hab hba]

variable {r t : ℕ}

theorem consecutive_wrap_pre (h : Log mem n) (hrev : m = 200001 * r + t) (hm : p ≤ m)
    (hq : m + q ≤ n) (hn : n + p ≤ m + 200000) (hp : p ≤ 200000) (hlt : t < p) :
    Consecutive (slotCounters mem (200000 - (p - t)) (p - t) ++ slotCounters mem 0 (t + q)) ↔
      t + q = 0 := by
  -- the slots before the seam belong to the revolution before
  obtain ⟨k, rfl⟩ : ∃ k, r = k + 1 := Nat.exists_eq_succ_of_ne_zero (by rintro rfl; omega)
  have hfirst : m - p - 1 = 200001 * k + (200000 - (p - t)) := by omega
  have hsecond : m - t = 200001 * (k + 1) + 0 := by omega
  rw [slotCounters_eq h hfirst (by omega) (by omega) (by omega) (by omega),
    slotCounters_eq h hsecond (by omega) (by omega) (by omega) (by omega),
    consecutive_join_iff (by omega) (by omega)]
  omega

/-- After the seam the slot at `DDR_MAX_ADDR` is left out. -/
theorem consecutive_wrap_post (h : Log mem n) (hrev : m = 200001 * r + t) (ht : t < 200001)
    (hq : m + q ≤ n) (hn : n + p ≤ m + 200000) (hpq : p + q ≤ 200000) (hle : p ≤ t)
    (hgt : 200000 < t + q) :
    Consecutive (slotCounters mem (t - p) (p + (200000 - t)) ++
        slotCounters mem 0 (t + q - 200000)) ↔ t = 200000 ∧ p = 0 ∧ (q ≤ 1 ∨ m + q < n) := by
  have hfirst : m - p = 200001 * r + (t - p) := by omega
  have hsecond : m - t + 200001 = 200001 * (r + 1) + 0 := by omega
  rw [slotCounters_eq h hfirst (by omega) (by omega) (by omega) (by omega)]
  rcases Nat.lt_or_eq_of_le hq with hlt | heq
  · -- all the slots after the seam are written again
    rw [slotCounters_eq h hsecond (by omega) (by omega) (by omega) (by omega),
      consecutive_join_iff (by omega) (by omega)]
    omega
  · -- the last of them still holds what was there one revolution before
    have hthird : m + q - 200001 = 200001 * r + (t + q - 200001) := by omega
    have hsplit := slotCounters_append mem 0 (t + q - 200001) 1
    rw [Nat.zero_add, show t + q - 200001 + 1 = t + q - 200000 by omega] at hsplit
    rw [← hsplit, slotCounters_eq h hsecond (by omega) (by omega) (by omega) (by omega),
      slotCounters_eq h hthird (by omega) (by omega) (by omega) (by omega)]
    by_cases hone : t + q - 200001 = 0
    · rw [hone, show numbers 32 (m - t + 200001 + 1) 0 = [] from rfl, List.nil_append,
        consecutive_join_iff (by omega) (by omega)]
      omega
    · constructor
      · intro hcons
        have hright : Consecutive (numbers 32 (m - t + 200001 + 1) (t + q - 200001) ++
            numbers 32 (m + q - 200001 + 1) 1) := List.IsChain.right_of_append hcons
        rw [consecutive_join_iff (by omega) (by omega)] at hright
        omega
      · omega

/-- Which windows are read without a gap. -/
theorem consecutive_read_iff (h : Log mem n) (pre post : BitVec 32)
    (hsum : pre.toNat + post.toNat ≤ 200000) (hm : pre.toNat ≤ m) (hq : m + post.toNat ≤ n)
    (hn : n + pre.toNat ≤ m + 200000) :
    Consecutive (counters mem (readDMABuf (wordAddr (m % ringSlots) 0) pre post)) ↔
      Readable m pre.toNat post.toNat n := by
  rw [counters_read mem (slot_lt m) hsum]
  unfold Readable
  have hrev : m = 200001 * (m / ringSlots) + m % ringSlots := (Nat.div_add_mod m ringSlots).symm
  have ht : m % ringSlots < 200001 := slot_lt m
  generalize m / ringSlots = r at *
  generalize m % ringSlots = t at *
  split_ifs with hlt hgt
  · rw [consecutive_wrap_pre h hrev hm hq hn (by omega) hlt]
    omega
  · rw [consecutive_wrap_post h hrev ht hq hn hsum (by omega) hgt]
    omega
  · have hfirst : m - pre.toNat = 200001 * r + (t - pre.toNat) := by omega
    rw [slotCounters_eq h hfirst (by omega) (by omega) (by omega) (by omega)]
    have hcons : Consecutive (numbers 32 (m - pre.toNat + 1) (pre.toNat + post.toNat)) :=
      consecutive_numbers _ _
    simp only [hcons, true_iff]
    left
    omega

end Windows

/-! ## Writer and reader -/

/-- **The geometry of the ring.** In a run from configuration without reset:

* the burst of trigger number `n` starts where a ring of 200000 slots has it, and lies inside the
  buffer, exactly if `n` is not the last of a revolution of the 200001 slots that are written and
  the number of revolutions before it is a multiple of 200000;
* a window around the trigger latched at clock `v`, all of whose records are in memory at clock `u`
  and none of which is about to be overwritten, is read without a gap exactly if it is
  `Readable`. -/
theorem ring_geometry_iff (x₀ : Sys) (inp : ℕ → Input) (h : Configured x₀)
    (hr : ∀ n, (inp n).reset = false) :
    (∀ a n, taken x₀ inp a = true → triggers x₀ inp a = n →
      ((run sysStep x₀ inp (a + 1)).regs.axi.awaddr.toNat = 0x10000000 + 160 * (n % 200000) ∧
          (run sysStep x₀ inp (a + 1)).regs.axi.awaddr.toNat +
            4 * ((run sysStep x₀ inp (a + 1)).regs.axi.awlen.toNat + 1) ≤
              bufStart.toNat + bufLen.toNat ↔
        n / 200001 % 200000 = 0 ∧ n % 200001 ≠ 200000)) ∧
    ∀ v u m pre post, triggers x₀ inp v = m + 1 → pre.toNat + post.toNat ≤ 200000 →
      pre.toNat ≤ m → m + post.toNat ≤ stored x₀ inp u →
      stored x₀ inp u + pre.toNat ≤ m + 200000 →
      (Consecutive (counters (run sysStep x₀ inp u).ddr.mem
          (readDMABuf (run sysStep x₀ inp v).regs.addrPtr pre post)) ↔
        Readable m pre.toNat post.toNat (stored x₀ inp u)) := by
  constructor
  · rintro a n ha rfl
    obtain ⟨haddr, hlen⟩ := axi_of_taken h hr ha
    have hbuf : bufStart.toNat + bufLen.toNat = 0x10000000 + 160 * 200000 := by decide
    rw [haddr, hlen, toNat_wordAddr (slot_lt _) (by omega), hbuf,
      show (39 : BitVec 8).toNat = 39 from rfl]
    unfold ringSlots
    generalize triggers x₀ inp a = n
    omega
  · intro v u m pre post hv hsum hm hq hn
    have hptr := (inv_run h hr v).addrPtr (by omega)
    rw [hv, Nat.add_sub_cancel] at hptr
    rw [hptr]
    exact consecutive_read_iff (inv_run h hr u).log pre post hsum hm hq hn

/-! ### A run -/

/-- A trigger every fifty clocks, with a memory that is always ready. -/
def pulses (n : ℕ) : Input where
  reset := false
  trigger := n % 50 == 0
  awready := true
  wready := true
  bvalid := true
  dcctAdcs _ := ⟨0, 0⟩
  monAdcs _ := ⟨0, 0, 0, 0, 0, 0⟩

/-- The state after configuration. -/
def restSys : Sys :=
  ⟨⟨.idle, 0, ddrBaseAddr, 0, false, ⟨0, 0, 0, 0, 0, 0, 0, 0, false, 0, false, 0, false, false⟩,
    0, 0⟩, ⟨0, fun _ => 0⟩⟩

theorem configured_restSys : Configured restSys := ⟨rfl, rfl, rfl, rfl, rfl⟩

theorem idle_after_burst {x : Sys} (hs : x.regs.state = .idle) (hp : x.regs.prevTrigger = false) :
    (run sysStep x pulses 50).regs.state = .idle ∧
      (run sysStep x pulses 50).regs.prevTrigger = false := by
  obtain ⟨⟨state, wordnum, addrBase, datacnt, prev, axi, addrPtr, cnt⟩, ddr⟩ := x
  obtain rfl : state = .idle := hs
  obtain rfl : prev = false := hp
  exact ⟨rfl, rfl⟩

theorem pulses_add (k : ℕ) : (fun j => pulses (50 * k + j)) = pulses := by
  funext j
  unfold pulses
  rw [Nat.mul_add_mod]

theorem idle_at_pulse (k : ℕ) : (run sysStep restSys pulses (50 * k)).regs.state = .idle ∧
    (run sysStep restSys pulses (50 * k)).regs.prevTrigger = false := by
  induction k with
  | zero => exact ⟨rfl, rfl⟩
  | succ k ih =>
    rw [Nat.mul_succ, run_add, pulses_add]
    exact idle_after_burst ih.1 ih.2

theorem taken_at_pulse (k : ℕ) : taken restSys pulses (50 * k) = true := by
  obtain ⟨hs, hp⟩ := idle_at_pulse k
  have ht : (pulses (50 * k)).trigger = true := by simp [pulses]
  unfold taken accepts
  rw [hs, hp, ht]
  rfl

theorem triggers_between (k j : ℕ) (hj : j < 50) :
    triggers restSys pulses (50 * k + 1 + j) = triggers restSys pulses (50 * k) + 1 := by
  induction j with
  | zero => exact tickCount_succ_of_tick (taken_at_pulse k)
  | succ j ih =>
    have hlow : taken restSys pulses (50 * k + 1 + j) = false := by
      have ht : (pulses (50 * k + 1 + j)).trigger = false := by
        show ((50 * k + 1 + j) % 50 == 0) = false
        rw [beq_eq_false_iff_ne]
        omega
      unfold taken accepts
      simp [ht]
    exact (tickCount_succ_of_not_tick hlow).trans (ih (by omega))

theorem triggers_at_pulse (k : ℕ) : triggers restSys pulses (50 * k) = k := by
  induction k with
  | zero => rfl
  | succ k ih => rw [Nat.mul_succ, triggers_between k 49 (by omega), ih]

theorem stored_at_pulse (k : ℕ) : stored restSys pulses (50 * k) = k := by
  unfold stored
  rw [triggers_at_pulse, (idle_at_pulse k).1]
  rfl

/-- The first burst is where it is expected, and three records around the third trigger are read
without a gap. -/
theorem first_bursts_in_place :
    ((run sysStep restSys pulses 1).regs.axi.awaddr.toNat = 0x10000000 + 160 * (0 % 200000) ∧
      (run sysStep restSys pulses 1).regs.axi.awaddr.toNat +
        4 * ((run sysStep restSys pulses 1).regs.axi.awlen.toNat + 1) ≤
          bufStart.toNat + bufLen.toNat) ∧
    Consecutive (counters (run sysStep restSys pulses (50 * 3)).ddr.mem
      (readDMABuf (run sysStep restSys pulses (50 * 3)).regs.addrPtr 2 1)) := by
  have hgeom := ring_geometry_iff restSys pulses configured_restSys (fun _ => rfl)
  constructor
  · exact (hgeom.1 0 0 (taken_at_pulse 0) rfl).mpr (by omega)
  · have hstored := stored_at_pulse 3
    refine (hgeom.2 (50 * 3) (50 * 3) 2 2 1 (triggers_at_pulse 3) (by decide) (by decide)
      (by simp [hstored]) (by simp [hstored])).mpr ?_
    left
    unfold ringSlots
    decide

/-- Burst 200000 is written past the end of the buffer, and the window of one record before and one
from the next trigger on leaves it out. -/
theorem burst_200000_outside :
    Configured restSys ∧ (∀ n, (pulses n).reset = false) ∧
    (taken restSys pulses (50 * 200000) = true ∧ triggers restSys pulses (50 * 200000) = 200000 ∧
      (run sysStep restSys pulses (50 * 200000 + 1)).regs.axi.awaddr = 0x11E84800 ∧
      (0x11E84800 : BitVec 32).toNat ≠ 0x10000000 + 160 * (200000 % 200000) ∧
      bufStart.toNat + bufLen.toNat ≤ (0x11E84800 : BitVec 32).toNat) ∧
    triggers restSys pulses (50 * 200002) = 200001 + 1 ∧
      stored restSys pulses (50 * 200002) = 200002 ∧
      ¬ Consecutive (counters (run sysStep restSys pulses (50 * 200002)).ddr.mem
        (readDMABuf (run sysStep restSys pulses (50 * 200002)).regs.addrPtr 1 1)) := by
  have hr : ∀ n, (pulses n).reset = false := fun _ => rfl
  refine ⟨configured_restSys, hr,
    ⟨taken_at_pulse 200000, triggers_at_pulse 200000, ?_, by decide, by decide⟩,
    triggers_at_pulse 200002, stored_at_pulse 200002, ?_⟩
  · rw [(axi_of_taken configured_restSys hr (taken_at_pulse 200000)).1, triggers_at_pulse]
    rfl
  · have hinv := inv_run configured_restSys hr (50 * 200002)
    have hlog := hinv.log
    have hptr := hinv.addrPtr
    rw [triggers_at_pulse] at hlog hptr
    rw [(idle_at_pulse 200002).1] at hlog
    rw [hptr (by omega), consecutive_read_iff (m := 200001) hlog 1 1 (by decide) (by decide)
      (by decide) (by decide)]
    unfold Readable ringSlots
    decide

end Psc.Snapshot
