import Psc.Snapshot.Columns

/-!
# The window of a waveform

For a trigger in one of the 200000 slots that it knows, `ReadDMABuf` copies the records of the
window one slot after the other around the ring, in one, two or three runs.

1. `records_eq_window`: the runs are the window, whichever branch is taken.
2. `readDMABufChecked` is `ReadDMABuf` with each difference checked. `window_exact`: no difference
   goes below zero, and no word outside the buffer is read.
-/

namespace Psc.Snapshot

open RingLog Control

/-- The number of slots that `ReadDMABuf` knows. -/
def bufSlots : ℕ := 200000

section Records

variable {k : ℕ} {pre post : BitVec 32}

/-- The slot of the first record. -/
def firstSlot (k pre : ℕ) : ℕ := (k + bufSlots - pre) % bufSlots

/-- The records are those of the window. -/
theorem records_eq_window (hk : k < bufSlots) (hsum : pre.toNat + post.toNat ≤ bufSlots) :
    readDMABuf (wordAddr k 0) pre post =
      (window bufSlots (firstSlot k pre.toNat) (pre.toNat + post.toNat)).map fun t =>
        wordAddr t 0 := by
  unfold bufSlots at hk hsum
  rw [read_slots (by unfold ringSlots; omega) hsum]
  unfold slotRecords firstSlot bufSlots
  split_ifs with hlt hgt
  · have hfirst : (k + 200000 - pre.toNat) % 200000 = 200000 - (pre.toNat - k) := by omega
    have hrun : 200000 - (200000 - (pre.toNat - k)) = pre.toNat - k := by omega
    have hrest : 200000 - (pre.toNat - k) + (pre.toNat + post.toNat) - 200000 =
        k + post.toNat := by omega
    rw [hfirst, window_of_ge (by omega) (by omega) (by omega), List.map_append, hrun, hrest]
  · have hfirst : (k + 200000 - pre.toNat) % 200000 = k - pre.toNat := by omega
    have hrun : 200000 - (k - pre.toNat) = pre.toNat + (200000 - k) := by omega
    have hrest : k - pre.toNat + (pre.toNat + post.toNat) - 200000 = k + post.toNat - 200000 := by
      omega
    rw [hfirst, window_of_ge (by omega) (by omega) (by omega), List.map_append, hrun, hrest]
  · have hfirst : (k + 200000 - pre.toNat) % 200000 = k - pre.toNat := by omega
    rw [hfirst, window_of_le (by omega)]

end Records

/-! ## Differences -/

/-- A difference that does not go below zero. -/
def checkedSub (a b : BitVec 32) : Option (BitVec 32) :=
  if b.toNat ≤ a.toNat then some (a - b) else none

/-- `ReadDMABuf`, where every difference is checked. -/
def readDMABufChecked (addr pretrigpts posttrigpts : BitVec 32) : Option (List (BitVec 32)) := do
  let startaddr ← checkedSub addr (pretrigpts * bufStepBytes)
  let stopaddr := addr + posttrigpts * bufStepBytes
  if startaddr.ult 0x10000000 then
    let presecnumbytes ← checkedSub addr bufStart
    let presecnumwords := presecnumbytes >>> 2
    let prefirstnumwords ← checkedSub (pretrigpts * bufStepWords) presecnumwords
    let startaddr ← checkedSub (bufStart + bufLen) (prefirstnumwords * 4)
    return copyDataChan startaddr prefirstnumwords ++ copyDataChan bufStart presecnumwords ++
      copyDataChan addr (posttrigpts * bufStepWords)
  else if (bufStart + bufLen).ult stopaddr then
    let postfirstnumbytes ← checkedSub (bufStart + bufLen) addr
    let postfirstnumwords := postfirstnumbytes >>> 2
    let postsecnumwords ← checkedSub (posttrigpts * bufStepWords) postfirstnumwords
    return copyDataChan startaddr (pretrigpts * bufStepWords) ++
      copyDataChan addr postfirstnumwords ++ copyDataChan bufStart postsecnumwords
  else return copyDataChan startaddr ((pretrigpts + posttrigpts) * bufStepWords)

theorem checkedSub_of_le {a b : BitVec 32} (h : b.toNat ≤ a.toNat) :
    checkedSub a b = some (a - b) := if_pos h

section Differences

variable {k : ℕ} {pre post : BitVec 32}

/-- No difference goes below zero. -/
theorem checked_eq (hk : k < bufSlots) (hsum : pre.toNat + post.toNat ≤ bufSlots) :
    readDMABufChecked (wordAddr k 0) pre post = some (readDMABuf (wordAddr k 0) pre post) := by
  unfold bufSlots at hk hsum
  have ht : k < ringSlots := by unfold ringSlots; omega
  have hp : pre.toNat ≤ 200000 := by omega
  have hq : post.toNat ≤ 200000 := by omega
  have haddr : (wordAddr k 0).toNat = 0x10000000 + 160 * k := by
    rw [toNat_wordAddr ht (by omega)]
    omega
  have hbytes : (pre * bufStepBytes).toNat = 160 * pre.toNat :=
    toNat_mul_points pre bufStepBytes hp (by decide)
  have hpre : (pre * bufStepWords).toNat = 40 * pre.toNat :=
    toNat_mul_points pre bufStepWords hp (by decide)
  have hpost : (post * bufStepWords).toNat = 40 * post.toNat :=
    toNat_mul_points post bufStepWords hq (by decide)
  have hstart : bufStart.toNat = 0x10000000 := rfl
  unfold readDMABufChecked readDMABuf
  rw [checkedSub_of_le (by omega)]
  simp only [Option.bind_eq_bind, Option.bind_some]
  by_cases hlt : k < pre.toNat
  · rw [if_pos ((startaddr_ult_iff ht hp).mpr hlt), if_pos ((startaddr_ult_iff ht hp).mpr hlt)]
    have hsec := toNat_presecnumwords ht
    have hfirst := toNat_prefirstnumwords ht hp hlt
    have hend : ((pre * bufStepWords - (wordAddr k 0 - bufStart) >>> 2) * 4).toNat =
        160 * (pre.toNat - k) := by
      rw [BitVec.toNat_mul, hfirst, show (4 : BitVec 32).toNat = 4 from rfl]
      omega
    rw [checkedSub_of_le (by omega), Option.bind_some, checkedSub_of_le (by omega),
      Option.bind_some, checkedSub_of_le (by rw [hend, toNat_buffer_end]; omega), Option.bind_some]
    rfl
  · rw [if_neg (fun h => hlt ((startaddr_ult_iff ht hp).mp h)),
      if_neg (fun h => hlt ((startaddr_ult_iff ht hp).mp h))]
    by_cases hgt : 200000 < k + post.toNat
    · rw [if_pos ((ult_stopaddr_iff ht hq).mpr hgt), if_pos ((ult_stopaddr_iff ht hq).mpr hgt)]
      have hfirst := toNat_postfirstnumwords ht
      rw [checkedSub_of_le (by rw [toNat_buffer_end]; omega), Option.bind_some,
        checkedSub_of_le (by omega), Option.bind_some]
      rfl
    · rw [if_neg (fun h => hgt ((ult_stopaddr_iff ht hq).mp h)),
        if_neg (fun h => hgt ((ult_stopaddr_iff ht hq).mp h))]
      rfl

end Differences

/-- **The window.** For a trigger in slot `k` of the buffer and a window that fits into it,
`ReadDMABuf` copies as many records as the window has points, the `j`-th from slot
`(k - pretrigpts + j) mod 200000`; it reads words of the buffer only, and no difference in it goes
below zero. -/
theorem window_exact (k : ℕ) (addr pre post : BitVec 32) (hk : k < 200000)
    (haddr : addr.toNat = 0x10000000 + 160 * k) (hsum : pre.toNat + post.toNat ≤ 200000) :
    (readDMABuf addr pre post).length = pre.toNat + post.toNat ∧
      (∀ j < pre.toNat + post.toNat, (readDMABuf addr pre post)[j]? =
        some (wordAddr (((k : ℤ) - pre.toNat + j) % 200000).toNat 0)) ∧
      (∀ a ∈ readDMABuf addr pre post, ∀ chan, ∀ i ∈ recordOffsets chan,
        bufStart.toNat ≤ (a + BitVec.ofNat 32 (4 * i)).toNat ∧
          (a + BitVec.ofNat 32 (4 * i)).toNat + 4 ≤ bufStart.toNat + bufLen.toNat) ∧
      readDMABufChecked addr pre post = some (readDMABuf addr pre post) := by
  obtain rfl : addr = wordAddr k 0 := eq_wordAddr (by unfold ringSlots; omega) haddr
  refine ⟨?_, fun j hj => ?_, ?_, checked_eq hk hsum⟩
  · rw [records_eq_window hk hsum, List.length_map, window, List.length_map, List.length_range]
  · rw [records_eq_window hk hsum, List.getElem?_map, window, List.getElem?_map,
      List.getElem?_range hj, Option.map_some, Option.map_some]
    congr 2
    unfold firstSlot bufSlots
    omega
  · rw [records_eq_window hk hsum, List.forall_mem_map]
    intro t ht chan i hi
    have hlt : t < 200000 := by
      obtain ⟨j, -, rfl⟩ := List.mem_map.mp ht
      exact Nat.mod_lt _ (by decide)
    have hi := recordOffsets_lt hi
    have hstart : bufStart.toNat = 0x10000000 := rfl
    have hlen : bufLen.toNat = 32000000 := rfl
    rw [wordAddr_add, toNat_wordAddr (by unfold ringSlots; omega) (by omega), hstart, hlen]
    omega

/-- The longest window, for a trigger in the first slot: all of it is before the trigger. -/
theorem full_window_exact :
    (readDMABuf 0x10000000 200000 0).length = 200000 ∧
      (readDMABuf 0x10000000 200000 0)[0]? = some (wordAddr 0 0) ∧
      (readDMABuf 0x10000000 200000 0)[199999]? = some (wordAddr 199999 0) ∧
      (readDMABufChecked 0x10000000 200000 0).isSome := by
  obtain ⟨hlen, hget, -, hchecked⟩ := window_exact 0 0x10000000 200000 0 (by decide) (by decide)
    (by decide)
  refine ⟨hlen, hget 0 (by decide), hget 199999 (by decide), ?_⟩
  rw [hchecked]
  rfl

end Psc.Snapshot
