import Psc.Snapshot.Columns
import Psc.Snapshot.Triggers

/-!
# The data cache

`ReadDMABuf` first invalidates the "entire circular buffer" in the data cache, with a length that is
written out for itself. It is half that of the buffer, so what is read from the upper half may be
old.

`coherent_iff`: for which triggers all words of a waveform are in the range that is invalidated.
-/

namespace Psc.Snapshot

open Clocked Control

/-! ## The cache -/

/-- What the data cache holds of the memory; it may be old. -/
abbrev DCache := BitVec 32 → Option (BitVec 32)

/-- The address range of a call. Its ends are cache lines here. -/
def InRange (adr len : ℕ) (a : BitVec 32) : Prop := adr ≤ a.toNat ∧ a.toNat < adr + len

instance (adr len : ℕ) (a : BitVec 32) : Decidable (InRange adr len a) :=
  inferInstanceAs (Decidable (_ ∧ _))

/-- `Xil_DCacheInvalidateRange` leaves nothing of its range in the cache. What it does to the rest
is left open. -/
def InvalidatesRange (dCacheInvalidateRange : ℕ → ℕ → DCache → DCache) : Prop :=
  ∀ adr len c a, InRange adr len a → dCacheInvalidateRange adr len c a = none

/-- The call that leaves the rest as it was. -/
def invalidateOnly (adr len : ℕ) (c : DCache) : DCache := fun a =>
  if InRange adr len a then none else c a

theorem invalidatesRange_only : InvalidatesRange invalidateOnly := fun _ _ _ _ h => if_pos h

/-- What is read through the cache. -/
def DCache.load (c : DCache) (mem : BitVec 32 → BitVec 32) (a : BitVec 32) : BitVec 32 :=
  (c a).getD (mem a)

section Load

variable {adr len : ℕ}

theorem load_of_inRange {dCacheInvalidateRange : ℕ → ℕ → DCache → DCache}
    (hinv : InvalidatesRange dCacheInvalidateRange) {a : BitVec 32} (h : InRange adr len a)
    (c : DCache) (mem : BitVec 32 → BitVec 32) :
    (dCacheInvalidateRange adr len c).load mem a = mem a := by
  unfold DCache.load
  rw [hinv adr len c a h]
  rfl

theorem load_eq_iff (a : BitVec 32) (mem : BitVec 32 → BitVec 32) :
    (∀ c, (invalidateOnly adr len c).load mem a = mem a) ↔ InRange adr len a := by
  constructor
  · intro h
    by_contra hout
    have hold := h fun _ => some (mem a + 1)
    unfold DCache.load invalidateOnly at hold
    rw [if_neg hout, Option.getD_some] at hold
    exact absurd hold (by simp)
  · exact fun h c => load_of_inRange invalidatesRange_only h c mem

end Load

/-! ## The words of a waveform -/

/-- The range that `ReadDMABuf` invalidates: `0x10000000` and `16e6`. -/
def Invalidated : BitVec 32 → Prop := InRange 0x10000000 16000000

/-- The records that `ReadDMABuf` copies for a trigger. -/
def TriggerInfo.records (trig : TriggerInfo) : List (BitVec 32) :=
  readDMABuf trig.addr (BitVec.ofNat 32 trig.pretrigpts) (BitVec.ofNat 32 trig.posttrigpts)

/-- The words that are read from them. -/
def TriggerInfo.words (trig : TriggerInfo) : List (BitVec 32) :=
  trig.records.flatMap fun a =>
    (recordOffsets trig.channum).map fun k => a + BitVec.ofNat 32 (4 * k)

/-- The columns of the waveform. -/
def TriggerInfo.columns (b : Board) (mem : BitVec 32 → BitVec 32) (trig : TriggerInfo) : List ℚ :=
  trig.records.flatMap (copyRecord b trig.channum mem)

theorem TriggerInfo.columns_congr (b : Board) {mem mem' : BitVec 32 → BitVec 32}
    (trig : TriggerInfo) (h : ∀ a ∈ trig.words, mem a = mem' a) :
    trig.columns b mem = trig.columns b mem' := by
  unfold columns
  rw [List.flatMap_def, List.flatMap_def]
  congr 1
  apply List.map_congr_left
  intro a ha
  apply copyRecord_congr
  intro k hk
  apply h
  unfold words
  exact List.mem_flatMap.mpr ⟨a, ha, List.mem_map.mpr ⟨k, hk, rfl⟩⟩

section Slots

variable {chan : ℕ}

theorem invalidated_wordAddr {t k : ℕ} (ht : t < ringSlots) (hk : k < 40) :
    Invalidated (wordAddr t k) ↔ t < 100000 := by
  unfold Invalidated InRange
  rw [toNat_wordAddr ht (by omega)]
  omega

theorem invalidated_slotRecords (hchan : 1 ≤ chan ∧ chan ≤ 4) {s len : ℕ}
    (hfit : s + len ≤ ringSlots) :
    (∀ a ∈ slotRecords s len, ∀ k ∈ recordOffsets chan, Invalidated (a + BitVec.ofNat 32 (4 * k))) ↔
      len = 0 ∨ s + len ≤ 100000 := by
  unfold slotRecords
  rw [List.forall_mem_map]
  constructor
  · intro h
    by_contra hout
    have hlast := h (s + len - 1) (List.mem_range'_1.mpr (by omega)) 0 (by
      obtain ⟨h1, h4⟩ := hchan
      interval_cases chan <;> decide)
    rw [wordAddr_add, invalidated_wordAddr (by omega) (by omega)] at hlast
    omega
  · intro h t ht k hk
    rw [List.mem_range'_1] at ht
    rw [wordAddr_add, invalidated_wordAddr (by omega) (recordOffsets_lt hk)]
    omega

end Slots

/-! ## Triggers -/

/-- A trigger with its window, and the address that was latched. -/
def triggerAt (kind : Kind) (ps : Ps) (addr : BitVec 32) : TriggerInfo :=
  { initTriggerInfo kind ps with addr := addr }

/-- The slots whose waveform is read from the range: the window is in the lower half, or it starts
at the slot that the reader does not know. -/
def Kind.InLowerHalf (kind : Kind) (t : ℕ) : Prop :=
  (kind.pretrigpts ≤ t ∧ t + kind.posttrigpts ≤ 100000) ∨ (kind.pretrigpts = 0 ∧ t = 200000)

section Triggers

variable (kind : Kind) (ps : Ps) {t : ℕ}

/-- The words of a trigger in slot `t`. -/
theorem invalidated_words_iff (ht : t < ringSlots) :
    (∀ a ∈ (triggerAt kind ps (wordAddr t 0)).words, Invalidated a) ↔ kind.InLowerHalf t := by
  have hchan : 1 ≤ ps.idx + 1 ∧ ps.idx + 1 ≤ 4 := by
    have := ps.idx_lt
    omega
  have hwindow : kind.pretrigpts + kind.posttrigpts ≤ 100000 ∧ 0 < kind.posttrigpts := by
    cases kind <;> decide
  have hpre : (BitVec.ofNat 32 kind.pretrigpts).toNat = kind.pretrigpts := by cases kind <;> rfl
  have hpost : (BitVec.ofNat 32 kind.posttrigpts).toNat = kind.posttrigpts := by cases kind <;> rfl
  have hread := @read_slots t (BitVec.ofNat 32 kind.pretrigpts)
    (BitVec.ofNat 32 kind.posttrigpts) ht (by omega)
  rw [hpre, hpost] at hread
  unfold Kind.InLowerHalf TriggerInfo.words TriggerInfo.records triggerAt initTriggerInfo
  simp only [List.forall_mem_flatMap, List.forall_mem_map]
  rw [hread]
  unfold ringSlots at ht
  split_ifs with hlt hgt
  · rw [List.forall_mem_append, invalidated_slotRecords hchan (by unfold ringSlots; omega),
      invalidated_slotRecords hchan (by unfold ringSlots; omega)]
    omega
  · rw [List.forall_mem_append, invalidated_slotRecords hchan (by unfold ringSlots; omega),
      invalidated_slotRecords hchan (by unfold ringSlots; omega)]
    omega
  · rw [invalidated_slotRecords hchan (by unfold ringSlots; omega)]
    omega

end Triggers

/-- **Coherent reads.** In a run from configuration without reset, all words of the waveform around
a burst that can be latched are in the range that is invalidated exactly if the slot of the burst is
one of `InLowerHalf`. Then the waveform is that of the memory, whatever was cached, with any call
that invalidates its range. -/
theorem coherent_iff (x₀ : Sys) (inp : ℕ → Input) (h : Configured x₀)
    (hr : ∀ n, (inp n).reset = false) (v : ℕ) (hv : 0 < triggers x₀ inp v) (kind : Kind) (ps : Ps) :
    ((∀ a ∈ (triggerAt kind ps (run sysStep x₀ inp v).regs.addrPtr).words, Invalidated a) ↔
      kind.InLowerHalf ((triggers x₀ inp v - 1) % ringSlots)) ∧
    (kind.InLowerHalf ((triggers x₀ inp v - 1) % ringSlots) →
      ∀ dCacheInvalidateRange, InvalidatesRange dCacheInvalidateRange → ∀ b mem c,
      (triggerAt kind ps (run sysStep x₀ inp v).regs.addrPtr).columns b
          ((dCacheInvalidateRange 0x10000000 16000000 c).load mem) =
        (triggerAt kind ps (run sysStep x₀ inp v).regs.addrPtr).columns b mem) := by
  have hiff := invalidated_words_iff kind ps (slot_lt (triggers x₀ inp v - 1))
  rw [(inv_run h hr v).addrPtr hv]
  refine ⟨hiff, fun hlow _ hinv b mem c => ?_⟩
  apply TriggerInfo.columns_congr
  intro a ha
  exact load_of_inRange hinv (hiff.mpr hlow a ha) c mem

theorem addrPtr_first : (run sysStep restSys pulses 50).regs.addrPtr = wordAddr 0 0 := by
  have hone : triggers restSys pulses 50 = 1 := triggers_at_pulse 1
  have hinv : Inv (run sysStep restSys pulses 50) (triggers restSys pulses 50) :=
    inv_run configured_restSys (fun _ => rfl) 50
  rw [hone] at hinv
  exact hinv.addrPtr Nat.one_pos

/-- The waveform of an injection that latches the first burst. -/
theorem first_injection_coherent :
    triggers restSys pulses 50 = 1 ∧
      (∀ a ∈ (triggerAt .inj .ps1 (run sysStep restSys pulses 50).regs.addrPtr).words,
        Invalidated a) ∧
      ∀ b mem c, (triggerAt .inj .ps1 (run sysStep restSys pulses 50).regs.addrPtr).columns b
          ((invalidateOnly 0x10000000 16000000 c).load mem) =
        (triggerAt .inj .ps1 (run sysStep restSys pulses 50).regs.addrPtr).columns b mem := by
  have hone : triggers restSys pulses 50 = 1 := triggers_at_pulse 1
  have hpos : 0 < triggers restSys pulses 50 := by omega
  obtain ⟨hiff, hcolumns⟩ :=
    coherent_iff restSys pulses configured_restSys (fun _ => rfl) 50 hpos .inj .ps1
  rw [hone] at hiff hcolumns
  have hlow : Kind.inj.InLowerHalf ((1 - 1) % ringSlots) := by
    left
    decide
  exact ⟨hone, hiff.mpr hlow, hcolumns hlow invalidateOnly invalidatesRange_only⟩

/-- A user trigger that latches the same burst reads what comes before it from the upper half, and
may get old words. -/
theorem first_user_trigger_stale :
    triggers restSys pulses 50 = 1 ∧
      (¬∀ a ∈ (triggerAt .usr .ps1 (run sysStep restSys pulses 50).regs.addrPtr).words,
        Invalidated a) ∧
      ∃ a ∈ (triggerAt .usr .ps1 (run sysStep restSys pulses 50).regs.addrPtr).words, ∃ c,
        (invalidateOnly 0x10000000 16000000 c).load
          (run sysStep restSys pulses 50).ddr.mem a ≠
            (run sysStep restSys pulses 50).ddr.mem a := by
  have hout : ¬∀ a ∈ (triggerAt .usr .ps1 (run sysStep restSys pulses 50).regs.addrPtr).words,
      Invalidated a := by
    rw [addrPtr_first, invalidated_words_iff .usr .ps1 (by unfold ringSlots; omega)]
    unfold Kind.InLowerHalf
    decide
  refine ⟨triggers_at_pulse 1, hout, ?_⟩
  push Not at hout
  obtain ⟨a, ha, hnot⟩ := hout
  refine ⟨a, ha, ?_⟩
  by_contra hall
  push Not at hall
  exact hnot ((load_eq_iff a _).mp hall)

end Psc.Snapshot
