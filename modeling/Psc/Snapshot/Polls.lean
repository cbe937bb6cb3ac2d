import Psc.Snapshot.Triggers

/-!
# The polls of a slot

The slots of `snapshot_push` over any sequence of pointers that the polls read. A slot in rest takes
up the pointer; if it is another one than at its last activation, the slot becomes active, keeps it,
and is sent in the poll `posttrigpts / 1000` polls later.

`rest_or_waiting`: between polls a slot is in rest, or in the wait of its last activation.
`triggerMachine_run`: what follows from it.
-/

namespace Psc.Snapshot

open Clocked

/-! ## Activations -/

section Polls

variable (bufptr : ℕ → Kind → Ps → BitVec 32)

/-- The slots before poll `k`. -/
def infos (k : ℕ) : Kind → Ps → TriggerInfo := run snapshotPush initTriggerInfo bufptr k

/-- The slots at the end of `CheckforTriggers` in poll `k`. -/
def checked (k : ℕ) : Kind → Ps → TriggerInfo := checkforTriggers (infos bufptr k) (bufptr k)

variable (kind : Kind) (ps : Ps)

/-- Poll `k` activates the slot. -/
def Activates (k : ℕ) : Prop :=
  (infos bufptr k kind ps).active = false ∧ (checked bufptr k kind ps).active = true

/-- `SendWfmData` is called for the slot in poll `k`. -/
def Sends (k : ℕ) : Prop := (checked bufptr k kind ps).sendbuf = true

/-- The life of a slot. -/
structure TriggerMachine : Prop where
  /-- An active slot shows the pointer of the poll that has activated it, and no other poll since.
  -/
  frozen : ∀ k, (checked bufptr k kind ps).active = true → ∃ a ≤ k, Activates bufptr kind ps a ∧
    (∀ j, a < j → j ≤ k → (infos bufptr j kind ps).active = true) ∧
    (checked bufptr k kind ps).addr = bufptr a kind ps
  sendbuf : ∀ k, (checked bufptr k kind ps).sendbuf = true →
    (checked bufptr k kind ps).active = true
  /-- From its activation on the slot is active and not sent, up to the poll that sends it. -/
  sent : ∀ a, Activates bufptr kind ps a →
    (∀ j ≤ (initTriggerInfo kind ps).posttrigpts / 1000,
      (Sends bufptr kind ps (a + j) ↔ j = (initTriggerInfo kind ps).posttrigpts / 1000) ∧
      (checked bufptr (a + j) kind ps).active = true) ∧
    (infos bufptr (a + (initTriggerInfo kind ps).posttrigpts / 1000 + 1) kind ps).active = false
  /-- Nothing else is sent. -/
  only : ∀ k, Sends bufptr kind ps k → ∃ a, Activates bufptr kind ps a ∧
    k = a + (initTriggerInfo kind ps).posttrigpts / 1000
  reactivated : ∀ a a', a < a' → Activates bufptr kind ps a → Activates bufptr kind ps a' →
    (∀ j, a < j → j < a' → ¬Activates bufptr kind ps j) → bufptr a' kind ps ≠ bufptr a kind ps
  /-- Before its first activation any pointer but zero activates the slot. -/
  first : ∀ k, (∀ j < k, ¬Activates bufptr kind ps j) →
    (Activates bufptr kind ps k ↔ bufptr k kind ps ≠ 0)
  /-- In rest any pointer but that of its last activation does. -/
  next : ∀ a k, a < k → Activates bufptr kind ps a →
    (∀ j, a < j → j < k → ¬Activates bufptr kind ps j) →
    (infos bufptr k kind ps).active = false →
    (Activates bufptr kind ps k ↔ bufptr k kind ps ≠ bufptr a kind ps)
  /-- The other slots, and what is read for them, do not matter. -/
  alone : ∀ trig bufptr', trig kind ps = initTriggerInfo kind ps →
    (∀ k, bufptr' k kind ps = bufptr k kind ps) →
    ∀ k, run snapshotPush trig bufptr' k kind ps = infos bufptr k kind ps

end Polls

/-! ## Rest and wait -/

section Slot

variable {bufptr : ℕ → Kind → Ps → BitVec 32} {kind : Kind} {ps : Ps}

theorem infos_eq (k : ℕ) : infos bufptr k kind ps =
    run slotStep (initTriggerInfo kind ps) (fun j => bufptr j kind ps) k :=
  run_snapshotPush ..

theorem slotInv_infos (k : ℕ) : SlotInv kind ps (infos bufptr k kind ps) := by
  rw [infos_eq]
  exact slotInv_run ..

theorem infos_succ (k : ℕ) : infos bufptr (k + 1) kind ps =
    slotStep (infos bufptr k kind ps) (bufptr k kind ps) := by
  rw [infos_eq, infos_eq, run_succ]

theorem infos_add (k j : ℕ) : infos bufptr (k + j) kind ps =
    run slotStep (infos bufptr k kind ps) (fun j => bufptr (k + j) kind ps) j := by
  rw [infos_eq, infos_eq, run_add]

theorem checked_eq_slotCheck (k : ℕ) : checked bufptr k kind ps =
    slotCheck (infos bufptr k kind ps) (bufptr k kind ps) := rfl

theorem activates_iff_ne (k : ℕ) : Activates bufptr kind ps k ↔
    (infos bufptr k kind ps).active = false ∧
      bufptr k kind ps ≠ (infos bufptr k kind ps).addr := by
  unfold Activates
  refine and_congr_right fun hrest => ?_
  rw [checked_eq_slotCheck]
  constructor
  · intro hact heq
    rw [heq, slotCheck_of_eq (slotInv_infos k) hrest, hrest] at hact
    cases hact
  · intro hne
    rw [slotCheck_of_ne (slotInv_infos k) hrest hne]

theorem infos_wait {a : ℕ} (ha : Activates bufptr kind ps a) :
    (∀ j, 0 < j → j ≤ kind.polls →
      infos bufptr (a + j) kind ps = (infos bufptr a kind ps).waiting (bufptr a kind ps) j) ∧
    (∀ j ≤ kind.polls, (checked bufptr (a + j) kind ps).sendbuf = decide (j = kind.polls)) ∧
    (infos bufptr (a + kind.polls + 1) kind ps).active = false := by
  obtain ⟨hrest, hne⟩ := (activates_iff_ne a).mp ha
  obtain ⟨hwait, hsend, hend⟩ :=
    activation_run (fun j => bufptr (a + j) kind ps) (slotInv_infos a) hrest hne
  refine ⟨fun j hj hjm => ?_, fun j hjm => ?_, ?_⟩
  · rw [infos_add]
    exact hwait j hj hjm
  · rw [checked_eq_slotCheck, infos_add]
    exact hsend j hjm
  · rw [Nat.add_assoc, infos_add]
    exact hend

/-- **Rest or wait.** -/
theorem rest_or_waiting (k : ℕ) : (infos bufptr k kind ps).active = false ∨
    ∃ a j, Activates bufptr kind ps a ∧ 0 < j ∧ j ≤ kind.polls ∧ k = a + j := by
  have hpos := kind.polls_pos
  induction k with
  | zero => exact Or.inl rfl
  | succ k ih =>
    rcases ih with hrest | ⟨a, j, ha, hj, hjm, rfl⟩
    · by_cases hact : Activates bufptr kind ps k
      · exact Or.inr ⟨k, 1, hact, Nat.one_pos, hpos, rfl⟩
      · left
        have heq : bufptr k kind ps = (infos bufptr k kind ps).addr := by
          by_contra hne
          exact hact ((activates_iff_ne k).mpr ⟨hrest, hne⟩)
        have hinv : SlotInv kind ps (infos bufptr k kind ps) := slotInv_infos k
        rw [infos_succ, heq]
        unfold slotStep
        rw [slotCheck_of_eq hinv hrest, if_neg (by simp [hinv.sendbuf])]
        exact hrest
    · rcases Nat.lt_or_eq_of_le hjm with hlt | rfl
      · exact Or.inr ⟨a, j + 1, ha, Nat.succ_pos j, hlt, by omega⟩
      · exact Or.inl (infos_wait ha).2.2

theorem checked_wait {a j : ℕ} (ha : Activates bufptr kind ps a) (hjm : j ≤ kind.polls) :
    (checked bufptr (a + j) kind ps).active = true ∧
      (checked bufptr (a + j) kind ps).addr = bufptr a kind ps := by
  obtain ⟨hrest, hne⟩ := (activates_iff_ne a).mp ha
  rcases Nat.eq_zero_or_pos j with rfl | hj
  · rw [Nat.add_zero, checked_eq_slotCheck, slotCheck_of_ne (slotInv_infos a) hrest hne]
    exact ⟨rfl, rfl⟩
  · have hinv : SlotInv kind ps (infos bufptr (a + j) kind ps) := slotInv_infos _
    have hstate := (infos_wait ha).1 j hj hjm
    rw [checked_eq_slotCheck]
    rw [hstate] at hinv ⊢
    rcases Nat.lt_or_eq_of_le hjm with hlt | rfl
    · rw [slotCheck_of_lt hinv rfl hlt]
      exact ⟨rfl, rfl⟩
    · rw [slotCheck_of_ge hinv rfl le_rfl]
      exact ⟨rfl, rfl⟩

theorem checked_rest {k : ℕ} (hrest : (infos bufptr k kind ps).active = false)
    (hnot : ¬Activates bufptr kind ps k) :
    checked bufptr k kind ps = infos bufptr k kind ps := by
  have heq : bufptr k kind ps = (infos bufptr k kind ps).addr := by
    by_contra hne
    exact hnot ((activates_iff_ne k).mpr ⟨hrest, hne⟩)
  rw [checked_eq_slotCheck, heq, slotCheck_of_eq (slotInv_infos k) hrest]

theorem infos_of_none {k : ℕ} (hnone : ∀ j < k, ¬Activates bufptr kind ps j) :
    infos bufptr k kind ps = initTriggerInfo kind ps := by
  induction k with
  | zero => rfl
  | succ k ih =>
    have hinfo := ih fun j hj => hnone j (by omega)
    have hrest : (infos bufptr k kind ps).active = false := by rw [hinfo]; rfl
    have hchecked := checked_rest hrest (hnone k (Nat.lt_succ_self k))
    rw [checked_eq_slotCheck] at hchecked
    rw [infos_succ, slotStep, hchecked, if_neg (by simp [(slotInv_infos k).sendbuf]), hinfo]

theorem addr_after {a k : ℕ} (ha : Activates bufptr kind ps a) (hak : a < k)
    (hnone : ∀ j, a < j → j < k → ¬Activates bufptr kind ps j) :
    (infos bufptr k kind ps).addr = bufptr a kind ps := by
  induction k, hak using Nat.le_induction with
  | base =>
    rw [(infos_wait ha).1 1 Nat.one_pos kind.polls_pos]
    rfl
  | succ k hak ih =>
    have hsame := ih fun j haj hjk => hnone j haj (by omega)
    rw [infos_succ, addr_slotStep (slotInv_infos k)]
    split_ifs with hrest
    · by_contra hne
      exact hnone k hak (Nat.lt_succ_self k)
        ((activates_iff_ne k).mpr ⟨hrest, fun heq => hne (heq.trans hsame)⟩)
    · exact hsame

theorem sends_only {k : ℕ} (hsend : Sends bufptr kind ps k) :
    ∃ a, Activates bufptr kind ps a ∧ k = a + kind.polls := by
  rcases rest_or_waiting k with hrest | ⟨a, j, ha, -, hjm, rfl⟩
  · exfalso
    unfold Sends at hsend
    by_cases hact : Activates bufptr kind ps k
    · have hfirst := (infos_wait hact).2.1 0 (Nat.zero_le _)
      rw [Nat.add_zero, hsend] at hfirst
      have := kind.polls_pos
      simp at hfirst
      omega
    · rw [checked_rest hrest hact, (slotInv_infos k).sendbuf] at hsend
      cases hsend
  · refine ⟨a, ha, ?_⟩
    unfold Sends at hsend
    rw [(infos_wait ha).2.1 j hjm, decide_eq_true_iff] at hsend
    rw [hsend]

end Slot

/-- **The trigger machine.** Over every sequence of pointers, every slot lives as described. -/
theorem triggerMachine_run (bufptr : ℕ → Kind → Ps → BitVec 32) (kind : Kind) (ps : Ps) :
    TriggerMachine bufptr kind ps where
  frozen k hact := by
    rcases rest_or_waiting k with hrest | ⟨a, j, ha, hj, hjm, rfl⟩
    · exact ⟨k, le_rfl, ⟨hrest, hact⟩, fun j h1 h2 => absurd h1 (by omega),
        (checked_wait (j := 0) ⟨hrest, hact⟩ (Nat.zero_le _)).2⟩
    · refine ⟨a, by omega, ha, fun i hai hik => ?_, (checked_wait ha hjm).2⟩
      obtain ⟨i, rfl⟩ := Nat.exists_eq_add_of_le hai.le
      rw [(infos_wait ha).1 i (by omega) (by omega)]
      rfl
  sendbuf k hsend := by
    obtain ⟨a, ha, rfl⟩ := sends_only hsend
    exact (checked_wait ha le_rfl).1
  sent a ha := by
    obtain ⟨-, hsend, hend⟩ := infos_wait ha
    refine ⟨fun j hj => ⟨?_, (checked_wait ha hj).1⟩, hend⟩
    unfold Sends
    rw [hsend j hj, decide_eq_true_iff]
    rfl
  only k hsend := sends_only hsend
  reactivated a a' haa ha ha' hnone := by
    rw [← addr_after ha haa hnone]
    exact ((activates_iff_ne a').mp ha').2
  first k hnone := by
    have hinfo := infos_of_none hnone
    rw [activates_iff_ne, hinfo]
    exact and_iff_right rfl
  next a k hak ha hnone hrest := by
    rw [activates_iff_ne, addr_after ha hak hnone]
    exact and_iff_right hrest
  alone trig bufptr' htrig hread k := by
    rw [run_snapshotPush, infos_eq, htrig]
    simp only [hread]

/-- From poll 3 on the user trigger of the second channel shows an address. -/
def oneTrigger (k : ℕ) (kind : Kind) (ps : Ps) : BitVec 32 :=
  if 3 ≤ k ∧ kind = .usr ∧ ps = .ps2 then 0x10000000 else 0

/-- Its slot is activated there and sent fifty polls later, and only then. That of the first channel
is not sent. -/
theorem second_user_sent :
    (∀ k, Activates oneTrigger .usr .ps2 k ↔ k = 3) ∧
      (∀ k, Sends oneTrigger .usr .ps2 k ↔ k = 53) ∧ ∀ k, ¬Sends oneTrigger .usr .ps1 k := by
  have h := triggerMachine_run oneTrigger .usr .ps2
  have h₁ := triggerMachine_run oneTrigger .usr .ps1
  have hquiet : ∀ k, ¬Activates oneTrigger .usr .ps1 k := by
    intro k
    induction k using Nat.strong_induction_on with
    | h k ih =>
      rw [h₁.first k ih]
      simp [oneTrigger]
  have hearly : ∀ k < 3, ¬Activates oneTrigger .usr .ps2 k := by
    intro k
    induction k using Nat.strong_induction_on with
    | h k ih =>
      intro hk
      rw [h.first k fun j hj => ih j hj (by omega)]
      simp [oneTrigger, hk]
  have hthird : Activates oneTrigger .usr .ps2 3 := (h.first 3 hearly).mpr (by decide)
  have honly : ∀ k, Activates oneTrigger .usr .ps2 k → k = 3 := by
    intro k
    induction k using Nat.strong_induction_on with
    | h k ih =>
      intro hk
      by_contra hne
      have hlate : 3 < k := by
        by_contra hle
        exact hearly k (by omega) hk
      have hother := h.reactivated 3 k hlate hthird hk fun j hj hjk hact =>
        absurd (ih j hjk hact) (by omega)
      simp [oneTrigger, hlate.le] at hother
  refine ⟨fun k => ⟨honly k, fun hk => hk ▸ hthird⟩, fun k => ⟨fun hk => ?_, ?_⟩, fun k hk => ?_⟩
  · obtain ⟨a, ha, rfl⟩ := h.only k hk
    rw [honly a ha]
    rfl
  · rintro rfl
    exact ((h.sent 3 hthird).1 50 (by decide)).1.mpr rfl
  · obtain ⟨a, ha, -⟩ := h₁.only k hk
    exact hquiet a ha

end Psc.Snapshot
