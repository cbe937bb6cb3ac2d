import Psc.Snapshot.Columns

/-!
# Bursts and the time they take

1. `idle_within`: with a memory that answers in time, a burst is over in time. The answers that are
   still missing (`handshakes`) get fewer.
2. `idle_of_quiet`: the writer then waits for the next trigger, and sees it.
3. `handed_between`: the words of a burst are handed over between its trigger and its end.
-/

namespace Psc.Snapshot

open Clocked RingLog

/-- The answer of the memory that a state waits for. -/
def Input.answers (i : Input) : Phase → Bool
  | .idle => false
  | .address => i.awready
  | .word _ => i.wready
  | .awaitresp => i.bvalid

/-- The state after the answer. -/
def Phase.after : Phase → Phase
  | .idle => .idle
  | .address => .word .hdr
  | .word w => w.next
  | .awaitresp => .idle

/-- The clocks that a memory takes for the address, for a word and for its response. -/
structure Latency where
  address : ℕ
  word : ℕ
  response : ℕ

/-- The clocks of a state. -/
def Latency.clocks (d : Latency) : Phase → ℕ
  | .idle => 0
  | .address => d.address
  | .word _ => d.word
  | .awaitresp => d.response

/-- The clocks from a state to the end of its burst. -/
def Latency.left (d : Latency) : Phase → ℕ
  | .idle => 0
  | .address => d.address + burstLen * d.word + d.response
  | .word w => (burstLen - w.idx) * d.word + d.response
  | .awaitresp => d.response

/-- The clocks of a burst after its trigger. -/
def Latency.burst (d : Latency) : ℕ := d.left .address

/-- The answers that are missing in a state. -/
def Phase.handshakes : Phase → ℕ := Latency.left ⟨1, 1, 1⟩

/-- The memory answers in time in every state of the run. -/
def InTime (d : Latency) (x₀ : Sys) (inp : ℕ → Input) : Prop :=
  ∀ n, (run sysStep x₀ inp n).regs.state ≠ .idle → ∃ j < d.clocks (run sysStep x₀ inp n).regs.state,
    (inp (n + j)).answers (run sysStep x₀ inp n).regs.state = true

/-- With each answer the clocks of a state are over. -/
theorem left_after (d : Latency) (p : Phase) : d.left p.after + d.clocks p = d.left p := by
  cases p with
  | idle => rfl
  | address =>
    change (burstLen - 0) * d.word + d.response + d.address = _
    rw [Nat.sub_zero]
    change _ = d.address + burstLen * d.word + d.response
    omega
  | awaitresp => exact Nat.zero_add _
  | word w =>
    change d.left w.next + d.word = (burstLen - w.idx) * d.word + d.response
    rcases w.next_eq with ⟨w', hnext, hidx⟩ | ⟨hnext, hidx⟩
    · have hle := w'.idx_le
      rw [hnext]
      change (burstLen - w'.idx) * d.word + d.response + d.word = _
      rw [hidx] at hle ⊢
      rw [show burstLen - w.idx = burstLen - (w.idx + 1) + 1 by unfold burstLen; omega,
        Nat.succ_mul]
      omega
    · rw [hnext, hidx]
      change d.response + d.word = 1 * d.word + d.response
      omega

theorem left_le_burst (d : Latency) (p : Phase) : d.left p ≤ d.burst := by
  cases p with
  | idle => exact Nat.zero_le _
  | address => exact le_rfl
  | awaitresp => exact Nat.le_add_left _ _
  | word w =>
    have := Nat.mul_le_mul_right d.word (Nat.sub_le burstLen w.idx)
    change (burstLen - w.idx) * d.word + d.response ≤ d.address + burstLen * d.word + d.response
    omega

theorem state_step {s : State} {i : Input} (hr : i.reset = false) (hs : s.state ≠ .idle) :
    (step s i).state = if i.answers s.state then s.state.after else s.state := by
  rw [step_of_not_reset hr]
  cases h : s.state with
  | idle => exact absurd h hs
  | address => cases ha : i.awready <;> simp [Input.answers, Phase.after, ha, h]
  | word w => cases ha : i.wready <;> simp [Input.answers, Phase.after, writeWord, ha, h]
  | awaitresp => cases ha : i.bvalid <;> simp [Input.answers, Phase.after, ha]

section Run

variable {x₀ : Sys} {inp : ℕ → Input} (hr : ∀ n, (inp n).reset = false)

include hr

/-- A state goes on within its clocks. -/
theorem after_within {d : Latency} (h : InTime d x₀ inp) {n : ℕ}
    (hs : (run sysStep x₀ inp n).regs.state ≠ .idle) :
    ∃ j < d.clocks (run sysStep x₀ inp n).regs.state, (run sysStep x₀ inp (n + j + 1)).regs.state =
      (run sysStep x₀ inp n).regs.state.after := by
  generalize hp : (run sysStep x₀ inp n).regs.state = p at hs
  have hfirst : ∃ j, (inp (n + j)).answers p = true := by
    obtain ⟨j, -, hj⟩ := h n (by rwa [hp])
    exact ⟨j, by rwa [hp] at hj⟩
  -- up to the first answer the state stays
  have hstay : ∀ j ≤ Nat.find hfirst, (run sysStep x₀ inp (n + j)).regs.state = p := by
    intro j
    induction j with
    | zero => exact fun _ => hp
    | succ j ih =>
      intro hj
      have hj' := ih (by omega)
      rw [← Nat.add_assoc, regs_succ, state_step (hr _) (by rwa [hj']), hj', if_neg]
      exact Nat.find_min hfirst hj
  refine ⟨Nat.find hfirst, ?_, ?_⟩
  · obtain ⟨j, hj, hans⟩ := h n (by rwa [hp])
    rw [hp] at hj hans
    exact (Nat.find_min' hfirst hans).trans_lt hj
  · have hlast := hstay _ le_rfl
    rw [regs_succ, state_step (hr _) (by rwa [hlast]), hlast, if_pos (Nat.find_spec hfirst)]

/-- A burst is over in time. -/
theorem idle_within {d : Latency} (h : InTime d x₀ inp) (n : ℕ) :
    ∃ e, n ≤ e ∧ e ≤ n + d.left (run sysStep x₀ inp n).regs.state ∧
      (run sysStep x₀ inp e).regs.state = .idle := by
  induction hm : (run sysStep x₀ inp n).regs.state.handshakes using Nat.strong_induction_on
    generalizing n with
  | _ m ih =>
    by_cases hs : (run sysStep x₀ inp n).regs.state = .idle
    · exact ⟨n, le_rfl, Nat.le_add_right _ _, hs⟩
    · obtain ⟨j, hj, hafter⟩ := after_within hr h hs
      have hless : (run sysStep x₀ inp (n + j + 1)).regs.state.handshakes < m := by
        have hone : (⟨1, 1, 1⟩ : Latency).clocks (run sysStep x₀ inp n).regs.state = 1 := by
          cases hp : (run sysStep x₀ inp n).regs.state with
          | idle => exact absurd hp hs
          | address | word | awaitresp => rfl
        have := left_after ⟨1, 1, 1⟩ (run sysStep x₀ inp n).regs.state
        rw [hafter, ← hm]
        unfold Phase.handshakes
        omega
      obtain ⟨e, hle, he, hidle⟩ := ih _ hless _ rfl
      have := left_after d (run sysStep x₀ inp n).regs.state
      rw [hafter] at he
      exact ⟨e, by omega, by omega, hidle⟩

theorem idle_succ {n : ℕ} (hidle : (run sysStep x₀ inp n).regs.state = .idle)
    (htaken : taken x₀ inp n = false) : (run sysStep x₀ inp (n + 1)).regs.state = .idle ∧
      (run sysStep x₀ inp (n + 1)).regs.prevTrigger = (inp n).trigger := by
  have hacc : taken x₀ inp n =
      ((inp n).trigger && !(run sysStep x₀ inp n).regs.prevTrigger) := by
    unfold taken accepts
    simp [hr, hidle]
  rw [hacc] at htaken
  rw [regs_succ, step_of_not_reset (hr n), hidle]
  simp [htaken]

theorem idle_of_triggers {e n : ℕ} (he : (run sysStep x₀ inp e).regs.state = .idle) (hen : e ≤ n)
    (hcount : triggers x₀ inp n = triggers x₀ inp e) :
    (run sysStep x₀ inp n).regs.state = .idle := by
  induction n, hen using Nat.le_induction with
  | base => exact he
  | succ n hen ih =>
    have h1 : triggers x₀ inp e ≤ triggers x₀ inp n := tickCount_mono hen
    have h2 : triggers x₀ inp n ≤ triggers x₀ inp (n + 1) := tickCount_le_succ n
    have hnone : taken x₀ inp n = false := by
      by_contra htaken
      have : triggers x₀ inp (n + 1) = triggers x₀ inp n + 1 :=
        tickCount_succ_of_tick (by simpa using htaken)
      omega
    exact (idle_succ hr (ih (by omega)) hnone).1

/-- Without triggers the writer stays in IDLE, and sees the next one. -/
theorem idle_of_quiet {e n : ℕ} (he : (run sysStep x₀ inp e).regs.state = .idle) (hen : e < n)
    (hquiet : ∀ m, e ≤ m → m < n → (inp m).trigger = false) :
    (run sysStep x₀ inp n).regs.state = .idle ∧
      (run sysStep x₀ inp n).regs.prevTrigger = false := by
  have hnone : ∀ m, e ≤ m → m < n → taken x₀ inp m = false := by
    intro m hem hmn
    unfold taken accepts
    simp [hquiet m hem hmn]
  induction n, hen using Nat.le_induction with
  | base =>
    obtain ⟨hidle, hprev⟩ := idle_succ hr he (hnone e le_rfl e.lt_succ_self)
    exact ⟨hidle, hprev.trans (hquiet e le_rfl e.lt_succ_self)⟩
  | succ n hen ih =>
    have hidle := (ih (fun m hem hmn => hquiet m hem (by omega))
      fun m hem hmn => hnone m hem (by omega)).1
    obtain ⟨hidle', hprev⟩ := idle_succ hr hidle (hnone n (by omega) n.lt_succ_self)
    exact ⟨hidle', hprev.trans (hquiet n (by omega) n.lt_succ_self)⟩

/-- The words of a burst are handed over between its trigger and the end of it. -/
theorem handed_between {a e : ℕ} (ha : taken x₀ inp a = true) (hae : a < e)
    (he : (run sysStep x₀ inp e).regs.state = .idle) {w : Word} {v : BitVec 32}
    (hw : Handed x₀ inp w (triggers x₀ inp a) v) :
    ∃ c, a < c ∧ c < e ∧ v = w.data (run sysStep x₀ inp c).regs.datacnt (inp c) := by
  obtain ⟨c, hc, hword, -, hv⟩ := hw
  have hsucc : triggers x₀ inp (a + 1) = triggers x₀ inp a + 1 := tickCount_succ_of_tick ha
  refine ⟨c, ?_, ?_, hv⟩
  · by_contra hle
    have : triggers x₀ inp c ≤ triggers x₀ inp a := tickCount_mono (by omega)
    omega
  · by_contra hle
    have h1 : triggers x₀ inp (a + 1) ≤ triggers x₀ inp e := tickCount_mono hae
    have h2 : triggers x₀ inp e ≤ triggers x₀ inp c := tickCount_mono (by omega)
    rw [idle_of_triggers hr he (by omega) (by omega)] at hword
    cases hword

end Run

end Psc.Snapshot
