import Psc.Tftp.Download

/-!
# Timeouts

A timeout is set when a transfer begins, and each that expires while one is in progress sets the
next. From the eleventh second without a datagram from the other side on, the last block is sent
again, five times at most, and then the file is closed.

`transfer_given_up`: as long as the other side is silent, a transfer is in progress exactly until
`patience` timeouts have expired, of which there are at most 16, and there is always one pending.
-/

namespace Psc.Tftp

open Net Transition

variable {H φ : Type*}

/-- The other side is silent: a timeout, or a datagram that is turned away. -/
def Silent (s : Server H φ) : Act → Prop
  | .recv _ sender _ => s.Refuses sender
  | .tmr _ => True

/-- The number of timeouts in a run. -/
def timeouts : List Act → ℕ
  | [] => 0
  | .recv .. :: as => timeouts as
  | .tmr _ :: as => timeouts as + 1

/-- The number of timeouts until a transfer is given up. -/
def Server.patience (s : Server H φ) : ℕ :=
  (10 - (s.timer - s.lastPkt)).toNat + (if s.lastData.isSome then 5 - s.retries.toNat else 0) + 1

section Patience

variable {ctx : Context H φ} {mem : Site → Bool} {s s' : Server H φ} {a : Act} {as : List Act}

/-- A timeout with no patience left ends the transfer, and any other costs some. -/
theorem tmr_patience (ctx : Context H φ) (mem : Site → Bool) (hopen : s.handle.isSome)
    (ht : 0 < s.timers) :
    (s.patience = 1 ∧ (s.tmr ctx mem).handle = none ∧ (s.tmr ctx mem).port = 0 ∧
      (s.tmr ctx mem).addr = 0) ∨
    (s.tmr ctx mem).patience + 1 = s.patience ∧ (s.tmr ctx mem).handle = s.handle ∧
      (s.tmr ctx mem).timers = s.timers := by
  have htimers : s.timers - 1 + 1 = s.timers := Nat.sub_add_cancel ht
  obtain ⟨hnone, -⟩ | ⟨h, -, ⟨hlate, heq⟩ | ⟨hlate, hdata, hretry, heq⟩ | ⟨hlate, hretry, heq⟩⟩ :=
    tmr_cases ctx mem s
  · simp [hnone] at hopen
  · refine .inr ⟨?_, by rw [heq]; rfl, by rw [heq]; exact htimers⟩
    rw [heq]
    show (10 - (s.timer + 1 - s.lastPkt)).toNat +
      (if s.lastData.isSome then 5 - s.retries.toNat else 0) + 1 + 1 = s.patience
    unfold Server.patience
    omega
  · obtain ⟨d, hd⟩ := Option.isSome_iff_exists.mp hdata
    have hlt : s.retries.toNat < 5 := hretry
    have hsucc : (s.retries + 1).toNat = s.retries.toNat + 1 := by
      rw [BitVec.toNat_add]
      show (s.retries.toNat + 1) % 256 = _
      omega
    have hresend : s.tmr ctx mem =
        { s.ticked.sendPacket mem .resend s.peer d with retries := s.retries + 1 } := by
      rw [heq, session_resendData s.ticked hd]
      rfl
    refine .inr ⟨?_, by rw [hresend]; rfl, by rw [hresend]; exact htimers⟩
    rw [hresend]
    show (10 - (s.timer + 1 - s.lastPkt)).toNat +
      (if s.lastData.isSome then 5 - (s.retries + 1).toNat else 0) + 1 + 1 = s.patience
    unfold Server.patience
    rw [hsucc, if_pos hdata, if_pos hdata]
    omega
  · refine .inl ⟨?_, by rw [heq]; rfl, by rw [heq]; rfl, by rw [heq]; rfl⟩
    have hzero : (if s.lastData.isSome then 5 - s.retries.toNat else 0) = 0 := by
      split_ifs with hdata
      · have hge : ¬s.retries.toNat < 5 := fun hlt => hretry ⟨hdata, hlt⟩
        omega
      · rfl
    unfold Server.patience
    rw [hzero]
    omega

theorem recv_refused (ctx : Context H φ) (mem : Site → Bool) (p : Pbuf) {sender : Endpoint}
    (hr : s.Refuses sender) :
    ∃ es, s.recv ctx mem p sender = s.push es := by
  obtain ⟨-, heq⟩ | ⟨hr', -⟩ := recv_cases ctx mem s p sender
  · refine ⟨[.taken .datagram] ++ (if mem .error then [.taken (.packet .error),
      .sent (.packet .error) sender
        (errorPacket .accessViolation "Only one connection at a time is supported"),
      .freed (.packet .error)] else []) ++ [.freed .datagram], ?_⟩
    rw [heq]
    unfold Server.push Server.sendError Server.sendPacket
    simp only [Server.push, List.append_assoc]
  · exact absurd hr hr'

theorem run_silent_of_none (hs : s.handle = none) (hport : s.port = 0) (haddr : s.addr = 0)
    (h : Run (step ctx) Silent s as s') : s'.handle = none := by
  induction h with
  | nil => exact hs
  | @cons s s₁ s' a as ha hstep _ ih =>
    cases a with
    | recv p sender mem =>
      obtain ⟨hne, -⟩ | ⟨hne, -⟩ : s.Refuses sender := ha
      · exact absurd hport hne
      · exact absurd haddr hne
    | tmr mem =>
      obtain ⟨-, rfl⟩ : 0 < s.timers ∧ s.tmr ctx mem = s₁ := by
        simpa [step] using hstep
      obtain ⟨-, heq⟩ | ⟨h, hh, -⟩ := tmr_cases ctx mem s
      · rw [heq] at ih
        exact ih hs hport haddr
      · rw [hs] at hh
        cases hh

/-- In silence, a transfer is in progress until `patience` timeouts have expired. -/
theorem run_silent_iff (hopen : s.handle.isSome) (h : Run (step ctx) Silent s as s') :
    (s'.handle.isSome ↔ timeouts as < s.patience) ∧ (s'.handle.isSome → s'.timers = s.timers) := by
  induction h with
  | nil => exact ⟨iff_of_true hopen (Nat.succ_pos _), fun _ => rfl⟩
  | @cons s s₁ s' a as ha hstep hrun ih =>
    cases a with
    | recv p sender mem =>
      obtain rfl := Option.some.inj hstep
      obtain ⟨es, heq⟩ := recv_refused ctx mem p ha
      rw [heq] at ih
      exact ih hopen
    | tmr mem =>
      obtain ⟨ht, rfl⟩ : 0 < s.timers ∧ s.tmr ctx mem = s₁ := by
        simpa [step] using hstep
      obtain ⟨hone, hnone, hport, haddr⟩ | ⟨hpat, hh, htimers⟩ := tmr_patience ctx mem hopen ht
      · have hclosed := run_silent_of_none hnone hport haddr hrun
        rw [hclosed]
        refine ⟨iff_of_false (by simp) ?_, by rintro ⟨⟩⟩
        rw [hone]
        exact not_lt.mpr (Nat.le_add_left ..)
      · obtain ⟨hiff, hconst⟩ := ih (hh ▸ hopen)
        refine ⟨hiff.trans ?_, fun h => (hconst h).trans htimers⟩
        rw [← hpat]
        exact Nat.succ_lt_succ_iff.symm

end Patience

/-! ## Reachable states -/

/-- There is a timeout pending for a transfer, and no datagram from the future. -/
structure Server.Armed (s : Server H φ) : Prop where
  timers : s.handle.isSome → 0 < s.timers
  lastPkt : s.lastPkt ≤ s.timer

section Armed

variable {ctx : Context H φ} {mem : Site → Bool} {s s' : Server H φ} {p : Pbuf} {sender : Endpoint}

theorem Server.Armed.closeHandle (hs : s.Armed) : (s.closeHandle ctx).Armed :=
  ⟨by rintro ⟨⟩, hs.lastPkt⟩

theorem Server.Armed.resendData (hs : s.Armed) : (s.resendData mem).Armed := by
  unfold Server.resendData
  cases s.lastData with
  | none => exact hs
  | some d => exact ⟨hs.timers, hs.lastPkt⟩

theorem Server.Armed.sendData (hs : s.Armed) (h : H) : (s.sendData ctx mem h).Armed := by
  obtain heq | ⟨fs, -, heq⟩ | ⟨data, fs, -, heq⟩ := sendData_cases ctx mem s h
  · exact heq ▸ ⟨hs.timers, hs.lastPkt⟩
  · exact heq ▸ ⟨by rintro ⟨⟩, hs.lastPkt⟩
  · have hread : (s.hasRead h (some data) fs).Armed := ⟨hs.timers, hs.lastPkt⟩
    exact heq ▸ hread.resendData

theorem armed_move (hs : s.Armed) (h : Move ctx mem s p sender s') : s'.Armed := by
  cases h with
  | error code str => exact ⟨hs.timers, hs.lastPkt⟩
  | malformed str hnone hp => exact ⟨fun _ => Nat.succ_pos _, hs.lastPkt⟩
  | notOpened write filename mode fs hnone hp ho => exact ⟨by rintro ⟨⟩, hs.lastPkt⟩
  | upload filename mode h fs hnone hop hp ho => exact ⟨fun _ => Nat.succ_pos _, hs.lastPkt⟩
  | download filename mode h fs hnone hop hp ho =>
    have hbegun : (s.begun sender false h fs).Armed := ⟨fun _ => Nat.succ_pos _, hs.lastPkt⟩
    exact hbegun.sendData h
  | stored h fs hh hw hop hk hlen ho => exact ⟨hs.timers, hs.lastPkt⟩
  | storedLast h fs hh hw hop hk hlen ho => exact ⟨by rintro ⟨⟩, hs.lastPkt⟩
  | failed h fs s' hh hw hop hk ho hc =>
    subst hc
    split_ifs
    · exact ⟨by rintro ⟨⟩, hs.lastPkt⟩
    · exact ⟨by rintro ⟨⟩, hs.lastPkt⟩
  | repeated h hh hw hop hk => exact ⟨hs.timers, hs.lastPkt⟩
  | advanced h hh hw hop hk hd =>
    have hnext : s.next.Armed := ⟨hs.timers, hs.lastPkt⟩
    exact hnext.sendData h
  | finished h d hh hw hop hk hd hlen => exact hs.closeHandle

theorem armed_step {a : Act} (hs : s.Armed) (h : step ctx s a = some s') : s'.Armed := by
  cases a with
  | recv p sender mem =>
    obtain rfl := Option.some.inj h
    obtain ⟨-, heq⟩ | ⟨-, s', hmove, heq⟩ := recv_cases ctx mem s p sender
    · exact heq ▸ ⟨hs.timers, hs.lastPkt⟩
    · have hs' := armed_move (s := s.seen) ⟨hs.timers, le_rfl⟩ hmove
      exact heq ▸ ⟨hs'.timers, hs'.lastPkt⟩
  | tmr mem =>
    obtain ⟨-, rfl⟩ : 0 < s.timers ∧ s.tmr ctx mem = s' := by
      simpa [step] using h
    have hlast : s.lastPkt ≤ s.timer + 1 := hs.lastPkt.trans (by omega)
    obtain ⟨hnone, heq⟩ | ⟨h, -, ⟨-, heq⟩ | ⟨-, -, -, heq⟩ | ⟨-, -, heq⟩⟩ := tmr_cases ctx mem s
    · exact heq ▸ ⟨fun h => by simp [hnone] at h, hlast⟩
    · exact heq ▸ ⟨fun _ => Nat.succ_pos _, hlast⟩
    · have htick : s.ticked.Armed := ⟨fun _ => Nat.succ_pos _, hlast⟩
      have hresend : (s.ticked.resendData mem).Armed := htick.resendData
      exact heq ▸ ⟨hresend.timers, hresend.lastPkt⟩
    · exact heq ▸ ⟨by rintro ⟨⟩, hlast⟩

end Armed

/-- **Timeouts.** In every state that is reached while a transfer is in progress a timeout is
pending. If nothing more comes from the other side, the transfer is in progress exactly until
`patience` timeouts have expired, which are at most 16, and at most 11 without a buffer to send
again; and the number of pending timeouts stays what it is. -/
theorem transfer_given_up (ctx : Context H φ) (fs : φ) {s : Server H φ}
    (h : Reach (step ctx) (fun _ _ => True) (· = Server.init fs) s) (hopen : s.handle.isSome) :
    0 < s.timers ∧ s.patience ≤ 16 ∧ (s.lastData = none → s.patience ≤ 11) ∧
      ∀ as s', Run (step ctx) Silent s as s' →
        (s'.handle.isSome ↔ timeouts as < s.patience) ∧
          (s'.handle.isSome → s'.timers = s.timers) := by
  have hs : s.Armed := by
    refine h.invariant ?_ fun s a s' hs _ hstep => armed_step hs hstep
    rintro _ rfl
    exact ⟨by rintro ⟨⟩, le_rfl⟩
  have hlast := hs.lastPkt
  refine ⟨hs.timers hopen, ?_, ?_, fun as s' hrun => run_silent_iff hopen hrun⟩
  · unfold Server.patience
    split_ifs <;> omega
  · intro hnone
    unfold Server.patience
    rw [hnone]
    simp only [Option.isSome_none, Bool.false_eq_true, if_false]
    omega

theorem download_given_up : 0 < offered.timers ∧ offered.patience ≤ 16 ∧
    (offered.lastData = none → offered.patience ≤ 11) ∧
      ∀ as s', Run (step source) Silent offered as s' →
        (s'.handle.isSome ↔ timeouts as < offered.patience) ∧
          (s'.handle.isSome → s'.timers = offered.timers) :=
  transfer_given_up source [1, 2, 3] (.next (.tmr fun _ => true)
    (.next (.recv readRequest reader fun _ => true) (.start rfl) trivial rfl) trivial rfl) rfl

end Psc.Tftp
