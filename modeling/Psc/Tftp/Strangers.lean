import Psc.Tftp.Timeouts
import Psc.Tftp.Upload

/-!
# Strangers

While a transfer is in progress, a datagram from anyone else is answered with an error, if there is
a buffer, and changes nothing.

`refuses_iff`: turned away is, during a transfer, whoever is not the other side of it, and nobody
otherwise. `strangers_ignored`: of what other senders do in a run, only what is not turned away has
an effect on the server, its files, and what a given endpoint is sent.
-/

namespace Psc.Tftp

open Net Transition

variable {H φ : Type*}

/-! ## The log is written only -/

namespace Server

/-- The same state, with an older log in front. -/
def after (log : List (Effect H φ)) (s : Server H φ) : Server H φ := { s with log := log ++ s.log }

/-- The state without the log. -/
def core (s : Server H φ) : Server H φ := { s with log := [] }

section After

variable (ctx : Context H φ) (mem : Site → Bool) (log : List (Effect H φ)) (s : Server H φ)
  (p : Pbuf) (sender : Endpoint)

@[simp] theorem after_core : s.core.after s.log = s := by
  unfold after core
  rw [List.append_nil]

@[simp] theorem core_after : (s.after log).core = s.core := rfl

@[simp] theorem handle_after : (s.after log).handle = s.handle := rfl

@[simp] theorem fs_after : (s.after log).fs = s.fs := rfl

theorem push_after (es : List (Effect H φ)) : (s.after log).push es = (s.push es).after log := by
  unfold push after
  rw [List.append_assoc]

theorem sendPacket_after (site : Site) (dest : Endpoint) (packet : List Byte) :
    (s.after log).sendPacket mem site dest packet = (s.sendPacket mem site dest packet).after log :=
  push_after ..

theorem sendError_after (code : TftpError) (str : String) :
    (s.after log).sendError mem sender code str = (s.sendError mem sender code str).after log :=
  push_after ..

theorem sendAck_after (k : BitVec 16) :
    (s.after log).sendAck mem k = (s.sendAck mem k).after log := push_after ..

theorem closeHandle_after : (s.after log).closeHandle ctx = (s.closeHandle ctx).after log := by
  unfold closeHandle after
  simp only [List.append_assoc]

theorem resendData_after : (s.after log).resendData mem = (s.resendData mem).after log := by
  unfold resendData
  show s.lastData.elim (s.after log) ((s.after log).sendPacket mem .resend s.peer) = _
  cases s.lastData with
  | none => rfl
  | some d => exact sendPacket_after ..

theorem noBuffer_after : (s.after log).noBuffer = s.noBuffer.after log := by
  unfold noBuffer after
  rw [List.append_assoc]

theorem hasRead_after (h : H) (data : Option (List Byte)) (fs : φ) :
    (s.after log).hasRead h data fs = (s.hasRead h data fs).after log := by
  unfold hasRead after
  simp only [List.append_assoc]

theorem sendData_after (h : H) :
    (s.after log).sendData ctx mem h = (s.sendData ctx mem h).after log := by
  rw [sendData_eq, sendData_eq]
  split_ifs
  · rw [fs_after]
    rcases ctx.readFile h 512 s.fs with ⟨_ | data, fs⟩
    · dsimp only
      rw [hasRead_after, sendError_after, closeHandle_after]
      rfl
    · dsimp only
      rw [hasRead_after, resendData_after]
  · exact noBuffer_after ..

theorem begun_after (q : Endpoint) (write : Bool) (h : H) (fs : φ) :
    (s.after log).begun q write h fs = (s.begun q write h fs).after log := by
  unfold begun after
  rw [List.append_assoc]

theorem notBegun_after (q : Endpoint) (write : Bool) (fs : φ) :
    (s.after log).notBegun q write fs = (s.notBegun q write fs).after log := by
  unfold notBegun after
  rw [List.append_assoc]

theorem wrote_after (h : H) (data : List Byte) (ok : Bool) (fs : φ) :
    (s.after log).wrote h data ok fs = (s.wrote h data ok fs).after log := by
  unfold wrote after
  rw [List.append_assoc]

theorem request_after (write : Bool) : (s.after log).request ctx mem p sender write =
    (s.request ctx mem p sender write).after log := by
  cases hs : s.handle with
  | some h =>
    unfold request
    rw [if_pos (show s.handle.isSome by simp [hs]),
      if_pos (show (s.after log).handle.isSome from (by simp [hs] : s.handle.isSome))]
    exact sendError_after ..
  | none =>
    rw [request_eq ctx mem s p sender write hs, request_eq ctx mem (s.after log) p sender write hs]
    rcases parseRequest ctx.toLwip p with str | ⟨filename, mode⟩
    · exact sendError_after mem log { s with timers := s.timers + 1 } ..
    · dsimp only
      rw [fs_after]
      rcases ctx.openFile filename mode write s.fs with ⟨_ | h, fs⟩
      · dsimp only
        rw [notBegun_after, sendError_after]
      · dsimp only
        rw [begun_after, sendAck_after, sendData_after]
        split_ifs <;> rfl

theorem store_after (h : H) : (s.after log).store ctx mem p sender h =
    (s.store ctx mem p sender h).after log := by
  rw [store_eq, store_eq, fs_after]
  rcases ctx.writeFile h ((ctx.removeHeader p 4).payload :: (ctx.removeHeader p 4).next) s.fs with
    ⟨_ | _, fs⟩
  · dsimp only
    rw [wrote_after, sendError_after, closeHandle_after, closeHandle_after]
    split_ifs <;> rfl
  · dsimp only
    rw [wrote_after, sendAck_after, closeHandle_after]
    split_ifs <;> rfl

theorem data_after : (s.after log).data ctx mem p sender =
    (s.data ctx mem p sender).after log := by
  unfold data
  rw [handle_after]
  cases s.handle with
  | none => exact sendError_after ..
  | some h =>
    dsimp only
    show (if s.modeWrite then if p.sbuf 1 = s.blknum then _ else if p.sbuf 1 + 1 = s.blknum then _
      else _ else _) = _
    split_ifs
    · exact store_after ..
    · exact sendAck_after ..
    · exact sendError_after ..
    · exact sendError_after ..

theorem ack_after : (s.after log).ack ctx mem p sender = (s.ack ctx mem p sender).after log := by
  cases hs : s.handle with
  | none =>
    unfold ack
    rw [hs, show (s.after log).handle = none from hs]
    exact sendError_after ..
  | some h =>
    rw [ack_eq ctx mem p sender hs, ack_eq (s := s.after log) ctx mem p sender hs]
    show (if s.modeWrite then _ else if p.sbuf 1 ≠ s.blknum then _
      else if s.lastData.elim false (fun d => d.length ≠ 516) then _ else _) = _
    split_ifs
    · exact sendError_after ..
    · exact sendError_after ..
    · exact closeHandle_after ..
    · exact sendData_after ctx mem log s.next h

theorem dispatch_after : (s.after log).dispatch ctx mem p sender =
    (s.dispatch ctx mem p sender).after log := by
  unfold dispatch
  dsimp only
  split_ifs
  · exact request_after ..
  · exact request_after ..
  · exact data_after ..
  · exact ack_after ..
  · exact sendError_after ..

theorem recv_after : (s.after log).recv ctx mem p sender =
    (s.recv ctx mem p sender).after log := by
  have hdispatch := dispatch_after ctx mem log s.seen p sender
  have hseen : (s.after log).seen = s.seen.after log := by
    unfold seen after
    rw [List.append_assoc]
  unfold recv
  dsimp only
  by_cases hr : s.Refuses sender
  · rw [if_pos (show (s.push [.taken .datagram]).Refuses sender from hr),
      if_pos (show ((s.after log).push [.taken .datagram]).Refuses sender from hr)]
    rw [push_after, sendError_after, push_after]
  · rw [if_neg (show ¬(s.push [.taken .datagram]).Refuses sender from hr),
      if_neg (show ¬((s.after log).push [.taken .datagram]).Refuses sender from hr)]
    show ((s.after log).seen.dispatch ctx mem p sender).push _ = _
    rw [hseen, hdispatch, push_after]
    rfl

theorem tmr_after : (s.after log).tmr ctx mem = (s.tmr ctx mem).after log := by
  cases hs : s.handle with
  | none =>
    unfold tmr
    simp only [hs, show (s.after log).handle = none from hs]
    rfl
  | some h =>
    rw [tmr_eq ctx mem hs, tmr_eq (s := s.after log) ctx mem hs]
    show (if 10 < s.timer + 1 - s.lastPkt then if s.lastData.isSome ∧ s.retries < 5 then
      { (s.ticked.after log).resendData mem with retries := s.retries + 1 }
        else (s.ticked.after log).closeHandle ctx else s.ticked.after log) = _
    rw [resendData_after, closeHandle_after]
    split_ifs <;> rfl

/-- The log is written only: no step depends on what is in it. -/
theorem step_after (a : Act) :
    step ctx (s.after log) a = (step ctx s a).map (Server.after log) := by
  cases a with
  | recv p sender mem => exact congrArg some (recv_after ..)
  | tmr mem =>
    show (if 0 < s.timers then some _ else none) = (if 0 < s.timers then some _ else none).map _
    rw [tmr_after]
    split_ifs <;> rfl

end After

end Server

/-! ## Who is turned away -/

/-- A datagram comes from an address and a port. -/
def FromEndpoint : Act → Prop
  | .recv _ sender _ => sender.addr ≠ 0 ∧ sender.port ≠ 0
  | .tmr _ => True

/-- The other side is kept during a transfer, and zeros otherwise. -/
structure Server.Addressed (s : Server H φ) : Prop where
  idle : s.handle = none → s.addr = 0 ∧ s.port = 0
  busy : s.handle.isSome → s.addr ≠ 0 ∧ s.port ≠ 0

section Addressed

variable {ctx : Context H φ} {mem : Site → Bool} {s s' : Server H φ} {p : Pbuf} {sender : Endpoint}

theorem Server.Addressed.closeHandle (ctx : Context H φ) (s : Server H φ) :
    (s.closeHandle ctx).Addressed :=
  ⟨fun _ => ⟨rfl, rfl⟩, by rintro ⟨⟩⟩

theorem Server.Addressed.resendData (hs : s.Addressed) : (s.resendData mem).Addressed := by
  unfold Server.resendData
  cases s.lastData with
  | none => exact hs
  | some d => exact ⟨hs.idle, hs.busy⟩

theorem Server.Addressed.sendData (hs : s.Addressed) (h : H) :
    (s.sendData ctx mem h).Addressed := by
  obtain heq | ⟨fs, -, heq⟩ | ⟨data, fs, -, heq⟩ := sendData_cases ctx mem s h
  · exact heq ▸ ⟨hs.idle, hs.busy⟩
  · exact heq ▸ .closeHandle ctx _
  · have hread : (s.hasRead h (some data) fs).Addressed := ⟨hs.idle, hs.busy⟩
    exact heq ▸ hread.resendData

theorem addressed_move (hs : s.Addressed) (hsender : sender.addr ≠ 0 ∧ sender.port ≠ 0)
    (h : Move ctx mem s p sender s') : s'.Addressed := by
  cases h with
  | error code str => exact ⟨hs.idle, hs.busy⟩
  | malformed str hnone hp => exact ⟨hs.idle, hs.busy⟩
  | notOpened write filename mode fs hnone hp ho => exact ⟨fun _ => hs.idle hnone, by rintro ⟨⟩⟩
  | upload filename mode h fs hnone hop hp ho => exact ⟨by rintro ⟨⟩, fun _ => hsender⟩
  | download filename mode h fs hnone hop hp ho =>
    have hbegun : (s.begun sender false h fs).Addressed := ⟨by rintro ⟨⟩, fun _ => hsender⟩
    exact hbegun.sendData h
  | stored h fs hh hw hop hk hlen ho => exact ⟨hs.idle, hs.busy⟩
  | storedLast h fs hh hw hop hk hlen ho => exact .closeHandle ..
  | failed h fs s' hh hw hop hk ho hc =>
    have hclosed : s'.Addressed := hc ▸ .closeHandle ..
    split_ifs
    · exact .closeHandle ..
    · exact ⟨hclosed.idle, hclosed.busy⟩
  | repeated h hh hw hop hk => exact ⟨hs.idle, hs.busy⟩
  | advanced h hh hw hop hk hd =>
    have hnext : s.next.Addressed := ⟨hs.idle, hs.busy⟩
    exact hnext.sendData h
  | finished h d hh hw hop hk hd hlen => exact .closeHandle ..

theorem addressed_step {a : Act} (hs : s.Addressed) (ha : FromEndpoint a)
    (h : step ctx s a = some s') : s'.Addressed := by
  cases a with
  | recv p sender mem =>
    obtain rfl := Option.some.inj h
    obtain ⟨-, heq⟩ | ⟨-, s', hmove, heq⟩ := recv_cases ctx mem s p sender
    · exact heq ▸ ⟨hs.idle, hs.busy⟩
    · have hs' := addressed_move (s := s.seen) ⟨hs.idle, hs.busy⟩ ha hmove
      exact heq ▸ ⟨hs'.idle, hs'.busy⟩
  | tmr mem =>
    obtain ⟨-, rfl⟩ : 0 < s.timers ∧ s.tmr ctx mem = s' := by
      simpa [step] using h
    obtain ⟨-, heq⟩ | ⟨h, -, ⟨-, heq⟩ | ⟨-, -, -, heq⟩ | ⟨-, -, heq⟩⟩ := tmr_cases ctx mem s
    · exact heq ▸ ⟨hs.idle, hs.busy⟩
    · exact heq ▸ ⟨hs.idle, hs.busy⟩
    · have htick : s.ticked.Addressed := ⟨hs.idle, hs.busy⟩
      have hresend : (s.ticked.resendData mem).Addressed := htick.resendData
      exact heq ▸ ⟨hresend.idle, hresend.busy⟩
    · exact heq ▸ .closeHandle ..

/-- During a transfer everyone but the other side is turned away, and otherwise nobody. -/
theorem refuses_iff {fs : φ}
    (h : Reach (step ctx) (fun _ a => FromEndpoint a) (· = Server.init fs) s) (q : Endpoint) :
    s.Refuses q ↔ s.handle.isSome ∧ q ≠ s.peer := by
  have hs : s.Addressed := by
    refine h.invariant ?_ fun s a s' hs ha hstep => addressed_step hs ha hstep
    rintro _ rfl
    exact ⟨fun _ => ⟨rfl, rfl⟩, by rintro ⟨⟩⟩
  cases hh : s.handle with
  | none =>
    obtain ⟨haddr, hport⟩ := hs.idle hh
    refine iff_of_false ?_ (by simp)
    rintro (⟨hne, -⟩ | ⟨hne, -⟩)
    · exact hne hport
    · exact hne haddr
  | some x =>
    obtain ⟨haddr, hport⟩ := hs.busy (by simp [hh])
    have hpeer : q ≠ s.peer ↔ ¬(q.addr = s.addr ∧ q.port = s.port) := by
      cases q
      exact not_congr (by unfold Server.peer; rw [Endpoint.mk.injEq])
    rw [hpeer]
    unfold Server.Refuses
    simp only [haddr, hport, ne_eq, not_false_eq_true, true_and, Option.isSome_some]
    rw [not_and_or, or_comm, eq_comm]

end Addressed

/-! ## Strangers -/

/-- A datagram that is turned away, and not from `q`. -/
def Stranger (q : Endpoint) (s : Server H φ) : Act → Prop
  | .recv _ sender _ => s.Refuses sender ∧ sender ≠ q
  | .tmr _ => False

instance (q : Endpoint) (s : Server H φ) : DecidablePred (Stranger q s)
  | .recv .. => inferInstanceAs (Decidable (_ ∧ _))
  | .tmr _ => inferInstanceAs (Decidable False)

/-- What is left of a run without the strangers. -/
def heard (ctx : Context H φ) (q : Endpoint) : Server H φ → List Act → List Act
  | _, [] => []
  | s, a :: as =>
    match step ctx s a with
    | none => a :: as
    | some s' => if Stranger q s a then heard ctx q s' as else a :: heard ctx q s' as

/-- What an endpoint has been sent. -/
def sentTo (q : Endpoint) (log : List (Effect H φ)) : List (List Byte) :=
  log.filterMap fun
    | .sent _ dest packet => if dest = q then some packet else none
    | _ => none

section Strangers

variable {ctx : Context H φ} {q : Endpoint} {s s' t : Server H φ} {a : Act} {as : List Act}

theorem sentTo_append (q : Endpoint) (log es : List (Effect H φ)) :
    sentTo q (log ++ es) = sentTo q log ++ sentTo q es := List.filterMap_append

theorem step_stranger (ha : Stranger q s a) (h : step ctx s a = some s') :
    s'.core = s.core ∧ sentTo q s'.log = sentTo q s.log := by
  cases a with
  | recv p sender mem =>
    obtain ⟨hr, hne⟩ := ha
    obtain rfl := Option.some.inj h
    obtain ⟨-, heq⟩ | ⟨hr', -⟩ := recv_cases ctx mem s p sender
    · rw [heq]
      refine ⟨rfl, ?_⟩
      show sentTo q (s.log ++ [.taken .datagram] ++ (if mem .error then _ else []) ++
        [.freed .datagram]) = _
      rw [sentTo_append, sentTo_append, sentTo_append]
      split_ifs
      · simp [sentTo, hne]
      · simp [sentTo]
    · exact absurd hr hr'
  | tmr mem => exact ha.elim

theorem step_congr (hcore : s.core = t.core) (hsent : sentTo q s.log = sentTo q t.log)
    (h : step ctx s a = some s') :
    ∃ t', step ctx t a = some t' ∧ s'.core = t'.core ∧ sentTo q s'.log = sentTo q t'.log := by
  rw [← s.after_core, Server.step_after] at h
  obtain ⟨c, hc, rfl⟩ := Option.map_eq_some_iff.mp h
  refine ⟨c.after t.log, ?_, rfl, ?_⟩
  · have ht := Server.step_after ctx t.log t.core a
    rw [t.after_core] at ht
    rw [ht, ← hcore, hc]
    rfl
  · show sentTo q (s.log ++ c.log) = sentTo q (t.log ++ c.log)
    rw [sentTo_append, sentTo_append, hsent]

theorem runs_heard (hcore : s.core = t.core) (hsent : sentTo q s.log = sentTo q t.log)
    (h : runs (step ctx) s as = some s') :
    ∃ t', runs (step ctx) t (heard ctx q s as) = some t' ∧ s'.core = t'.core ∧
      sentTo q s'.log = sentTo q t'.log := by
  induction as generalizing s t with
  | nil =>
    obtain rfl := Option.some.inj h
    exact ⟨t, rfl, hcore, hsent⟩
  | cons a as ih =>
    obtain ⟨s₁, hstep, hrest⟩ := Option.bind_eq_some_iff.mp h
    unfold heard
    simp only [hstep]
    by_cases ha : Stranger q s a
    · obtain ⟨hcore', hsent'⟩ := step_stranger ha hstep
      rw [if_pos ha]
      exact ih (hcore'.trans hcore) (hsent'.trans hsent) hrest
    · obtain ⟨t₁, hstep', hcore', hsent'⟩ := step_congr hcore hsent hstep
      obtain ⟨t', hruns, ht'⟩ := ih hcore' hsent' hrest
      rw [if_neg ha]
      exact ⟨t', Option.bind_eq_some_iff.mpr ⟨t₁, hstep', hruns⟩, ht'⟩

end Strangers

/-- **Strangers.** A run without the datagrams of other senders that were turned away is a run, to
the same state but for the log, and `q` has been sent the same in it. -/
theorem strangers_ignored (ctx : Context H φ) (q : Endpoint) {s s' : Server H φ} {as : List Act}
    (h : runs (step ctx) s as = some s') :
    ∃ t, runs (step ctx) s (heard ctx q s as) = some t ∧ s'.core = t.core ∧
      sentTo q s'.log = sentTo q t.log :=
  runs_heard rfl rfl h

/-- A reader, between whose request and acknowledgement someone else asks for a file. -/
def disturbed : List Act :=
  [.recv readRequest reader fun _ => true, .recv readRequest client fun _ => true,
    .recv ⟨ackPacket 1, [], fun _ => 0, by decide⟩ reader fun _ => true]

theorem client_ignored : ∃ s' t, runs (step source) (Server.init [1, 2, 3]) disturbed = some s' ∧
    runs (step source) (Server.init [1, 2, 3])
      (heard source reader (Server.init [1, 2, 3]) disturbed) = some t ∧
    s'.core = t.core ∧ sentTo reader s'.log = sentTo reader t.log := by
  have hrun : ∃ s', runs (step source) (Server.init [1, 2, 3]) disturbed = some s' := ⟨_, rfl⟩
  obtain ⟨s', hs'⟩ := hrun
  obtain ⟨t, ht⟩ := strangers_ignored source reader hs'
  exact ⟨s', t, hs', ht⟩

end Psc.Tftp
