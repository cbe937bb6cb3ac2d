import Psc.Tftp.Moves

/-!
# Transfers, as the log tells them

`session` is the last transfer that was begun: with whom, in which direction, what has been written
or read since, and what has been sent. The server's own record of the transfer in progress, its
`cursor`, agrees with it (`tracks_step`).
-/

namespace Psc.Tftp

open Net Transition

variable {H φ : Type*}

/-! ## What the log says -/

/-- A transfer, from the opening of the file on: with the file system as it was opened in. -/
structure Session (H φ : Type*) where
  peer : Endpoint
  write : Bool
  handle : H
  start : φ
  written : List (List Byte)
  read : List (List Byte)
  sent : List (Endpoint × List Byte)

namespace Session

variable (S : Session H φ)

def addWritten (data : List Byte) : Session H φ := { S with written := S.written ++ [data] }

def addRead (data : List Byte) : Session H φ := { S with read := S.read ++ [data] }

def addSent (xs : List (Endpoint × List Byte)) : Session H φ := { S with sent := S.sent ++ xs }

end Session

/-- What an effect adds. A block that could not be written, or not be read, adds nothing, nor does a
file that could not be opened. -/
def Effect.note (o : Option (Session H φ)) : Effect H φ → Option (Session H φ)
  | .opened q write (some h, fs) => some ⟨q, write, h, fs, [], [], []⟩
  | .wrote _ data true => o.map (·.addWritten data)
  | .read _ (some data) => o.map (·.addRead data)
  | .sent _ dest packet => o.map (·.addSent [(dest, packet)])
  | _ => o

/-- The last transfer in a log. -/
def session (log : List (Effect H φ)) : Option (Session H φ) := log.foldl Effect.note none

/-- The transfer in progress, as the server keeps it. -/
structure Cursor (H : Type*) where
  peer : Endpoint
  write : Bool
  handle : H
  blknum : BitVec 16

def Server.cursor (s : Server H φ) : Option (Cursor H) :=
  s.handle.map fun h => ⟨s.peer, s.modeWrite, h, s.blknum⟩

section Session

variable {ctx : Context H φ} {mem : Site → Bool} (s : Server H φ)

theorem session_append (log es : List (Effect H φ)) :
    session (log ++ es) = es.foldl Effect.note (session log) := List.foldl_append

@[simp] theorem session_sendPacket (site : Site) (dest : Endpoint) (packet : List Byte) :
    session (s.sendPacket mem site dest packet).log =
      (session s.log).map (·.addSent (if mem site then [(dest, packet)] else [])) := by
  show session (s.log ++ _) = _
  rw [session_append]
  cases mem site with
  | true => rfl
  | false =>
    show session s.log = _
    cases session s.log with
    | none => rfl
    | some S => simp [Session.addSent]

theorem session_freed (log : List (Effect H φ)) (o : Option (List Byte)) :
    session (log ++ o.elim [] fun _ => [.freed (.packet .data)]) = session log := by
  rw [session_append]
  cases o <;> rfl

@[simp] theorem session_closeHandle : session (s.closeHandle ctx).log = session s.log := by
  show session (s.log ++ _ ++ _) = _
  rw [session_append, session_freed]
  cases s.handle <;> rfl

@[simp] theorem session_push_freed (b : Buffer) : session (s.push [.freed b]).log = session s.log :=
  session_append ..

@[simp] theorem session_push_taken (b : Buffer) : session (s.push [.taken b]).log = session s.log :=
  session_append ..

@[simp] theorem session_seen : session s.seen.log = session s.log := session_append ..

@[simp] theorem session_begun (q : Endpoint) (write : Bool) (h : H) (fs : φ) :
    session (s.begun q write h fs).log = some ⟨q, write, h, fs, [], [], []⟩ := session_append ..

@[simp] theorem session_notBegun (q : Endpoint) (write : Bool) (fs : φ) :
    session (s.notBegun q write fs).log = session s.log := session_append ..

@[simp] theorem session_wrote_true (h : H) (data : List Byte) (fs : φ) :
    session (s.wrote h data true fs).log = (session s.log).map (·.addWritten data) :=
  session_append ..

@[simp] theorem session_wrote_false (h : H) (data : List Byte) (fs : φ) :
    session (s.wrote h data false fs).log = session s.log := session_append ..

@[simp] theorem session_noBuffer : session s.noBuffer.log = session s.log := session_freed ..

@[simp] theorem session_hasRead_none (h : H) (fs : φ) :
    session (s.hasRead h none fs).log = session s.log := by
  show session (s.log ++ _ ++ _) = _
  rw [session_append, session_freed]
  rfl

@[simp] theorem session_hasRead_some (h : H) (data : List Byte) (fs : φ) :
    session (s.hasRead h (some data) fs).log = (session s.log).map (·.addRead data) := by
  show session (s.log ++ _ ++ _) = _
  rw [session_append, session_freed]
  rfl

theorem session_resendData {d : List Byte} (hd : s.lastData = some d) :
    s.resendData mem = s.sendPacket mem .resend s.peer d := by
  unfold Server.resendData
  rw [hd]
  rfl

theorem session_sendData (ctx : Context H φ) (mem : Site → Bool) (h : H) :
    ∃ f : Session H φ → Session H φ,
      session (s.sendData ctx mem h).log = (session s.log).map f ∧
        ∀ S, (f S).write = S.write ∧ (f S).start = S.start := by
  obtain heq | ⟨fs, -, heq⟩ | ⟨data, fs, -, heq⟩ := sendData_cases ctx mem s h
  · refine ⟨id, ?_, fun _ => ⟨rfl, rfl⟩⟩
    rw [heq, session_noBuffer, Option.map_id]
    rfl
  · rw [heq, session_closeHandle, Server.sendError, session_sendPacket, session_hasRead_none]
    exact ⟨_, rfl, fun _ => ⟨rfl, rfl⟩⟩
  · rw [heq, session_resendData _ rfl, session_sendPacket, session_hasRead_some, Option.map_map]
    exact ⟨_, rfl, fun _ => ⟨rfl, rfl⟩⟩

theorem write_sendData {h : H} (hS : ∀ S, session s.log = some S → S.write = false) :
    ∀ S, session (s.sendData ctx mem h).log = some S → S.write = false := by
  intro S' hS'
  obtain ⟨f, hf, hkeep⟩ := session_sendData s ctx mem h
  rw [hf] at hS'
  obtain ⟨S, hS₀, rfl⟩ := Option.map_eq_some_iff.mp hS'
  exact (hkeep S).1.trans (hS S hS₀)

end Session

/-! ## Packets -/

section Packets

variable (k k' : BitVec 16) (data data' : List Byte) (code : TftpError) (str : String)

theorem dataPacket_ne_ackPacket : dataPacket k data ≠ ackPacket k' := by
  intro h
  have hop : (dataPacket k data)[1]? = (ackPacket k')[1]? := by rw [h]
  exact absurd hop (show some (3 : Byte) ≠ some 4 by decide)

theorem errorPacket_ne_ackPacket : errorPacket code str ≠ ackPacket k' := by
  intro h
  have hop : (errorPacket code str)[1]? = (ackPacket k')[1]? := by rw [h]
  exact absurd hop (show some (5 : Byte) ≠ some 4 by decide)

theorem errorPacket_ne_dataPacket : errorPacket code str ≠ dataPacket k data := by
  intro h
  have hop : (errorPacket code str)[1]? = (dataPacket k data)[1]? := by rw [h]
  exact absurd hop (show some (5 : Byte) ≠ some 3 by decide)

theorem ackPacket_ne_dataPacket : ackPacket k' ≠ dataPacket k data :=
  (dataPacket_ne_ackPacket k k' data).symm

variable {k k' data data'}

theorem be16_inj {x y : BitVec 16} (h : be16 x = be16 y) : x = y := by
  obtain ⟨hhi, hlo⟩ := List.cons.inj h
  rw [← append_extract16 x, ← append_extract16 y, hhi, (List.cons.inj hlo).1]

theorem ackPacket_inj (h : ackPacket k = ackPacket k') : k = k' :=
  be16_inj (List.append_cancel_left h)

theorem dataPacket_inj (h : dataPacket k data = dataPacket k' data') : k = k' ∧ data = data' := by
  unfold dataPacket at h
  rw [List.append_assoc, List.append_assoc] at h
  obtain ⟨hk, hdata⟩ := List.append_inj (List.append_cancel_left h) rfl
  exact ⟨be16_inj hk, hdata⟩

end Packets

/-! ## The server's record -/

/-- The transfer in progress is the last one in the log, and the buffer holds a data packet. -/
structure Tracks (c : Option (Cursor H)) (buf : Option (List Byte)) (o : Option (Session H φ)) :
    Prop where
  begun : ∀ k, c = some k →
    ∃ S, o = some S ∧ S.peer = k.peer ∧ S.write = k.write ∧ S.handle = k.handle
  buffer : ∀ d, buf = some d → ∃ k data, d = dataPacket k data

def Server.Tracks (s : Server H φ) : Prop := Tftp.Tracks s.cursor s.lastData (session s.log)

section Tracks

variable {c : Option (Cursor H)} {buf : Option (List Byte)} {o : Option (Session H φ)}

theorem Tracks.map (h : Tracks c buf o) {f : Session H φ → Session H φ}
    (hf : ∀ S, (f S).peer = S.peer ∧ (f S).write = S.write ∧ (f S).handle = S.handle) :
    Tracks c buf (o.map f) where
  begun k hk := by
    obtain ⟨S, rfl, hpeer, hwrite, hhandle⟩ := h.begun k hk
    exact ⟨f S, rfl, (hf S).1.trans hpeer, (hf S).2.1.trans hwrite, (hf S).2.2.trans hhandle⟩
  buffer := h.buffer

theorem Tracks.addSent (h : Tracks c buf o) (xs : List (Endpoint × List Byte)) :
    Tracks c buf (o.map (·.addSent xs)) := h.map fun _ => ⟨rfl, rfl, rfl⟩

theorem Tracks.closed (o : Option (Session H φ)) : Tracks none none o where
  begun := by rintro k ⟨⟩
  buffer := by rintro d ⟨⟩

theorem Tracks.begin (hbuf : ∀ d, buf = some d → ∃ k data, d = dataPacket k data) (q : Endpoint)
    (write : Bool) (k : BitVec 16) (h : H) (fs : φ) :
    Tracks (some ⟨q, write, h, k⟩) buf (some ⟨q, write, h, fs, [], [], []⟩) where
  begun := by
    rintro k ⟨⟩
    exact ⟨_, rfl, rfl, rfl, rfl⟩
  buffer := hbuf

/-- Whatever happens to the number that is expected and to the buffer. -/
theorem Tracks.cursor {k k' : Cursor H} (h : Tracks (some k) buf o) (hpeer : k'.peer = k.peer)
    (hwrite : k'.write = k.write) (hhandle : k'.handle = k.handle) {buf' : Option (List Byte)}
    (hbuf : ∀ d, buf' = some d → ∃ k data, d = dataPacket k data) : Tracks (some k') buf' o where
  begun := by
    rintro _ ⟨⟩
    rw [hpeer, hwrite, hhandle]
    exact h.begun k rfl
  buffer := hbuf

end Tracks

section Step

variable {ctx : Context H φ} {mem : Site → Bool} {s s' : Server H φ}

theorem cursor_eq {h : H} (hs : s.handle = some h) :
    s.cursor = some ⟨s.peer, s.modeWrite, h, s.blknum⟩ := by
  unfold Server.cursor
  rw [hs]
  rfl

theorem Server.Tracks.sendPacket (hs : s.Tracks) (site : Site) (dest : Endpoint)
    (packet : List Byte) : (s.sendPacket mem site dest packet).Tracks := by
  unfold Server.Tracks
  rw [session_sendPacket]
  exact Tracks.addSent hs _

theorem Server.Tracks.closeHandle (ctx : Context H φ) (s : Server H φ) :
    (s.closeHandle ctx).Tracks := Tracks.closed _

theorem Server.Tracks.next (hs : s.Tracks) {h : H} (hh : s.handle = some h) : s.next.Tracks := by
  have hcur : Tftp.Tracks (some ⟨s.peer, s.modeWrite, h, s.blknum⟩) s.lastData (session s.log) :=
    cursor_eq hh ▸ hs
  unfold Server.Tracks
  rw [cursor_eq (s := s.next) hh]
  refine hcur.cursor ?_ ?_ ?_ hs.buffer
  · rfl
  · rfl
  · rfl

theorem Server.Tracks.resendData (hs : s.Tracks) : (s.resendData mem).Tracks := by
  cases hd : s.lastData with
  | none =>
    unfold Server.resendData
    rw [hd]
    exact hs
  | some d =>
    rw [session_resendData s hd]
    exact hs.sendPacket ..

theorem Server.Tracks.sendData (hs : s.Tracks) {h : H} (hh : s.handle = some h) :
    (s.sendData ctx mem h).Tracks := by
  have hcur : Tftp.Tracks (some ⟨s.peer, s.modeWrite, h, s.blknum⟩) s.lastData (session s.log) :=
    cursor_eq hh ▸ hs
  obtain heq | ⟨fs, -, heq⟩ | ⟨data, fs, -, heq⟩ := sendData_cases ctx mem s h
  · rw [heq]
    unfold Server.Tracks
    rw [session_noBuffer, cursor_eq (s := s.noBuffer) hh]
    exact hcur.cursor rfl rfl rfl (by rintro d ⟨⟩)
  · rw [heq]
    exact .closeHandle ..
  · rw [heq]
    apply Server.Tracks.resendData
    unfold Server.Tracks
    rw [session_hasRead_some, cursor_eq (s := s.hasRead h (some data) fs) hh]
    refine Tracks.map (hcur.cursor rfl rfl rfl ?_) fun _ => ⟨rfl, rfl, rfl⟩
    rintro d ⟨⟩
    exact ⟨_, _, rfl⟩

theorem tracks_move {p : Pbuf} {sender : Endpoint} (hs : s.Tracks)
    (h : Move ctx mem s p sender s') : s'.Tracks := by
  have hbuf := Tracks.buffer hs
  cases h with
  | error code str => exact hs.sendPacket ..
  | malformed str hnone hp => exact Server.Tracks.sendPacket (s := { s with timers := _ }) hs ..
  | notOpened write filename mode fs hnone hp ho =>
    refine Server.Tracks.sendPacket ?_ ..
    unfold Server.Tracks
    rw [session_notBegun]
    exact ⟨by rintro k ⟨⟩, hbuf⟩
  | upload filename mode h fs hnone hop hp ho =>
    refine Server.Tracks.sendPacket ?_ ..
    unfold Server.Tracks
    rw [session_begun]
    exact .begin hbuf ..
  | download filename mode h fs hnone hop hp ho =>
    refine Server.Tracks.sendData ?_ rfl
    unfold Server.Tracks
    rw [session_begun]
    exact .begin hbuf ..
  | stored h fs hh hw hop hk hlen ho =>
    have hwrote : (s.wrote h (ctx.removeHeader p 4).bytes true fs).Tracks := by
      unfold Server.Tracks
      rw [session_wrote_true]
      exact Tracks.map hs fun _ => ⟨rfl, rfl, rfl⟩
    exact (hwrote.sendPacket ..).next hh
  | storedLast h fs hh hw hop hk hlen ho => exact .closeHandle ..
  | failed h fs s' hh hw hop hk ho hc =>
    split_ifs
    · exact .closeHandle ..
    · subst hc
      exact Server.Tracks.closeHandle ctx _
  | repeated h hh hw hop hk => exact hs.sendPacket ..
  | advanced h hh hw hop hk hd =>
    exact (hs.next hh).sendData hh
  | finished h d hh hw hop hk hd hlen => exact .closeHandle ..

theorem tracks_step {a : Act} (hs : s.Tracks) (h : step ctx s a = some s') : s'.Tracks := by
  cases a with
  | recv p sender mem =>
    obtain rfl := Option.some.inj h
    obtain ⟨-, heq⟩ | ⟨-, s', hmove, heq⟩ := recv_cases ctx mem s p sender
    · rw [heq]
      unfold Server.Tracks
      rw [session_push_freed]
      refine Server.Tracks.sendPacket (s := s.push [.taken .datagram]) ?_ ..
      unfold Server.Tracks
      rw [session_push_taken]
      exact hs
    · rw [heq]
      unfold Server.Tracks
      rw [session_push_freed]
      refine tracks_move (s := s.seen) ?_ hmove
      unfold Server.Tracks
      rw [session_seen]
      exact hs
  | tmr mem =>
    obtain ⟨-, rfl⟩ : 0 < s.timers ∧ s.tmr ctx mem = s' := by
      simpa [step] using h
    obtain ⟨-, heq⟩ | ⟨h, -, ⟨-, heq⟩ | ⟨-, -, -, heq⟩ | ⟨-, -, heq⟩⟩ := tmr_cases ctx mem s
    · rw [heq]
      exact hs
    · rw [heq]
      exact hs
    · rw [heq]
      exact Server.Tracks.resendData (s := s.ticked) hs
    · rw [heq]
      exact .closeHandle ..

/-! ## What was opened -/

/-- What is said of the file system after every opening holds for the start of the transfer. -/
def Started (P : φ → Prop) (o : Option (Session H φ)) : Prop := ∀ S, o = some S → P S.start

section Started

variable {P : φ → Prop} {o : Option (Session H φ)}

theorem Started.map (h : Started P o) {f : Session H φ → Session H φ}
    (hf : ∀ S, (f S).start = S.start) : Started P (o.map f) := by
  intro S' hS'
  obtain ⟨S, hS, rfl⟩ := Option.map_eq_some_iff.mp hS'
  exact (hf S).symm ▸ h S hS

theorem Started.sendPacket (h : Started P (session s.log)) (site : Site) (dest : Endpoint)
    (packet : List Byte) : Started P (session (s.sendPacket mem site dest packet).log) := by
  rw [session_sendPacket]
  exact h.map fun _ => rfl

theorem Started.resendData (h : Started P (session s.log)) :
    Started P (session (s.resendData mem).log) := by
  cases hd : s.lastData with
  | none =>
    unfold Server.resendData
    rw [hd]
    exact h
  | some d =>
    rw [session_resendData s hd]
    exact h.sendPacket _ _ _

theorem Started.sendData (hs : Started P (session s.log)) (h : H) :
    Started P (session (s.sendData ctx mem h).log) := by
  obtain ⟨f, hf, hkeep⟩ := session_sendData s ctx mem h
  rw [hf]
  exact hs.map fun S => (hkeep S).2

theorem Started.begun {q : Endpoint} {write : Bool} {h : H} {fs : φ} (hfs : P fs) :
    Started P (session (s.begun q write h fs).log) := by
  rw [session_begun]
  rintro S ⟨⟩
  exact hfs

theorem started_move {p : Pbuf} {sender : Endpoint}
    (hopen : ∀ f m w fs h fs', ctx.openFile f m w fs = (some h, fs') → P fs')
    (hs : Started P (session s.log)) (h : Move ctx mem s p sender s') :
    Started P (session s'.log) := by
  cases h with
  | error code str => exact hs.sendPacket _ _ _
  | malformed str hnone hp => exact Started.sendPacket (s := { s with timers := _ }) hs _ _ _
  | notOpened write filename mode fs hnone hp ho =>
    refine Started.sendPacket ?_ _ _ _
    rw [session_notBegun]
    exact hs
  | upload filename mode h fs hnone hop hp ho =>
    exact (Started.begun (hopen _ _ _ _ _ _ ho)).sendPacket _ _ _
  | download filename mode h fs hnone hop hp ho =>
    exact (Started.begun (hopen _ _ _ _ _ _ ho)).sendData _
  | stored h fs hh hw hop hk hlen ho =>
    have hwrote : Started P (session (s.wrote h (ctx.removeHeader p 4).bytes true fs).log) := by
      rw [session_wrote_true]
      exact hs.map fun _ => rfl
    exact hwrote.sendPacket .ack s.peer (ackPacket (p.sbuf 1))
  | storedLast h fs hh hw hop hk hlen ho =>
    rw [session_closeHandle]
    refine Started.sendPacket ?_ _ _ _
    rw [session_wrote_true]
    exact hs.map fun _ => rfl
  | failed h fs s' hh hw hop hk ho hc =>
    have herror : Started P (session s'.log) := by
      rw [hc, session_closeHandle]
      refine Started.sendPacket ?_ _ _ _
      rw [session_wrote_false]
      exact hs
    split_ifs
    · rw [session_closeHandle]
      exact herror
    · exact herror
  | repeated h hh hw hop hk => exact hs.sendPacket _ _ _
  | advanced h hh hw hop hk hd => exact Started.sendData (s := s.next) hs h
  | finished h d hh hw hop hk hd hlen =>
    rw [session_closeHandle]
    exact hs

theorem started_step {a : Act}
    (hopen : ∀ f m w fs h fs', ctx.openFile f m w fs = (some h, fs') → P fs')
    (hs : Started P (session s.log)) (h : step ctx s a = some s') : Started P (session s'.log) := by
  cases a with
  | recv p sender mem =>
    obtain rfl := Option.some.inj h
    obtain ⟨-, heq⟩ | ⟨-, s', hmove, heq⟩ := recv_cases ctx mem s p sender
    · rw [heq, session_push_freed]
      refine Started.sendPacket ?_ _ _ _
      rw [session_push_taken]
      exact hs
    · rw [heq, session_push_freed]
      refine started_move hopen ?_ hmove
      rw [session_seen]
      exact hs
  | tmr mem =>
    obtain ⟨-, rfl⟩ : 0 < s.timers ∧ s.tmr ctx mem = s' := by
      simpa [step] using h
    obtain ⟨-, heq⟩ | ⟨h, -, ⟨-, heq⟩ | ⟨-, -, -, heq⟩ | ⟨-, -, heq⟩⟩ := tmr_cases ctx mem s
    · rw [heq]
      exact hs
    · rw [heq]
      exact hs
    · rw [heq]
      exact Started.resendData (s := s.ticked) hs
    · rw [heq, session_closeHandle]
      exact hs

end Started

end Step

end Psc.Tftp
