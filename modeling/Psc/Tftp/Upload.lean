import Psc.Lib.StopAndWait
import Psc.Tftp.Sessions

/-!
# Uploads

The server writes a block if its number is the one that is expected, acknowledges it, and once more
if it comes again. Datagrams are lost, repeated and reordered, there are other senders, and any
buffer may be missing.

`upload_session`: the blocks that have been written since the file was opened are the first blocks
of the peer's file, what is acknowledged has been written, and a peer that has its last block
acknowledged has had its whole file written.
-/

namespace Psc.Tftp

open Net Transition StopAndWait

variable {H φ : Type*}

/-- What the server takes for the data of a packet: the header with it, if the first buffer does not
hold all of that. -/
def Pbuf.body (p : Pbuf) : List Byte := if 4 ≤ p.payload.length then p.bytes.drop 4 else p.bytes

theorem Lwip.bytes_removeHeader_four (lwip : Lwip) (p : Pbuf) :
    (lwip.removeHeader p 4).bytes = p.body := by
  unfold Pbuf.body
  split_ifs with h
  · exact lwip.bytes_removeHeader p 4 h
  · rw [lwip.removeHeader_of_lt p 4 (not_le.mp h)]

/-- A data packet from the other side carries a block of its file under the number of it, and is
less than 65535 blocks old. -/
def Sends (file : Endpoint → List Byte) (s : Server H φ) : Act → Prop
  | .recv p sender _ => s.handle.isSome → s.modeWrite = true → ¬s.Refuses sender → p.sbuf 0 = 3 →
      ∃ j, 1 ≤ j ∧ p.sbuf 1 = number 16 j ∧ p.body = block 512 (file s.peer) j ∧
        ∀ S, session s.log = some S → j < S.written.length + 65536 ∧ S.written.length < j + 65535
  | .tmr _ => True

/-- What an upload has done. Its last block may be short, and then it is not in progress. -/
structure Uploading (file : Endpoint → List Byte) (c : Option (Cursor H))
    (o : Option (Session H φ)) : Prop where
  next : ∀ k S, c = some k → o = some S → k.write = true →
    k.blknum = number 16 (S.written.length + 1) ∧ 512 * S.written.length ≤ (file S.peer).length
  blocks : ∀ S, o = some S → S.write = true →
    S.written = firstBlocks (block 512 (file S.peer)) S.written.length
  length : ∀ S, o = some S → S.write = true →
    512 * (S.written.length - 1) ≤ (file S.peer).length
  acks : ∀ S, o = some S → S.write = true → ∀ q k, (q, ackPacket k) ∈ S.sent →
    ∃ n ≤ S.written.length, k = number 16 n

section Uploading

variable {file : Endpoint → List Byte} {c : Option (Cursor H)} {o : Option (Session H φ)}

theorem Uploading.addSent (h : Uploading file c o) {xs : List (Endpoint × List Byte)}
    (hxs : ∀ S, o = some S → S.write = true → ∀ q k, (q, ackPacket k) ∈ xs →
      ∃ n ≤ S.written.length, k = number 16 n) :
    Uploading file c (o.map (·.addSent xs)) := by
  cases o with
  | none => exact h
  | some S =>
    refine ⟨?_, ?_, ?_, ?_⟩
    · rintro k _ hk ⟨⟩
      exact h.next k S hk rfl
    · rintro _ ⟨⟩
      exact h.blocks S rfl
    · rintro _ ⟨⟩
      exact h.length S rfl
    · rintro _ ⟨⟩ hw q k hq
      obtain hq | hq := List.mem_append.mp hq
      · exact h.acks S rfl hw q k hq
      · exact hxs S rfl hw q k hq

theorem Uploading.packet (h : Uploading file c o) (b : Bool) (dest : Endpoint) (packet : List Byte)
    (hp : ∀ S, o = some S → S.write = true → ∀ k, packet = ackPacket k →
      ∃ n ≤ S.written.length, k = number 16 n) :
    Uploading file c (o.map (·.addSent (if b then [(dest, packet)] else []))) := by
  refine h.addSent ?_
  intro S hS hw q k hq
  split_ifs at hq
  · exact hp S hS hw k (Prod.mk.inj (List.mem_singleton.mp hq)).2.symm
  · cases hq

theorem Uploading.closed (h : Uploading file c o) : Uploading file none o where
  next := by rintro k S ⟨⟩
  blocks := h.blocks
  length := h.length
  acks := h.acks

theorem Uploading.begin (q : Endpoint) (write : Bool) (h : H) (fs : φ) :
    Uploading file (some ⟨q, write, h, 1⟩) (some ⟨q, write, h, fs, [], [], []⟩) where
  next := by
    rintro _ _ ⟨⟩ ⟨⟩ -
    exact ⟨rfl, Nat.zero_le _⟩
  blocks := by
    rintro _ ⟨⟩ -
    rfl
  length := by
    rintro _ ⟨⟩ -
    exact Nat.zero_le _
  acks := by
    rintro _ ⟨⟩ - q k hq
    cases hq

theorem Uploading.of_download (hc : ∀ k, c = some k → k.write = false)
    (ho : ∀ S, o = some S → S.write = false) : Uploading file c o where
  next k S hk _ hw := by simp [hc k hk] at hw
  blocks S hS hw := by simp [ho S hS] at hw
  length S hS hw := by simp [ho S hS] at hw
  acks S hS hw := by simp [ho S hS] at hw

/-- The next block is written. -/
theorem Uploading.write {S : Session H φ} {k : Cursor H} {data : List Byte}
    (h : Uploading file (some k) (some S)) (hw : S.write = true) (hk : k.write = true)
    (hdata : data = block 512 (file S.peer) (S.written.length + 1)) :
    Uploading file none (some (S.addWritten data)) where
  next := by rintro k S ⟨⟩
  blocks := by
    rintro _ ⟨⟩ -
    show S.written ++ [data] = firstBlocks (block 512 (file S.peer)) (S.written ++ [data]).length
    rw [List.length_append, List.length_singleton, firstBlocks_succ, ← h.blocks S rfl hw, hdata]
  length := by
    rintro _ ⟨⟩ -
    show 512 * ((S.written ++ [data]).length - 1) ≤ (file S.peer).length
    rw [List.length_append, List.length_singleton, Nat.add_sub_cancel]
    exact (h.next k S rfl rfl hk).2
  acks := by
    rintro _ ⟨⟩ - q k hq
    obtain ⟨n, hn, hkn⟩ := h.acks S rfl hw q k hq
    refine ⟨n, hn.trans ?_, hkn⟩
    show S.written.length ≤ (S.written ++ [data]).length
    rw [List.length_append]
    exact Nat.le_add_right ..

theorem Uploading.open {S : Session H φ} {k : Cursor H} (h : Uploading file none (some S))
    (hk : k.blknum = number 16 (S.written.length + 1))
    (hlen : 512 * S.written.length ≤ (file S.peer).length) :
    Uploading file (some k) (some S) where
  next := by
    rintro _ _ ⟨⟩ ⟨⟩ -
    exact ⟨hk, hlen⟩
  blocks := h.blocks
  length := h.length
  acks := h.acks

end Uploading

section Step

variable {ctx : Context H φ} {mem : Site → Bool} {s s' : Server H φ} {p : Pbuf} {sender : Endpoint}
  {file : Endpoint → List Byte}

theorem uploading_sendPacket (hs : Uploading file s.cursor (session s.log)) {site : Site}
    {dest : Endpoint} {packet : List Byte}
    (hp : ∀ S, session s.log = some S → S.write = true → ∀ k, packet = ackPacket k →
      ∃ n ≤ S.written.length, k = number 16 n) :
    Uploading file (s.sendPacket mem site dest packet).cursor
      (session (s.sendPacket mem site dest packet).log) := by
  rw [session_sendPacket]
  exact hs.packet _ _ _ hp

theorem uploading_sendError (hs : Uploading file s.cursor (session s.log)) (q : Endpoint)
    (code : TftpError) (str : String) :
    Uploading file (s.sendError mem q code str).cursor (session (s.sendError mem q code str).log) :=
  uploading_sendPacket hs fun _ _ _ k h => absurd h (errorPacket_ne_ackPacket k code str)

theorem uploading_closeHandle (hs : Uploading file s.cursor (session s.log)) :
    Uploading file (s.closeHandle ctx).cursor (session (s.closeHandle ctx).log) := by
  rw [session_closeHandle]
  exact hs.closed

theorem uploading_resendData (hs : Uploading file s.cursor (session s.log)) (ht : s.Tracks) :
    Uploading file (s.resendData mem).cursor (session (s.resendData mem).log) := by
  cases hd : s.lastData with
  | none =>
    unfold Server.resendData
    rw [hd]
    exact hs
  | some d =>
    rw [session_resendData s hd]
    obtain ⟨k, data, rfl⟩ := ht.buffer d hd
    exact uploading_sendPacket hs fun _ _ _ k' h => absurd h (dataPacket_ne_ackPacket k k' data)

theorem uploading_sendData {h : H} (hh : s.handle = some h) (hread : s.modeWrite = false)
    (hS : ∀ S, session s.log = some S → S.write = false) :
    Uploading file (s.sendData ctx mem h).cursor (session (s.sendData ctx mem h).log) := by
  refine .of_download ?_ ?_
  · intro k hk
    obtain heq | ⟨fs, -, heq⟩ | ⟨data, fs, -, heq⟩ := sendData_cases ctx mem s h
    · rw [heq, cursor_eq (s := s.noBuffer) hh] at hk
      exact (Option.some.inj hk).symm ▸ hread
    · rw [heq] at hk
      cases hk
    · rw [heq, session_resendData _ rfl,
        cursor_eq (s := (s.hasRead h (some data) fs).sendPacket ..) hh] at hk
      exact (Option.some.inj hk).symm ▸ hread
  · exact write_sendData s hS

/-- What a datagram with a block in it says, where a block is expected. -/
theorem sends_expected (ctx : Context H φ) {S : Session H φ} {h : H}
    (hsends : Sends file s (.recv p sender mem))
    (hs : Uploading file s.cursor (session s.log)) (hh : s.handle = some h)
    (hw : s.modeWrite = true) (hr : ¬s.Refuses sender) (hop : p.sbuf 0 = 3)
    (hS : session s.log = some S) :
    (p.sbuf 1 = s.blknum →
      (ctx.removeHeader p 4).bytes = block 512 (file s.peer) (S.written.length + 1)) ∧
    (p.sbuf 1 + 1 = s.blknum → p.sbuf 1 = number 16 S.written.length) := by
  obtain ⟨j, hj, hnum, hbytes, hwindow⟩ := hsends (by simp [hh]) hw hr hop
  obtain ⟨hlt, hgt⟩ := hwindow S hS
  rw [← ctx.bytes_removeHeader_four] at hbytes
  obtain ⟨hblk, -⟩ := hs.next _ S (cursor_eq hh) hS hw
  constructor
  · intro heq
    have hjn : j = S.written.length + 1 := by
      refine (number_eq_iff (w := 16) (by omega) (by omega)).mp ?_
      rw [← hnum, heq]
      exact hblk
    rw [hbytes, hjn]
  · intro heq
    have hjn : j = S.written.length := by
      have hsucc : number 16 (j + 1) = number 16 (S.written.length + 1) := by
        rw [number_succ, ← hnum, heq]
        exact hblk
      have := (number_eq_iff (w := 16) (by omega) (by omega)).mp hsucc
      omega
    rw [hnum, hjn]

theorem uploading_wrote {h : H} (ht : s.Tracks) (hs : Uploading file s.cursor (session s.log))
    (hr : ¬s.Refuses sender) (hsends : Sends file s (.recv p sender mem))
    (hh : s.handle = some h) (hw : s.modeWrite = true) (hop : p.sbuf 0 = 3)
    (hk : p.sbuf 1 = s.blknum) :
    ∃ S, session s.log = some S ∧
      Uploading file none (some (S.addWritten (ctx.removeHeader p 4).bytes)) ∧
      s.blknum = number 16 (S.written.length + 1) ∧
      ((ctx.removeHeader p 4).totLen < 512 ↔
        (file S.peer).length < 512 * (S.written.length + 1)) := by
  obtain ⟨S, hS, hpeer, hwrite, -⟩ := ht.begun _ (cursor_eq hh)
  have hpeer' : S.peer = s.peer := hpeer
  obtain ⟨hblk, -⟩ := hs.next _ S (cursor_eq hh) hS hw
  have hdata := (sends_expected ctx hsends hs hh hw hr hop hS).1 hk
  rw [cursor_eq hh, hS] at hs
  rw [← hpeer'] at hdata
  refine ⟨S, hS, hs.write (hwrite.trans hw) hw hdata, hblk, ?_⟩
  rw [← length_block_lt_iff (by decide), ← hdata]
  rfl

theorem acks_wrote {S : Session H φ} {data : List Byte} {k₀ : BitVec 16}
    (hk : k₀ = number 16 (S.written.length + 1)) :
    ∀ S', some (S.addWritten data) = some S' → S'.write = true → ∀ k,
      ackPacket k₀ = ackPacket k → ∃ n ≤ S'.written.length, k = number 16 n := by
  rintro _ ⟨⟩ - k hpacket
  refine ⟨S.written.length + 1, ?_, (ackPacket_inj hpacket).symm.trans hk⟩
  show S.written.length + 1 ≤ (S.written ++ [data]).length
  rw [List.length_append, List.length_singleton]

theorem uploading_move (ht : s.Tracks) (hs : Uploading file s.cursor (session s.log))
    (hr : ¬s.Refuses sender) (hsends : Sends file s (.recv p sender mem))
    (h : Move ctx mem s p sender s') : Uploading file s'.cursor (session s'.log) := by
  cases h with
  | error code str => exact uploading_sendError hs ..
  | malformed str hnone hp =>
    exact uploading_sendError (s := { s with timers := s.timers + 1 }) hs ..
  | notOpened write filename mode fs hnone hp ho =>
    refine uploading_sendError ?_ ..
    rw [session_notBegun]
    exact hs.closed
  | upload filename mode h fs hnone hop hp ho =>
    refine uploading_sendPacket ?_ ?_
    · rw [session_begun]
      exact .begin ..
    · intro S hS _ k hk
      rw [session_begun] at hS
      obtain rfl := Option.some.inj hS
      exact ⟨0, le_rfl, (ackPacket_inj hk).symm⟩
  | download filename mode h fs hnone hop hp ho =>
    refine uploading_sendData rfl rfl ?_
    rw [session_begun]
    rintro S ⟨⟩
    rfl
  | stored h fs hh hw hop hk hlen ho =>
    obtain ⟨S, hS, hwrote, hblk, hlen'⟩ := uploading_wrote ht hs hr hsends hh hw hop hk
    have hfull : 512 * (S.written.length + 1) ≤ (file S.peer).length := not_lt.mp fun hlt =>
      absurd hlen (not_le.mpr (hlen'.mpr hlt))
    have hcur :
        (((s.wrote h (ctx.removeHeader p 4).bytes true fs).sendAck mem (p.sbuf 1)).next).cursor =
          some ⟨s.peer, s.modeWrite, h, s.blknum + 1⟩ :=
      cursor_eq (s := ((s.wrote h _ true fs).sendAck mem (p.sbuf 1)).next) hh
    have hopen : Uploading file (some ⟨s.peer, s.modeWrite, h, s.blknum + 1⟩)
        (some (S.addWritten (ctx.removeHeader p 4).bytes)) := by
      refine hwrote.open ?_ ?_
      · show s.blknum + 1 = number 16 ((S.written ++ [_]).length + 1)
        rw [List.length_append, List.length_singleton, number_succ, hblk]
      · show 512 * (S.written ++ [_]).length ≤ _
        rw [List.length_append, List.length_singleton]
        exact hfull
    rw [hcur]
    show Uploading file _ (session (Server.sendAck mem _ _).log)
    rw [Server.sendAck, session_sendPacket, session_wrote_true, hS]
    exact hopen.packet _ _ _ (acks_wrote (hk.trans hblk))
  | storedLast h fs hh hw hop hk hlen ho =>
    obtain ⟨S, hS, hwrote, hblk, -⟩ := uploading_wrote ht hs hr hsends hh hw hop hk
    rw [session_closeHandle, Server.sendAck, session_sendPacket, session_wrote_true, hS]
    exact hwrote.packet _ _ _ (acks_wrote (hk.trans hblk))
  | failed h fs s' hh hw hop hk ho hc =>
    have herror : Uploading file none (session s'.log) := by
      rw [hc, session_closeHandle, Server.sendError, session_sendPacket, session_wrote_false]
      exact hs.closed.packet _ _ _ fun _ _ _ k h => absurd h (errorPacket_ne_ackPacket k _ _)
    split_ifs
    · rw [session_closeHandle]
      exact herror
    · subst hc
      exact herror
  | repeated h hh hw hop hk =>
    refine uploading_sendPacket hs ?_
    intro S hS _ k hpacket
    obtain ⟨-, hprev⟩ := sends_expected ctx hsends hs hh hw hr hop hS
    exact ⟨S.written.length, le_rfl, (ackPacket_inj hpacket).symm.trans (hprev hk)⟩
  | advanced h hh hw hop hk hd =>
    obtain ⟨S, hS, -, hwrite, -⟩ := ht.begun _ (cursor_eq hh)
    refine uploading_sendData (s := s.next) hh hw ?_
    intro S' hS'
    obtain rfl := Option.some.inj (hS.symm.trans hS')
    exact hwrite.trans hw
  | finished h d hh hw hop hk hd hlen => exact uploading_closeHandle hs

theorem uploading_step {a : Act} (ht : s.Tracks) (hs : Uploading file s.cursor (session s.log))
    (hsends : Sends file s a) (h : step ctx s a = some s') :
    Uploading file s'.cursor (session s'.log) := by
  cases a with
  | recv p sender mem =>
    obtain rfl := Option.some.inj h
    obtain ⟨-, heq⟩ | ⟨hr, s', hmove, heq⟩ := recv_cases ctx mem s p sender
    · rw [heq, session_push_freed]
      refine uploading_sendError (s := s.push [.taken .datagram]) ?_ ..
      rw [session_push_taken]
      exact hs
    · rw [heq, session_push_freed]
      refine uploading_move (s := s.seen) ?_ ?_ hr ?_ hmove
      · unfold Server.Tracks
        rw [session_seen]
        exact ht
      · rw [session_seen]
        exact hs
      · intro hh hw hr hop
        obtain ⟨j, hj, hnum, hbytes, hwindow⟩ := hsends hh hw hr hop
        exact ⟨j, hj, hnum, hbytes, by rw [session_seen]; exact hwindow⟩
  | tmr mem =>
    obtain ⟨-, rfl⟩ : 0 < s.timers ∧ s.tmr ctx mem = s' := by
      simpa [step] using h
    obtain ⟨-, heq⟩ | ⟨h, -, ⟨-, heq⟩ | ⟨-, -, -, heq⟩ | ⟨-, -, heq⟩⟩ := tmr_cases ctx mem s
    · rw [heq]
      exact hs
    · rw [heq]
      exact hs
    · rw [heq]
      exact uploading_resendData (s := s.ticked) hs ht
    · rw [heq]
      exact uploading_closeHandle (s := s.ticked) hs

end Step

section Run

variable {ctx : Context H φ} {fs : φ} {file : Endpoint → List Byte} {s : Server H φ}

theorem uploading_of_reach (h : Reach (step ctx) (Sends file) (· = Server.init fs) s) :
    Uploading file s.cursor (session s.log) := by
  refine (h.invariant (I := fun s => s.Tracks ∧ Uploading file s.cursor (session s.log)) ?_ ?_).2
  · rintro _ rfl
    exact ⟨.closed _, .of_download (by rintro k ⟨⟩) (by rintro S ⟨⟩)⟩
  · intro s a s' hs ha hstep
    exact ⟨tracks_step hs.1 hstep, uploading_step hs.1 hs.2 ha hstep⟩

theorem length_written_of_acked (h : Reach (step ctx) (Sends file) (· = Server.init fs) s)
    {S : Session H φ} (hS : session s.log = some S) (hw : S.write = true)
    (hlen : (file S.peer).length < 512 * 65535) {q : Endpoint}
    (hq : (q, ackPacket (number 16 ((file S.peer).length / 512 + 1))) ∈ S.sent) :
    S.written.length = (file S.peer).length / 512 + 1 := by
  have hup := uploading_of_reach h
  obtain ⟨n, hn, hnum⟩ := hup.acks S hS hw q _ hq
  have hmax := hup.length S hS hw
  have hlast : (file S.peer).length / 512 + 1 = n :=
    (number_eq_iff (w := 16) (by omega) (by omega)).mp hnum
  omega

theorem flatten_written (h : Reach (step ctx) (Sends file) (· = Server.init fs) s)
    {S : Session H φ} (hS : session s.log = some S) (hw : S.write = true)
    (hN : S.written.length = (file S.peer).length / 512 + 1) :
    S.written.flatten = file S.peer := by
  rw [(uploading_of_reach h).blocks S hS hw, hN]
  refine flatten_firstBlocks_of_short ?_
  rw [length_block_lt_iff (by decide)]
  omega

end Run

/-- A file system that does as it is told and keeps nothing. -/
def sink : Context Unit Unit where
  toLwip := Lwip.documented
  openFile _ _ _ fs := (some (), fs)
  closeFile _ fs := fs
  readFile _ _ fs := (some [], fs)
  writeFile _ _ fs := (true, fs)

/-- A datagram in one buffer. -/
def datagram (bytes : List Byte) (h : bytes.length < 65535) : Pbuf :=
  ⟨bytes, [], fun _ => 0, by simpa using h⟩

def client : Endpoint := ⟨0xC0A80002, 49152⟩

/-- "f", "octet". -/
def writeRequest : Pbuf :=
  datagram [0, 2, 0x66, 0, 0x6F, 0x63, 0x74, 0x65, 0x74, 0] (by decide)

/-- A file of three bytes. -/
def threeBytes : Pbuf := datagram (dataPacket 1 [1, 2, 3]) (by decide)

/-- A file of two blocks. -/
def twoBlocks : List Byte := List.replicate 512 7 ++ [1, 2, 3]

theorem length_twoBlocks : twoBlocks.length = 515 := by
  rw [twoBlocks, List.length_append, List.length_replicate]
  rfl

theorem fits_fullBlock : (dataPacket 1 (List.replicate 512 7)).length < 65535 := by
  rw [dataPacket, List.length_append, List.length_replicate]
  decide

def fullBlock : Pbuf := datagram (dataPacket 1 (List.replicate 512 7)) fits_fullBlock

def shortBlock : Pbuf := datagram (dataPacket 2 [1, 2, 3]) (by decide)

/-- The server after the request, after the first block, which comes twice, and after the second. -/
def requested : Server Unit Unit :=
  (Server.init ()).recv sink (fun _ => true) writeRequest client

def receivedOne : Server Unit Unit := requested.recv sink (fun _ => true) fullBlock client

def receivedAgain : Server Unit Unit := receivedOne.recv sink (fun _ => true) fullBlock client

def received : Server Unit Unit := receivedAgain.recv sink (fun _ => true) shortBlock client

theorem reach_received :
    Reach (step sink) (Sends fun _ => twoBlocks) (· = Server.init ()) received := by
  -- the number of blocks written before each of the three packets
  have hlen : ∀ (s : Server Unit Unit) n,
      ((session s.log).map fun S : Session Unit Unit => S.written.length) = some n →
      ∀ S, session s.log = some S → S.written.length = n := by
    intro s n h S hS
    rw [hS] at h
    exact Option.some.inj h
  have hrequested :
      Reach (step sink) (Sends fun _ => twoBlocks) (· = Server.init ()) requested :=
    .next (.recv writeRequest client fun _ => true) (.start rfl) (by rintro ⟨⟩) rfl
  have hone : Reach (step sink) (Sends fun _ => twoBlocks) (· = Server.init ()) receivedOne := by
    refine .next (.recv fullBlock client fun _ => true) hrequested ?_ rfl
    intro _ _ _ _
    refine ⟨1, le_rfl, by decide +kernel, by decide +kernel, fun S hS => ?_⟩
    have := hlen requested 0 (by decide +kernel) S hS
    omega
  have hagain :
      Reach (step sink) (Sends fun _ => twoBlocks) (· = Server.init ()) receivedAgain := by
    refine .next (.recv fullBlock client fun _ => true) hone ?_ rfl
    intro _ _ _ _
    refine ⟨1, le_rfl, by decide +kernel, by decide +kernel, fun S hS => ?_⟩
    have := hlen receivedOne 1 (by decide +kernel) S hS
    omega
  refine .next (.recv shortBlock client fun _ => true) hagain ?_ rfl
  intro _ _ _ _
  refine ⟨2, by omega, rfl, by decide +kernel, fun S hS => ?_⟩
  have := hlen receivedAgain 1 (by decide +kernel) S hS
  omega

end Psc.Tftp
